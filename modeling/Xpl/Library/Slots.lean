import Mathlib.Algebra.BigOperators.Group.Finset.Basic
import Mathlib.Algebra.Order.BigOperators.Group.Multiset
import Mathlib.Data.Nat.ModEq
import Mathlib.Data.Nat.Prime.Basic
import Mathlib.Tactic.Ring

/-! Open addressing with triangular probing.

A table of `2 ^ n` slots is searched from a start by steps of 1, 2, 3 and so on. A removed entry
leaves a tombstone, which a search passes over.
-/

set_option autoImplicit false

namespace Xpl.Library

def triangle : Nat → Nat
  | 0 => 0
  | k + 1 => triangle k + (k + 1)

/-- The slot that the search from `start` looks at after `k` steps. -/
def probeSlot (size start k : Nat) : Nat := (start + triangle k) % size

theorem two_mul_triangle (k : Nat) : 2 * triangle k = k * (k + 1) := by
  induction k with
  | zero => rfl
  | succ k ih =>
    rw [triangle, Nat.mul_add, ih]
    ring

theorem probeSlot_zero {size start : Nat} (inside : start < size) : probeSlot size start 0 = start :=
  Nat.mod_eq_of_lt inside

theorem probeSlot_succ (size start k : Nat) :
    probeSlot size start (k + 1) = (probeSlot size start k + (k + 1)) % size := by
  unfold probeSlot
  rw [triangle, Nat.mod_add_mod, Nat.add_assoc]

theorem probeSlot_lt {size : Nat} (positive : 0 < size) (start k : Nat) : probeSlot size start k < size :=
  Nat.mod_lt _ positive

section Coverage

theorem triangle_injective {n i j : Nat} (order : i < j) (small : j < 2 ^ n) :
    triangle i % 2 ^ n ≠ triangle j % 2 ^ n := by
  intro same
  obtain ⟨d, rfl⟩ := Nat.exists_eq_add_of_lt order
  have twice : 2 * triangle (i + d + 1) = 2 * triangle i + (d + 1) * (2 * i + d + 2) := by
    rw [two_mul_triangle, two_mul_triangle]
    ring
  have divides : 2 ^ (n + 1) ∣ (d + 1) * (2 * i + d + 2) := by
    have gap : 2 ^ n ∣ triangle (i + d + 1) - triangle i := (Nat.modEq_iff_dvd' (by omega)).mp same
    have doubled := Nat.mul_dvd_mul_left 2 gap
    rw [pow_succ, Nat.mul_comm]
    rwa [Nat.mul_sub, twice, Nat.add_sub_cancel_left] at doubled
  rcases Nat.even_or_odd (d + 1) with even | odd
  · have coprime : Nat.Coprime (2 ^ n * 2) (2 * i + d + 2) := by
      rw [← pow_succ]
      apply Nat.Coprime.pow_left
      rw [Nat.coprime_two_left]
      rw [Nat.even_iff] at even
      rw [Nat.odd_iff]
      omega
    have := Nat.le_of_dvd (Nat.succ_pos d) (coprime.dvd_of_dvd_mul_right divides)
    omega
  · have coprime : Nat.Coprime (2 ^ n * 2) (d + 1) := by
      rw [← pow_succ]
      exact Nat.Coprime.pow_left _ (Nat.coprime_two_left.mpr odd)
    have := Nat.le_of_dvd (by omega) (coprime.dvd_of_dvd_mul_left divides)
    omega

theorem probeSlot_injective {n start i j : Nat} (first : i < 2 ^ n) (second : j < 2 ^ n)
    (same : probeSlot (2 ^ n) start i = probeSlot (2 ^ n) start j) : i = j := by
  have residues : triangle i % 2 ^ n = triangle j % 2 ^ n := Nat.ModEq.add_left_cancel' start same
  rcases Nat.lt_trichotomy i j with less | equal | greater
  · exact absurd residues (triangle_injective less second)
  · exact equal
  · exact absurd residues.symm (triangle_injective greater first)

theorem probeSlot_surjective {n slot : Nat} (start : Nat) (inside : slot < 2 ^ n) :
    ∃ k < 2 ^ n, probeSlot (2 ^ n) start k = slot := by
  have all : (Finset.range (2 ^ n)).image (probeSlot (2 ^ n) start) = Finset.range (2 ^ n) := by
    apply Finset.eq_of_subset_of_card_le
    · intro i member
      obtain ⟨k, _, rfl⟩ := Finset.mem_image.mp member
      exact Finset.mem_range.mpr (probeSlot_lt (Nat.pow_pos Nat.two_pos) start k)
    · rw [Finset.card_image_of_injOn]
      intro i first j second same
      exact probeSlot_injective (Finset.mem_range.mp first) (Finset.mem_range.mp second) same
  have member := Finset.mem_range.mpr inside
  rw [← all] at member
  obtain ⟨k, below, same⟩ := Finset.mem_image.mp member
  exact ⟨k, Finset.mem_range.mp below, same⟩

end Coverage

/-! The slots of a table with open addressing: where an entry may lie so that a search finds it. -/

variable {H E : Type}

inductive Slot (H E : Type) where
  | unused
  | tombstone
  | real (hash : H) (entry : E)

namespace Slot

def occupied : Slot H E → Bool
  | unused => false
  | tombstone | real _ _ => true

def content : Slot H E → Option (H × E)
  | real hash entry => some (hash, entry)
  | unused | tombstone => none

@[simp] theorem occupied_unused : (unused : Slot H E).occupied = false := rfl

@[simp] theorem occupied_tombstone : (tombstone : Slot H E).occupied = true := rfl

@[simp] theorem occupied_real (hash : H) (entry : E) : (real hash entry).occupied = true := rfl

@[simp] theorem content_unused : (unused : Slot H E).content = none := rfl

@[simp] theorem content_tombstone : (tombstone : Slot H E).content = none := rfl

@[simp] theorem content_real (hash : H) (entry : E) : (real hash entry).content = some (hash, entry) := rfl

theorem content_eq_some {slot : Slot H E} {hash : H} {entry : E} :
    slot.content = some (hash, entry) ↔ slot = real hash entry := by
  cases slot with
  | unused => simp
  | tombstone => simp
  | real h e => simp

end Slot

section Counting

variable (slots : Nat → Slot H E) (n : Nat)

def entriesBelow : List (H × E) := (List.range n).filterMap fun i => (slots i).content

def realsBelow : Nat := (entriesBelow slots n).length

def occupiedBelow : Nat := (List.range n).countP fun i => (slots i).occupied

theorem entriesBelow_succ : entriesBelow slots (n + 1) = entriesBelow slots n ++ (slots n).content.toList := by
  unfold entriesBelow
  rw [List.range_succ, List.filterMap_append]
  cases content : (slots n).content with
  | none => simp [content]
  | some entry => simp [content]

theorem occupiedBelow_succ : occupiedBelow slots (n + 1) = occupiedBelow slots n + (slots n).occupied.toNat := by
  unfold occupiedBelow
  rw [List.range_succ, List.countP_append]
  cases occupied : (slots n).occupied <;> simp [occupied]

variable {slots n}

theorem mem_entriesBelow {hash : H} {entry : E} :
    (hash, entry) ∈ entriesBelow slots n ↔ ∃ i < n, slots i = .real hash entry := by
  simp [entriesBelow, Slot.content_eq_some]

theorem entriesBelow_congr {other : Nat → Slot H E} (same : ∀ i < n, slots i = other i) :
    entriesBelow slots n = entriesBelow other n := by
  apply List.filterMap_congr
  intro i member
  rw [same i (List.mem_range.mp member)]

theorem occupiedBelow_congr {other : Nat → Slot H E} (same : ∀ i < n, (slots i).occupied = (other i).occupied) :
    occupiedBelow slots n = occupiedBelow other n := by
  apply List.countP_congr
  intro i member
  rw [same i (List.mem_range.mp member)]

theorem entriesBelow_update (slots : Nat → Slot H E) {i : Nat} (inside : i < n) (slot : Slot H E) :
    (entriesBelow (Function.update slots i slot) n ++ (slots i).content.toList).Perm
      (entriesBelow slots n ++ slot.content.toList) := by
  induction n with
  | zero => exact absurd inside (Nat.not_lt_zero i)
  | succ n ih =>
    rw [entriesBelow_succ, entriesBelow_succ]
    rcases Nat.lt_succ_iff_lt_or_eq.mp inside with below | rfl
    · rw [Function.update_of_ne (Nat.ne_of_gt below)]
      have swap : ∀ entries one two : List (H × E), (entries ++ one ++ two).Perm (entries ++ two ++ one) := by
        intro entries one two
        rw [List.append_assoc, List.append_assoc]
        exact List.perm_append_comm.append_left _
      exact (swap _ _ _).trans (((ih below).append_right _).trans (swap _ _ _))
    · have before : entriesBelow (Function.update slots i slot) i = entriesBelow slots i :=
        entriesBelow_congr fun j below => Function.update_of_ne (Nat.ne_of_lt below) _ _
      rw [before, Function.update_self, List.append_assoc, List.append_assoc]
      exact List.perm_append_comm.append_left _

theorem entriesBelow_take {i : Nat} {hash : H} {entry : E} (inside : i < n) (held : slots i = .real hash entry) :
    (entriesBelow slots n).Perm ((hash, entry) :: entriesBelow (Function.update slots i .tombstone) n) := by
  have update := entriesBelow_update slots inside .tombstone
  rw [held, Slot.content_real, Slot.content_tombstone, Option.toList_some, Option.toList_none, List.append_nil] at update
  exact update.symm.trans (List.perm_append_singleton _ _)

theorem entriesBelow_put {i : Nat} (inside : i < n) (slots : Nat → Slot H E) (hash : H) (entry : E) :
    (entriesBelow (Function.update slots i (.real hash entry)) n).Perm
      ((hash, entry) :: entriesBelow (Function.update slots i .tombstone) n) := by
  have taken := entriesBelow_take inside (Function.update_self i (Slot.real hash entry) slots)
  rwa [Function.update_idem] at taken

theorem occupiedBelow_update (slots : Nat → Slot H E) {i : Nat} (inside : i < n) (slot : Slot H E) :
    occupiedBelow (Function.update slots i slot) n + (slots i).occupied.toNat =
      occupiedBelow slots n + slot.occupied.toNat := by
  induction n with
  | zero => exact absurd inside (Nat.not_lt_zero i)
  | succ n ih =>
    rw [occupiedBelow_succ, occupiedBelow_succ]
    rcases Nat.lt_succ_iff_lt_or_eq.mp inside with below | rfl
    · rw [Function.update_of_ne (Nat.ne_of_gt below)]
      have := ih below
      omega
    · have before : occupiedBelow (Function.update slots i slot) i = occupiedBelow slots i :=
        occupiedBelow_congr fun j below => by rw [Function.update_of_ne (Nat.ne_of_lt below)]
      rw [before, Function.update_self]
      omega

theorem entriesBelow_extend {m : Nat} (more : n ≤ m) (empty : ∀ i, n ≤ i → (slots i).content = none) :
    entriesBelow slots m = entriesBelow slots n := by
  induction m, more using Nat.le_induction with
  | base => rfl
  | succ m more ih =>
    rw [entriesBelow_succ, ih, empty m more]
    exact List.append_nil _

theorem occupiedBelow_eq (clean : ∀ i < n, slots i ≠ .tombstone) : occupiedBelow slots n = realsBelow slots n := by
  unfold realsBelow
  induction n with
  | zero => rfl
  | succ n ih =>
    have rest := ih fun i less => clean i (Nat.lt_succ_of_lt less)
    rw [occupiedBelow_succ, entriesBelow_succ, List.length_append, rest]
    cases slot : slots n with
    | unused => rfl
    | tombstone => exact absurd slot (clean n (Nat.lt_succ_self n))
    | real hash entry => rfl

theorem realsBelow_le : realsBelow slots n ≤ occupiedBelow slots n := by
  unfold realsBelow
  induction n with
  | zero => exact Nat.le_refl 0
  | succ n ih =>
    rw [entriesBelow_succ, occupiedBelow_succ, List.length_append]
    cases slots n with
    | unused => simpa using ih
    | tombstone => simpa using Nat.le_succ_of_le ih
    | real hash entry => simpa using ih

theorem exists_unused (few : occupiedBelow slots n < n) : ∃ i < n, slots i = .unused := by
  by_contra none
  have all : occupiedBelow slots n = n := by
    unfold occupiedBelow
    rw [List.countP_eq_length.mpr, List.length_range]
    intro i member
    cases slot : slots i with
    | unused => exact absurd ⟨i, List.mem_range.mp member, slot⟩ none
    | tombstone => rfl
    | real hash entry => rfl
  omega

end Counting

section Placement

variable (size : Nat) (home : H → Nat) (slots : Nat → Slot H E)

/-- The search from `start` comes to the slot `i` before it comes to an unused slot. -/
def Reaches (start i : Nat) : Prop :=
  ∃ k, probeSlot size start k = i ∧ ∀ j < k, (slots (probeSlot size start j)).occupied

/-- Every entry is found by the search from the home of its hash. -/
def Placed : Prop := ∀ i < size, ∀ hash entry, slots i = .real hash entry → Reaches size slots (home hash) i

variable {size home slots}

theorem Reaches.mono {other : Nat → Slot H E} {start i : Nat} (reaches : Reaches size slots start i)
    (more : ∀ j, (slots j).occupied → (other j).occupied) : Reaches size other start i := by
  obtain ⟨k, same, before⟩ := reaches
  exact ⟨k, same, fun j less => more _ (before j less)⟩

theorem Placed.write {i : Nat} {slot : Slot H E} (placed : Placed size home slots)
    (full : slot.occupied) (reached : ∀ hash entry, slot = .real hash entry → Reaches size slots (home hash) i) :
    Placed size home (Function.update slots i slot) := by
  have more : ∀ j, (slots j).occupied → (Function.update slots i slot j).occupied := by
    intro j occupied
    by_cases same : j = i
    · rw [same, Function.update_self]
      exact full
    · rw [Function.update_of_ne same]
      exact occupied
  intro j inside hash entry held
  by_cases same : j = i
  · subst same
    rw [Function.update_self] at held
    exact (reached hash entry held).mono more
  · rw [Function.update_of_ne same] at held
    exact (placed j inside hash entry held).mono more

end Placement

section Settling

variable (size : Nat) (home : H → Nat) (slots : Nat → Slot H E) (settled : Finset Nat)

/-- The entries in the `settled` slots are where a search through settled slots finds them. -/
def Settled : Prop :=
  ∀ i ∈ settled, i < size ∧ ∃ hash entry, slots i = .real hash entry ∧
    ∃ k, probeSlot size (home hash) k = i ∧ ∀ j < k, probeSlot size (home hash) j ∈ settled

variable {size home slots settled}

theorem settled_empty : Settled size home slots ∅ := fun _ member => absurd member (Finset.notMem_empty _)

theorem Settled.insert {hash : H} {k : Nat} (holds : Settled size home slots settled) (entry : E)
    (inside : probeSlot size (home hash) k < size) (free : probeSlot size (home hash) k ∉ settled)
    (before : ∀ j < k, probeSlot size (home hash) j ∈ settled) :
    Settled size home (Function.update slots (probeSlot size (home hash) k) (.real hash entry))
      (insert (probeSlot size (home hash) k) settled) := by
  intro i member
  rcases Finset.mem_insert.mp member with rfl | old
  · refine ⟨inside, hash, entry, Function.update_self .., k, rfl, fun j less => ?_⟩
    exact Finset.mem_insert_of_mem (before j less)
  · obtain ⟨below, h, e, held, l, same, earlier⟩ := holds i old
    have other : i ≠ probeSlot size (home hash) k := fun equal => free (equal ▸ old)
    refine ⟨below, h, e, (Function.update_of_ne other _ _).trans held, l, same, fun j less => ?_⟩
    exact Finset.mem_insert_of_mem (earlier j less)

theorem Settled.write {i : Nat} (holds : Settled size home slots settled) (free : i ∉ settled) (slot : Slot H E) :
    Settled size home (Function.update slots i slot) settled := by
  intro j member
  have other : j ≠ i := fun equal => free (equal ▸ member)
  rw [Function.update_of_ne other]
  exact holds j member

theorem Settled.placed (holds : Settled size home slots settled) (rest : ∀ i, i ∉ settled → ¬∃ hash entry, slots i = .real hash entry) :
    Placed size home slots := by
  intro i _ hash entry held
  have member : i ∈ settled := by
    by_contra free
    exact rest i free ⟨hash, entry, held⟩
  obtain ⟨_, h, e, same, k, reached, before⟩ := holds i member
  obtain ⟨rfl, rfl⟩ := Slot.real.inj (held.symm.trans same)
  refine ⟨k, reached, fun j less => ?_⟩
  obtain ⟨_, h', e', held', _⟩ := holds _ (before j less)
  rw [held']
  rfl

theorem realsBelow_eq_card (n : Nat) :
    realsBelow slots n = ((Finset.range n).filter fun i => (slots i).content.isSome).card := by
  unfold realsBelow
  induction n with
  | zero => rfl
  | succ n ih =>
    rw [entriesBelow_succ, List.length_append, ih, Finset.range_add_one, Finset.filter_insert]
    cases content : (slots n).content with
    | none => simp
    | some entry => simp

theorem Settled.card_le {n : Nat} (holds : Settled size home slots settled) (below : settled ⊆ Finset.range n) :
    settled.card ≤ realsBelow slots n := by
  rw [realsBelow_eq_card]
  apply Finset.card_le_card
  intro i member
  obtain ⟨_, hash, entry, held, _⟩ := holds i member
  simp [held, Finset.mem_range.mp (below member)]

/-- While fewer slots are settled than there are, a search comes to one that is not. -/
theorem exists_unsettled {n : Nat} (start : Nat) (few : settled.card < 2 ^ n) :
    ∃ k < 2 ^ n, probeSlot (2 ^ n) start k ∉ settled ∧ ∀ j < k, probeSlot (2 ^ n) start j ∈ settled := by
  have found : ∃ k, k < 2 ^ n ∧ probeSlot (2 ^ n) start k ∉ settled := by
    by_contra none
    have covered : Finset.range (2 ^ n) ⊆ settled := by
      intro i member
      obtain ⟨k, below, rfl⟩ := probeSlot_surjective start (Finset.mem_range.mp member)
      by_contra out
      exact none ⟨k, below, out⟩
    have := Finset.card_le_card covered
    rw [Finset.card_range] at this
    omega
  obtain ⟨below, out⟩ := Nat.find_spec found
  refine ⟨Nat.find found, below, out, fun j less => ?_⟩
  by_contra other
  exact Nat.find_min found less ⟨Nat.lt_trans less below, other⟩

end Settling

end Xpl.Library
