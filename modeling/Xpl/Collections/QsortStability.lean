import Mathlib
import Xpl.Collections.Qsort
import Xpl.Collections.QueueSorting

/-! Indirect sorting: the original array is brought into the order of the pointers, one
cycle after the other. -/

set_option autoImplicit false

namespace Xpl.Collections
open Xpl.Library

/-- The places of the elements: a permutation of the indices below `n`. -/
structure Permutes (n : Nat) (place : Nat → Nat) : Prop where
  maps : ∀ x < n, place x < n
  injective : ∀ x < n, ∀ y < n, place x = place y → x = y

section Places
variable {x : Nat}
variable {n j : Nat} {place : Nat → Nat}

/-- The places after the elements at `j` and at its place have been exchanged. -/
def exchanged (place : Nat → Nat) (j x : Nat) : Nat := Equiv.swap j (place j) (place x)

theorem Permutes.exchanged (permutes : Permutes n place) (below : j < n) : Permutes n (exchanged place j) := by
  refine ⟨fun x inside => ?_, fun x insideX y insideY same => permutes.injective x insideX y insideY ?_⟩
  · unfold Collections.exchanged
    rw [Equiv.swap_apply_def]
    split
    · exact permutes.maps j below
    · split
      · exact below
      · exact permutes.maps x inside
  · exact (Equiv.swap j (place j)).injective same

theorem exchanged_self (place : Nat → Nat) (j : Nat) : exchanged place j j = j := Equiv.swap_apply_right _ _

theorem exchanged_to (here : place x = j) : exchanged place j x = place j := by
  rw [exchanged, here, Equiv.swap_apply_left]

theorem exchanged_other (permutes : Permutes n place) (below : j < n) (inside : x < n) (other : x ≠ j)
    (elsewhere : place x ≠ j) : exchanged place j x = place x :=
  Equiv.swap_apply_of_ne_of_ne elsewhere fun same => other (permutes.injective x inside j below same)

/-- What is in place stays there. -/
theorem exchanged_fixed (permutes : Permutes n place) (below : j < n) (inside : x < n) (fixed : place x = x) :
    exchanged place j x = x := by
  by_cases same : x = j
  · subst same
    exact exchanged_self place x
  · rw [exchanged_other permutes below inside same (by rw [fixed]; exact same), fixed]

/-- The indices that are not in place. -/
def misplaced (n : Nat) (place : Nat → Nat) : Finset Nat := (Finset.range n).filter fun x => place x ≠ x

theorem misplaced_exchanged (permutes : Permutes n place) (below : j < n) (moved : place j ≠ j) :
    (misplaced n (exchanged place j)).card < (misplaced n place).card := by
  refine Finset.card_lt_card (Finset.ssubset_iff_of_subset ?_ |>.mpr ⟨j, ?_, ?_⟩)
  · intro x member
    obtain ⟨inside, out⟩ := Finset.mem_filter.mp member
    refine Finset.mem_filter.mpr ⟨inside, fun fixed => out ?_⟩
    exact exchanged_fixed permutes below (Finset.mem_range.mp inside) fixed
  · exact Finset.mem_filter.mpr ⟨Finset.mem_range.mpr below, moved⟩
  · intro member
    exact (Finset.mem_filter.mp member).2 (exchanged_self place j)

end Places

/-- Where the parts of the memory lie: the array, the sorted pointers and the storage of one element. -/
structure Room (b n s tp tmpStorage : Nat) : Prop where
  positive : 0 < s
  addressable : b + s * n ≤ 256 ^ sizeofVoid
  storage : tmpStorage = tp + sizeofVoid * n
  apart : tmpStorage + s ≤ b ∨ b + s * n ≤ tp

/-- The pointers give the places of the elements, and element `x` of the array is `data x`. -/
structure Settled (b n s tp : Nat) (memory : Memory) (place : Nat → Nat) (data : Nat → Bytes) : Prop where
  permutes : Permutes n place
  pointers : ∀ x < n, loadWord memory (tp + sizeofVoid * x) sizeofVoid = b + s * place x
  elements : ∀ x < n, bytesOf memory (b + s * x) s = data x

/-- The same while a cycle that began at `i` has got to `j`: the element at `j` is in the storage, and the
pointer to it still is the one to `i`. -/
structure Turning (b n s tp tmpStorage : Nat) (memory : Memory) (place : Nat → Nat) (data : Nat → Bytes) (i j : Nat) : Prop where
  permutes : Permutes n place
  inside : j < n
  pointers : ∀ x < n, loadWord memory (tp + sizeofVoid * x) sizeofVoid = b + s * (if place x = j then i else place x)
  elements : ∀ x < n, x ≠ j → bytesOf memory (b + s * x) s = data x
  stored : bytesOf memory tmpStorage s = data j

/-- Only the array, the pointers and the storage have changed. -/
def Around (b n s tp tmpStorage : Nat) (memory after : Memory) : Prop :=
  ∀ q, ¬(b ≤ q ∧ q < b + s * n) → ¬(tp ≤ q ∧ q < tmpStorage + s) → after q = memory q

section Turns
variable {x : Nat}
variable {b n s tp tmpStorage : Nat} {memory : Memory} {place : Nat → Nat} {data : Nat → Bytes} {i j : Nat}

theorem slot_inside (width : Nat) (inside : x < n) : width * x + width ≤ width * n := by
  rw [← Nat.mul_succ]
  exact Nat.mul_le_mul_left width inside

theorem slots_apart (width : Nat) {y : Nat} (other : x ≠ y) : width * x + width ≤ width * y ∨ width * y + width ≤ width * x := by
  rw [← Nat.mul_succ, ← Nat.mul_succ]
  rcases Nat.lt_or_gt_of_ne other with less | less
  · exact Or.inl (Nat.mul_le_mul_left width less)
  · exact Or.inr (Nat.mul_le_mul_left width less)

/-- A pointer is set to its own place, and the element there is copied from `source`. -/
def restored (b s tp : Nat) (memory : Memory) (j source : Nat) : Memory :=
  copyBytes (storeWord memory (tp + sizeofVoid * j) sizeofVoid (b + s * j)) (b + s * j) source s

theorem restored_pointer (room : Room b n s tp tmpStorage) (inside : j < n) (source : Nat) (below : x < n) :
    loadWord (restored b s tp memory j source) (tp + sizeofVoid * x) sizeofVoid =
      if x = j then b + s * j else loadWord memory (tp + sizeofVoid * x) sizeofVoid := by
  have slotX := slot_inside sizeofVoid below
  have slotJ := slot_inside s inside
  have storage := room.storage
  have apart := room.apart
  have kept : loadWord (restored b s tp memory j source) (tp + sizeofVoid * x) sizeofVoid =
      loadWord (storeWord memory (tp + sizeofVoid * j) sizeofVoid (b + s * j)) (tp + sizeofVoid * x) sizeofVoid :=
    congrArg leValue (bytesOf_copyBytes_apart (by omega))
  rw [kept]
  by_cases same : x = j
  · subst same
    have addressable := room.addressable
    have positive := room.positive
    rw [if_pos rfl]
    exact loadWord_storeWord (by omega)
  · rw [if_neg same]
    have slots := slots_apart sizeofVoid same
    exact congrArg leValue (bytesOf_storeWord_apart (by omega))

/-- Copies come from the array or from the storage. -/
def Source (b n s tmpStorage source : Nat) : Prop := (∃ k < n, source = b + s * k) ∨ source = tmpStorage

theorem restored_element (room : Room b n s tp tmpStorage) (inside : j < n) {source : Nat}
    (known : Source b n s tmpStorage source) (below : x < n) :
    bytesOf (restored b s tp memory j source) (b + s * x) s =
      if x = j then bytesOf memory source s else bytesOf memory (b + s * x) s := by
  have slotX := slot_inside s below
  have slotJ := slot_inside sizeofVoid inside
  have storage := room.storage
  have apart := room.apart
  by_cases same : x = j
  · subst same
    rw [if_pos rfl, restored, bytesOf_copyBytes]
    rcases known with ⟨k, low, rfl⟩ | rfl
    · have slotK := slot_inside s low
      exact bytesOf_storeWord_apart (by omega)
    · exact bytesOf_storeWord_apart (by omega)
  · rw [if_neg same]
    have slots := slots_apart s same
    exact (bytesOf_copyBytes_apart (by omega)).trans (bytesOf_storeWord_apart (by omega))

theorem restored_storage (room : Room b n s tp tmpStorage) (inside : j < n) (source : Nat) :
    bytesOf (restored b s tp memory j source) tmpStorage s = bytesOf memory tmpStorage s := by
  have slotJ := slot_inside s inside
  have slotW := slot_inside sizeofVoid inside
  have storage := room.storage
  have apart := room.apart
  exact (bytesOf_copyBytes_apart (by omega)).trans (bytesOf_storeWord_apart (by omega))

theorem restored_around (room : Room b n s tp tmpStorage) (inside : j < n) (source : Nat) :
    Around b n s tp tmpStorage memory (restored b s tp memory j source) := by
  intro q outB outT
  have slotJ := slot_inside s inside
  have slotW := slot_inside sizeofVoid inside
  have storage := room.storage
  exact (copyBytes_outside (by omega)).trans (storeWord_outside (by omega))

theorem Turning.turn (room : Room b n s tp tmpStorage) (turning : Turning b n s tp tmpStorage memory place data i j)
    (moved : place j ≠ j) :
    Turning b n s tp tmpStorage (restored b s tp memory j (b + s * place j)) (exchanged place j)
      (fun x => data (Equiv.swap j (place j) x)) i (place j) := by
  have target := turning.permutes.maps j turning.inside
  refine ⟨turning.permutes.exchanged turning.inside, target, fun x below => ?_, fun x below other => ?_, ?_⟩
  · rw [restored_pointer room turning.inside _ below]
    by_cases same : x = j
    · subst same
      rw [if_pos rfl, exchanged_self, if_neg (Ne.symm moved)]
    · rw [if_neg same, turning.pointers x below]
      by_cases here : place x = j
      · rw [exchanged_to here, if_pos here, if_pos rfl]
      · rw [exchanged_other turning.permutes turning.inside below same here, if_neg here, if_neg]
        exact fun twice => same (turning.permutes.injective x below j turning.inside twice)
  · rw [restored_element room turning.inside (Or.inl ⟨_, target, rfl⟩) below]
    by_cases same : x = j
    · subst same
      rw [if_pos rfl, Equiv.swap_apply_left, turning.elements _ target moved]
    · rw [if_neg same, Equiv.swap_apply_of_ne_of_ne same other, turning.elements x below same]
  · rw [restored_storage room turning.inside, Equiv.swap_apply_right, turning.stored]

/-- The last turn puts the saved element into the hole. -/
theorem Turning.finish (room : Room b n s tp tmpStorage) (turning : Turning b n s tp tmpStorage memory place data i j)
    (fixed : place j = j) : Settled b n s tp (restored b s tp memory j tmpStorage) place data := by
  refine ⟨turning.permutes, fun x below => ?_, fun x below => ?_⟩
  · rw [restored_pointer room turning.inside _ below]
    by_cases same : x = j
    · rw [if_pos same, same, fixed]
    · rw [if_neg same, turning.pointers x below, if_neg]
      exact fun here => same (turning.permutes.injective x below j turning.inside (here.trans fixed.symm))
  · rw [restored_element room turning.inside (Or.inr rfl) below]
    by_cases same : x = j
    · rw [if_pos same, turning.stored, same]
    · rw [if_neg same, turning.elements x below same]

/-- What any number of turns keeps: elements that are in place, and the order that the pointers give. -/
structure Kept (n : Nat) (place place' : Nat → Nat) (data data' : Nat → Bytes) : Prop where
  fixed : ∀ x < n, place x = x → place' x = x
  order : ∀ x < n, data' (place' x) = data (place x)

theorem Kept.trans {place₁ place₂ place₃ : Nat → Nat} {data₁ data₂ data₃ : Nat → Bytes}
    (one : Kept n place₁ place₂ data₁ data₂) (two : Kept n place₂ place₃ data₂ data₃) : Kept n place₁ place₃ data₁ data₃ :=
  ⟨fun x below fixed => two.fixed x below (one.fixed x below fixed),
    fun x below => (two.order x below).trans (one.order x below)⟩

theorem Turning.kept (turning : Turning b n s tp tmpStorage memory place data i j) :
    Kept n place (exchanged place j) data fun x => data (Equiv.swap j (place j) x) :=
  ⟨fun _ below fixed => exchanged_fixed turning.permutes turning.inside below fixed,
    fun _ _ => congrArg data (Equiv.swap_apply_self _ _ _)⟩

theorem Around.trans {one two three : Memory} (first : Around b n s tp tmpStorage one two)
    (second : Around b n s tp tmpStorage two three) : Around b n s tp tmpStorage one three :=
  fun q outB outT => (second q outB outT).trans (first q outB outT)

theorem index_of_address (positive : 0 < s) (k : Nat) : (b + s * k - b) / s = k := by
  rw [Nat.add_sub_cancel_left, Nat.mul_div_cancel_left k positive]

theorem cycleLoop_succ (ip turns : Nat) (memory : Memory) (j kp : Nat) :
    cycleLoop b s tp ip (turns + 1) memory j (b + s * j) kp =
      if loadWord (restored b s tp memory j kp) (tp + sizeofVoid * ((kp - b) / s)) sizeofVoid ≠ ip then
        cycleLoop b s tp ip turns (restored b s tp memory j kp) ((kp - b) / s) kp
          (loadWord (restored b s tp memory j kp) (tp + sizeofVoid * ((kp - b) / s)) sizeofVoid)
      else some (restored b s tp memory j kp, (kp - b) / s, kp) := rfl

theorem cycleLoop_closes (room : Room b n s tp tmpStorage) (start : i < n)
    (turning : Turning b n s tp tmpStorage memory place data i j) (began : place i = i ∨ j = i) (moved : place j ≠ j)
    {turns : Nat} (enough : (misplaced n place).card ≤ turns) :
    ∃ memory' place' data' k,
      cycleLoop b s tp (b + s * i) turns memory j (b + s * j) (b + s * place j) = some (memory', k, b + s * k) ∧
        Turning b n s tp tmpStorage memory' place' data' i k ∧ place' k = k ∧ place' i = i ∧
          Kept n place place' data data' ∧ Around b n s tp tmpStorage memory memory' := by
  -- on the turns: each settles one element for good, and the cycle comes back to where it began
  induction turns generalizing memory place data j with
  | zero =>
    have member : j ∈ misplaced n place := Finset.mem_filter.mpr ⟨Finset.mem_range.mpr turning.inside, moved⟩
    exact absurd (Finset.card_pos.mpr ⟨j, member⟩) (by omega)
  | succ turns ih =>
    have target := turning.permutes.maps j turning.inside
    have next := turning.turn room moved
    have around : Around b n s tp tmpStorage memory (restored b s tp memory j (b + s * place j)) :=
      restored_around room turning.inside _
    have fixed : exchanged place j i = i := by
      rcases began with there | rfl
      · exact exchanged_fixed turning.permutes turning.inside start there
      · exact exchanged_self place j
    have word := next.pointers _ target
    rw [cycleLoop_succ, index_of_address room.positive, word]
    by_cases closed : exchanged place j (place j) = place j
    · rw [if_pos closed, if_neg (not_not_intro rfl)]
      exact ⟨restored b s tp memory j (b + s * place j), exchanged place j, fun x => data (Equiv.swap j (place j) x), place j,
        rfl, next, closed, fixed, turning.kept, around⟩
    · have onwards : b + s * exchanged place j (place j) ≠ b + s * i := by
        intro same
        have index := Nat.eq_of_mul_eq_mul_left room.positive (Nat.add_left_cancel same)
        have back := next.permutes.injective _ target i start (index.trans fixed.symm)
        rw [back, fixed] at closed
        exact closed rfl
      have fewer := misplaced_exchanged turning.permutes turning.inside moved
      rw [if_neg closed, if_pos onwards]
      obtain ⟨memory', place', data', k, run, last, here, stays, kept, rest⟩ := ih next (Or.inl fixed) closed (by omega)
      exact ⟨memory', place', data', k, run, last, here, stays, turning.kept.trans kept, around.trans rest⟩

/-- After the body of the loop the element at `i` is the one its pointer led to. -/
theorem copyAround_settles (room : Room b n s tp tmpStorage) (start : i < n) (settled : Settled b n s tp memory place data) :
    ∃ memory' place' data', copyAround b n s tp tmpStorage memory i = some memory' ∧
      Settled b n s tp memory' place' data' ∧ place' i = i ∧ Kept n place place' data data' ∧
        Around b n s tp tmpStorage memory memory' := by
  rw [copyAround]
  dsimp only
  rw [settled.pointers i start, Nat.mul_comm i]
  by_cases here : place i = i
  · rw [here, if_neg (not_not_intro rfl)]
    exact ⟨memory, place, data, rfl, settled, here, ⟨fun _ _ fixed => fixed, fun _ _ => rfl⟩, fun _ _ _ => rfl⟩
  · have moved : b + s * place i ≠ b + s * i := fun same =>
      here (Nat.eq_of_mul_eq_mul_left room.positive (Nat.add_left_cancel same))
    rw [if_pos moved]
    have storage := room.storage
    have apart := room.apart
    have saved : Turning b n s tp tmpStorage (copyBytes memory tmpStorage (b + s * i) s) place data i i := by
      refine ⟨settled.permutes, start, fun x below => ?_, fun x below _ => ?_, ?_⟩
      · have slot := slot_inside sizeofVoid below
        have same : loadWord (copyBytes memory tmpStorage (b + s * i) s) (tp + sizeofVoid * x) sizeofVoid =
            loadWord memory (tp + sizeofVoid * x) sizeofVoid := congrArg leValue (bytesOf_copyBytes_apart (by omega))
        rw [same, settled.pointers x below]
        split
        · next back => rw [back]
        · rfl
      · have slot := slot_inside s below
        exact (bytesOf_copyBytes_apart (by omega)).trans (settled.elements x below)
      · rw [bytesOf_copyBytes, settled.elements i start]
    have around : Around b n s tp tmpStorage memory (copyBytes memory tmpStorage (b + s * i) s) :=
      fun q _ outT => copyBytes_outside (by omega)
    have enough : (misplaced n place).card ≤ n + 1 := by
      have most := Finset.card_filter_le (Finset.range n) fun x => place x ≠ x
      rw [Finset.card_range] at most
      exact Nat.le_succ_of_le most
    obtain ⟨memory', place', data', k, run, last, closed, stays, kept, rest⟩ :=
      cycleLoop_closes room start saved (Or.inr rfl) here enough
    refine ⟨restored b s tp memory' k tmpStorage, place', data', ?_, last.finish room closed, stays, kept,
      (around.trans rest).trans (restored_around room last.inside _)⟩
    rw [run]
    rfl

/-- The loop over all entries brings every element to its place. -/
theorem copyAround_all (room : Room b n s tp tmpStorage) (settled : Settled b n s tp memory place data) :
    ∃ memory', (List.range n).foldlM (copyAround b n s tp tmpStorage) memory = some memory' ∧
      (∀ x < n, bytesOf memory' (b + s * x) s = data (place x)) ∧ Around b n s tp tmpStorage memory memory' := by
  have run : ∀ done ≤ n, ∃ memory' place' data',
      (List.range done).foldlM (copyAround b n s tp tmpStorage) memory = some memory' ∧
        Settled b n s tp memory' place' data' ∧ (∀ x < done, place' x = x) ∧ Kept n place place' data data' ∧
          Around b n s tp tmpStorage memory memory' := by
    intro done
    -- the elements before `done` stand where they belong, and no later cycle goes through them
    induction done with
    | zero =>
      intro _
      exact ⟨memory, place, data, rfl, settled, fun _ none => absurd none (Nat.not_lt_zero _),
        ⟨fun _ _ fixed => fixed, fun _ _ => rfl⟩, fun _ _ _ => rfl⟩
    | succ done ih =>
      intro more
      obtain ⟨memory₁, place₁, data₁, first, settled₁, fixed₁, kept₁, around₁⟩ := ih (Nat.le_of_succ_le more)
      obtain ⟨memory₂, place₂, data₂, second, settled₂, fixed₂, kept₂, around₂⟩ := copyAround_settles room more settled₁
      refine ⟨memory₂, place₂, data₂, ?_, settled₂, fun x below => ?_, kept₁.trans kept₂, around₁.trans around₂⟩
      · rw [List.range_succ, List.foldlM_append, first, some_bind, List.foldlM_cons, second,
          some_bind]
        rfl
      · rcases Nat.lt_succ_iff_lt_or_eq.mp below with earlier | rfl
        · exact kept₂.fixed x (by omega) (fixed₁ x earlier)
        · exact fixed₂
  obtain ⟨memory', place', data', all, settled', fixed, kept, around⟩ := run n (Nat.le_refl n)
  refine ⟨memory', all, fun x below => ?_, around⟩
  rw [settled'.elements x below, ← kept.order x below, fixed x below]

end Turns

/-! Every way of moving the elements gives the stable sort. -/

/-- The comparison function of a caller looks at the bytes of the two elements. -/
def comparing (compare : Bytes → Bytes → Int) (s : Nat) (memory : Memory) (b1 b2 : Nat) : Int :=
  compare (bytesOf memory b1 s) (bytesOf memory b2 s)

def precedes (compare : Bytes → Bytes → Int) (x y : Bytes) : Bool := decide (compare x y ≤ 0)

section Filling

variable {memory : Memory} {t ip s n : Nat}

theorem fillPointers_outside {q : Nat} (outside : q < t ∨ t + sizeofVoid * n ≤ q) : fillPointers memory t ip s n q = memory q := by
  induction n generalizing memory t ip with
  | zero => rfl
  | succ n ih =>
    rw [Nat.mul_succ] at outside
    rw [fillPointers, ih (by omega)]
    exact storeWord_outside (by omega)

theorem fillPointers_elements :
    elementsAt (fillPointers memory t ip s n) t sizeofVoid n = (List.range n).map fun x => leBytes sizeofVoid (ip + s * x) := by
  induction n generalizing memory t ip with
  | zero => rfl
  | succ n ih =>
    have first : bytesOf (fillPointers (storeWord memory t sizeofVoid ip) (t + sizeofVoid) (ip + s) s n) t sizeofVoid =
        leBytes sizeofVoid ip := by
      rw [← @bytesOf_storeWord memory t sizeofVoid ip]
      exact bytesOf_eq_iff.mpr fun k below => fillPointers_outside (by omega)
    rw [fillPointers, elementsAt_succ, first, ih, List.range_succ_eq_map, List.map_cons, List.map_map]
    congr 1
    refine List.map_congr_left fun x _ => ?_
    change leBytes sizeofVoid (ip + s + s * x) = leBytes sizeofVoid (ip + s * (x + 1))
    rw [Nat.mul_succ, Nat.add_assoc, Nat.add_comm s]

end Filling

section Direct

variable {compare : Bytes → Bytes → Int} {memory : Memory} {b n s t size : Nat}

/-- Elements are compared where they lie. -/
theorem compares_direct (p : MsortParam) (direct : p.var ≠ 3) (cmp : p.cmp = comparing compare p.s) (area : Nat → Prop)
    (base : Memory) : Compares p (precedes compare) (fun _ => True) area base := by
  intro memory _ b1 b2 _ _
  have called : callCompare p memory b1 b2 = p.cmp memory b1 b2 := by
    unfold callCompare
    split
    · next var => exact absurd var direct
    · rfl
  rw [called, cmp]
  exact decide_eq_true_iff.symm

theorem msortVar_cases (b s : Nat) :
    msortVar b s = 0 ∧ s = 4 ∨ msortVar b s = 1 ∧ s = 8 ∨ msortVar b s = 2 ∧ s % sizeofLong = 0 ∨ msortVar b s = 4 := by
  unfold msortVar
  split_ifs with aligned word double longs
  · exact Or.inl ⟨rfl, word⟩
  · exact Or.inr (Or.inl ⟨rfl, double.1⟩)
  · exact Or.inr (Or.inr (Or.inl ⟨rfl, longs.1⟩))
  · exact Or.inr (Or.inr (Or.inr rfl))
  · exact Or.inr (Or.inr (Or.inr rfl))

theorem msortVar_fits (cmp : Memory → Nat → Nat → Int) : ({ s := s, var := msortVar b s, cmp := cmp, t := t } : MsortParam).Fits := by
  have cases := msortVar_cases b s
  refine ⟨fun var => ?_, fun var => ?_, fun var => ?_, fun var => ?_⟩
  · dsimp only at var ⊢
    omega
  · dsimp only at var ⊢
    omega
  · dsimp only at var ⊢
    exact Nat.dvd_of_mod_eq_zero (by omega)
  · dsimp only at var ⊢
    omega

theorem msortVar_direct (b s : Nat) : msortVar b s ≠ 3 := by
  have cases := msortVar_cases b s
  omega

/-- What an array and the temporary array beside it must satisfy. -/
structure Apart (b n s t size : Nat) : Prop where
  addressable : b + s * n ≤ 256 ^ sizeofVoid
  apart : t + size ≤ b ∨ b + s * n ≤ t

/-- Whichever way the elements are moved. -/
theorem msortWithTmp_elements (p : MsortParam) (fits : p.Fits) (direct : p.var ≠ 3) (cmp : p.cmp = comparing compare p.s)
    (room : Apart b n p.s p.t (n * p.s)) :
    elementsAt (msortWithTmp p memory b n) b p.s n = halvingSort (precedes compare) (elementsAt memory b p.s n) ∧
      ∀ q, ¬(b ≤ q ∧ q < b + p.s * n) → ¬(p.t ≤ q ∧ q < p.t + n * p.s) → msortWithTmp p memory b n q = memory q := by
  have apart := room.apart
  rw [Nat.mul_comm n] at apart ⊢
  exact msortWithTmp_sorted fits (compares_direct p direct cmp (fun _ => True) memory) apart (fun _ _ => trivial)
    (fun q out => absurd trivial out) fun _ _ => trivial

end Direct

section Indirect

variable {compare : Bytes → Bytes → Int} {memory : Memory} {b n s t size : Nat}

/-- The elements that the pointers lead to. -/
def precedesAt (compare : Bytes → Bytes → Int) (memory : Memory) (s : Nat) (x y : Bytes) : Bool :=
  precedes compare (bytesOf memory (leValue x) s) (bytesOf memory (leValue y) s)

/-- Pointers to elements are compared by these, which the sort of the pointers leaves alone. -/
theorem compares_indirect (apart : t + 2 * n * sizeofVoid ≤ b ∨ b + s * n ≤ t) :
    Compares { s := sizeofVoid, var := 3, cmp := comparing compare s, t := t } (precedesAt compare memory s)
      (fun x => ∃ i < n, leValue x = b + s * i) (fun q => t ≤ q ∧ q < t + 2 * n * sizeofVoid) memory := by
  intro other agrees b1 b2 good1 good2
  have kept : ∀ i < n, bytesOf other (b + s * i) s = bytesOf memory (b + s * i) s := by
    intro i below
    have slot := slot_inside s below
    refine bytesOf_eq_iff.mpr fun k inside => agrees _ ?_
    omega
  obtain ⟨i, belowI, pointerI⟩ := good1
  obtain ⟨j, belowJ, pointerJ⟩ := good2
  change compare (bytesOf other (leValue (bytesOf other b1 sizeofVoid)) s)
    (bytesOf other (leValue (bytesOf other b2 sizeofVoid)) s) ≤ 0 ↔ _
  rw [precedesAt, pointerI, pointerJ, kept i belowI, kept j belowJ]
  exact decide_eq_true_iff.symm

/-- The order in which the elements are to come. -/
def sortedIndices (compare : Bytes → Bytes → Int) (memory : Memory) (b n s : Nat) : List Nat :=
  halvingSort (fun i j => precedes compare (bytesOf memory (b + s * i) s) (bytesOf memory (b + s * j) s)) (List.range n)

theorem sortedIndices_perm : (sortedIndices compare memory b n s).Perm (List.range n) := halvingSort_perm _ _

theorem length_sortedIndices : (sortedIndices compare memory b n s).length = n :=
  sortedIndices_perm.length_eq.trans List.length_range

theorem elementsAt_eq_map : elementsAt memory b s n = (List.range n).map fun i => bytesOf memory (b + s * i) s := by
  refine List.ext_getElem (by simp) fun i below _ => ?_
  rw [getElem_elementsAt, List.getElem_map, List.getElem_range]

theorem sortedIndices_elements :
    (sortedIndices compare memory b n s).map (fun i => bytesOf memory (b + s * i) s) =
      halvingSort (precedes compare) (elementsAt memory b s n) := by
  rw [elementsAt_eq_map]
  exact map_halvingSort fun _ _ _ _ => rfl

theorem leValue_pointer (room : Apart b n s t size) (positive : 0 < s) {i : Nat} (below : i < n) :
    leValue (leBytes sizeofVoid (b + s * i)) = b + s * i := by
  have slot := slot_inside s below
  have addressable := room.addressable
  exact leValue_leBytes _ _ (by omega)

theorem pointers_sorted (compare : Bytes → Bytes → Int) (memory : Memory) (room : Apart b n s t (2 * n * sizeofVoid + s)) (positive : 0 < s) :
    let filled := fillPointers memory (t + n * sizeofVoid) b s n
    let sorted := msortWithTmp { s := sizeofVoid, var := 3, cmp := comparing compare s, t := t } filled (t + n * sizeofVoid) n
    elementsAt sorted (t + n * sizeofVoid) sizeofVoid n =
        (sortedIndices compare memory b n s).map (fun i => leBytes sizeofVoid (b + s * i)) ∧
      ∀ q, ¬(t ≤ q ∧ q < t + 2 * n * sizeofVoid) → sorted q = memory q := by
  intro filled sorted
  have apart := room.apart
  have twice : 2 * n * sizeofVoid = sizeofVoid * n + sizeofVoid * n := by rw [Nat.mul_comm, ← Nat.mul_add, Nat.two_mul]
  have once : n * sizeofVoid = sizeofVoid * n := Nat.mul_comm _ _
  have fits : ({ s := sizeofVoid, var := 3, cmp := comparing compare s, t := t } : MsortParam).Fits :=
    ⟨nofun, nofun, nofun, fun _ => rfl⟩
  have pointers : elementsAt filled (t + n * sizeofVoid) sizeofVoid n =
      (List.range n).map fun x => leBytes sizeofVoid (b + s * x) := fillPointers_elements
  have untouched : ∀ q, ¬(t ≤ q ∧ q < t + 2 * n * sizeofVoid) → filled q = memory q :=
    fun q out => fillPointers_outside (by omega)
  have compares : Compares { s := sizeofVoid, var := 3, cmp := comparing compare s, t := t } (precedesAt compare memory s)
      (fun x => ∃ i < n, leValue x = b + s * i) (fun q => t ≤ q ∧ q < t + 2 * n * sizeofVoid) memory :=
    compares_indirect (by omega)
  obtain ⟨elements, frame⟩ := msortWithTmp_sorted (b := t + n * sizeofVoid) (n := n) fits compares (by dsimp only; omega)
    (fun q inside => by dsimp only at inside ⊢; omega) untouched (by
      intro x member
      rw [pointers] at member
      obtain ⟨i, low, rfl⟩ := List.mem_map.mp member
      exact ⟨i, List.mem_range.mp low, leValue_pointer room positive (List.mem_range.mp low)⟩)
  refine ⟨elements.trans ?_, fun q out => (frame q ?_ ?_).trans (untouched q out)⟩
  · dsimp only
    rw [pointers]
    refine (map_halvingSort fun i inI j inJ => ?_).symm
    rw [precedesAt, leValue_pointer room positive (List.mem_range.mp inI), leValue_pointer room positive (List.mem_range.mp inJ)]
  · dsimp only
    omega
  · dsimp only
    omega

/-- A permutation of the indices gives every element a place. -/
theorem permutes_of_perm {order : List Nat} (perm : order.Perm (List.range n)) : Permutes n fun x => order.getD x 0 := by
  have length : order.length = n := perm.length_eq.trans List.length_range
  have nodup : order.Nodup := perm.nodup_iff.mpr List.nodup_range
  have entry : ∀ x, (below : x < n) → order.getD x 0 = order[x] := fun x below => List.getD_eq_getElem _ _ (by omega)
  refine ⟨fun x below => ?_, fun x belowX y belowY same => ?_⟩
  · rw [entry x below]
    exact List.mem_range.mp (perm.subset (List.getElem_mem _))
  · rw [entry x belowX, entry y belowY] at same
    exact (nodup.getElem_inj_iff).mp same

theorem msortIndirect_elements (compare : Bytes → Bytes → Int) (memory : Memory) (room : Apart b n s t (2 * n * sizeofVoid + s)) (positive : 0 < s) :
    ∃ memory', msortIndirect memory b n s (comparing compare s) t = some memory' ∧
      elementsAt memory' b s n = halvingSort (precedes compare) (elementsAt memory b s n) ∧
      ∀ q, ¬(b ≤ q ∧ q < b + s * n) → ¬(t ≤ q ∧ q < t + (2 * n * sizeofVoid + s)) → memory' q = memory q := by
  have apart := room.apart
  have twice : 2 * n * sizeofVoid = sizeofVoid * n + sizeofVoid * n := by rw [Nat.mul_comm, ← Nat.mul_add, Nat.two_mul]
  have once : n * sizeofVoid = sizeofVoid * n := Nat.mul_comm _ _
  obtain ⟨table, untouched⟩ := pointers_sorted compare memory room positive
  unfold msortIndirect
  dsimp only at table untouched ⊢
  generalize msortWithTmp _ _ _ _ = sorted at table untouched ⊢
  have parts : Room b n s (t + n * sizeofVoid) (t + n * sizeofVoid + n * sizeofVoid) :=
    ⟨positive, room.addressable, by rw [once], by omega⟩
  have length : (sortedIndices compare memory b n s).length = n := length_sortedIndices
  have settled : Settled b n s (t + n * sizeofVoid) sorted (fun x => (sortedIndices compare memory b n s).getD x 0)
      fun x => bytesOf memory (b + s * x) s := by
    refine ⟨permutes_of_perm sortedIndices_perm, fun x below => ?_, fun x below => ?_⟩
    · have entry := @getElem_elementsAt sorted (t + n * sizeofVoid) sizeofVoid n x
        (by rw [length_elementsAt]; exact below)
      simp only [table, List.getElem_map] at entry
      have inside : (sortedIndices compare memory b n s)[x] < n :=
        List.mem_range.mp (sortedIndices_perm.subset (List.getElem_mem _))
      rw [loadWord, ← entry, leValue_pointer room positive inside, List.getD_eq_getElem]
    · have slot := slot_inside s below
      exact bytesOf_eq_iff.mpr fun k inside => untouched _ (by omega)
  obtain ⟨memory', run, elements, around⟩ := copyAround_all parts settled
  refine ⟨memory', run, ?_, fun q outB outT => (around q outB ?_).trans (untouched q ?_)⟩
  · rw [← sortedIndices_elements]
    refine List.ext_getElem (by rw [length_elementsAt, List.length_map, length]) fun x below inside => ?_
    rw [length_elementsAt] at below
    rw [getElem_elementsAt, List.getElem_map, elements x below, List.getD_eq_getElem]
  · omega
  · omega

end Indirect

section Sorting

variable {compare : Bytes → Bytes → Int} {memory : Memory} {b n s t : Nat}

structure SortedElements (compare : Bytes → Bytes → Int) (elements sorted : List Bytes) : Prop where
  perm : sorted.Perm elements
  inOrder : sorted.Pairwise fun x y => compare x y ≤ 0
  stable : ∀ run : List Bytes, run.Pairwise (fun x y => compare x y ≤ 0) → run.Sublist elements → run.Sublist sorted
  unique : sorted = elements.mergeSort (precedes compare)

theorem halvingSort_sortedElements (consistent : Consistent compare) (elements : List Bytes) :
    SortedElements compare elements (halvingSort (precedes compare) elements) := by
  have trans : ∀ x y z, precedes compare x y = true → precedes compare y z = true → precedes compare x z = true :=
    fun x y z first second => decide_eq_true (consistent.trans x y z (of_decide_eq_true first) (of_decide_eq_true second))
  have total : ∀ x y, (precedes compare x y || precedes compare y x) = true := by
    intro x y
    rw [Bool.or_eq_true]
    exact (consistent.total x y).imp decide_eq_true decide_eq_true
  have unique := halvingSort_eq_mergeSort trans total elements
  refine ⟨halvingSort_perm _ _, ?_, fun run ordered sublist => ?_, unique⟩
  · exact (halvingSort_pairwise trans total elements).imp of_decide_eq_true
  · rw [unique]
    exact List.sublist_mergeSort trans total (ordered.imp decide_eq_true) sublist

theorem gQsortWithData_elements (compare : Bytes → Bytes → Int) (memory : Memory) (room : Apart b n s t (msortSize n s)) :
    ∃ memory', gQsortWithData memory b n s (comparing compare s) t = some memory' ∧
      elementsAt memory' b s n = halvingSort (precedes compare) (elementsAt memory b s n) ∧
      ∀ q, ¬(b ≤ q ∧ q < b + s * n) → ¬(t ≤ q ∧ q < t + msortSize n s) → memory' q = memory q := by
  unfold gQsortWithData msortR msortSize at *
  split_ifs at room ⊢ with large
  · exact msortIndirect_elements compare memory room (by omega)
  · obtain ⟨elements, frame⟩ := msortWithTmp_elements _ (msortVar_fits (comparing compare s)) (msortVar_direct b s) rfl room
    exact ⟨_, rfl, elements, frame⟩

/-- `g_qsort_with_data` is a stable sort, and every way of moving elements gives the same sequence. -/
theorem gQsortWithData_stable (memory : Memory) (consistent : Consistent compare) (room : Apart b n s t (msortSize n s)) :
    ∃ memory', gQsortWithData memory b n s (comparing compare s) t = some memory' ∧
      SortedElements compare (elementsAt memory b s n) (elementsAt memory' b s n) ∧
      (∀ q, ¬(b ≤ q ∧ q < b + s * n) → ¬(t ≤ q ∧ q < t + msortSize n s) → memory' q = memory q) ∧
      (∀ p : MsortParam, p.Fits → p.var ≠ 3 → p.s = s → p.cmp = comparing compare s → Apart b n s p.t (n * s) →
        elementsAt (msortWithTmp p memory b n) b s n = elementsAt memory' b s n) ∧
      ∀ t', 0 < s → Apart b n s t' (2 * n * sizeofVoid + s) →
        ∃ other, msortIndirect memory b n s (comparing compare s) t' = some other ∧
          elementsAt other b s n = elementsAt memory' b s n := by
  obtain ⟨memory', run, elements, frame⟩ := gQsortWithData_elements compare memory room
  refine ⟨memory', run, ?_, frame, fun p fits direct size cmp apart => ?_, fun t' positive apart => ?_⟩
  · rw [elements]
    exact halvingSort_sortedElements consistent _
  · subst size
    rw [elements, (msortWithTmp_elements p fits direct cmp apart).1]
  · obtain ⟨other, indirect, same, _⟩ := msortIndirect_elements compare memory apart positive
    exact ⟨other, indirect, same.trans elements.symm⟩

/-- Four elements of forty bytes, sorted through pointers by their first bytes: those that are equal keep their order. -/
theorem gQsortWithData_stable_witness :
    let compare : Bytes → Bytes → Int := fun x y => (x.headD 0).toNat - (y.headD 0).toNat
    let memory : Memory := fun p => if p % 40 = 0 then ([3, 1, 3, 1] : List UInt8).getD (p / 40) 0 else UInt8.ofNat (p / 40)
    ∃ memory', gQsortWithData memory 0 4 40 (comparing compare 40) 160 = some memory' ∧
      (elementsAt memory' 0 40 4).map (List.take 2) = [[1, 1], [1, 3], [3, 0], [3, 2]] := by
  intro compare memory
  have consistent : Consistent compare := by
    refine ⟨fun x y => ?_, fun x y z first second => ?_⟩
    · dsimp only [compare]
      omega
    · dsimp only [compare] at *
      omega
  have room : Apart 0 4 40 160 (msortSize 4 40) := ⟨by decide, by decide⟩
  obtain ⟨memory', run, sorted, _⟩ := gQsortWithData_stable memory consistent room
  refine ⟨memory', run, ?_⟩
  rw [sorted.unique]
  decide_cbv

end Sorting

end Xpl.Collections
