import Xpl.Collections.HashTableMap
import Xpl.Collections.HashTableReach

/-! The resize of every table for which the program may ask for it. -/

set_option autoImplicit false

namespace Xpl.Collections
open Xpl.Library

namespace HashTable

/-- The tables for which a resize may be asked for: those between two calls, and those that a call
has changed before it comes to the resize. -/
inductive Resizable (funcs : TableFuncs) : HashTable → Prop where
  | idle {t : HashTable} : Reachable funcs t → Resizable funcs t
  | inserted {t s : HashTable} {key value : UInt64} {i : Nat} {h : UInt32} : Reachable funcs t →
      t.lookupNode funcs key = some (i, h) → t.insertedNode i h key value = some s → Resizable funcs s
  | removed {t s : HashTable} {i : Nat} {entry : UInt32 × UInt64 × UInt64} {notify : Bool} {log : List Notified} :
      Reachable funcs t → i < t.size → t.nodeAt i = some entry → t.removeNode funcs i notify = some (log, s) → Resizable funcs s
  | stolen {t t₁ t₂ s : HashTable} {i : Nat} {entry : UInt32 × UInt64 × UInt64} {wantKey wantValue : Bool}
      {key value : Option UInt64} {log : List Notified} : Reachable funcs t → i < t.size → t.nodeAt i = some entry →
      t.takeKey i wantKey = some (key, t₁) → t₁.takeValue i wantValue = some (value, t₂) →
      t₂.removeNode funcs i false = some (log, s) → Resizable funcs s
  | filtered {t s : HashTable} {func : UInt64 → UInt64 → Bool} {notify : Bool} {deleted : Nat} {log : List Notified} :
      Reachable funcs t →
      (List.range t.size).foldlM (foreachRemoveOrStealTurn funcs func notify) (0, [], t) = some (deleted, log, s) →
      Resizable funcs s
  | emptied {t s : HashTable} {version : Nat} {notify : Bool} {log : List Notified} : Reachable funcs t →
      { t with version := version }.removeAllNodes funcs notify = some (log, s) → Resizable funcs s

section Counts

variable {t s : HashTable} {n i : Nat} {slots : Nat → TableSlot} {funcs : TableFuncs} {key value : UInt64}

theorem slots_of_unused (holds : t.Holds t.size slots) (inside : i < t.size) (unused : hashIsUnused (t.hashes.cell i)) :
    slots i = .unused := by
  rw [hashIsUnused_slotHash holds inside] at unused
  cases slot : slots i with
  | unused => rfl
  | tombstone => rw [slot] at unused; exact absurd unused Bool.false_ne_true
  | real h entry => rw [slot] at unused; exact absurd unused Bool.false_ne_true

theorem insertedNode_counted (sound : t.Sound n slots) {h : UInt32} (found : t.lookupNode funcs key = some (i, h))
    (inserted : t.insertedNode i h key value = some s) : ∃ slots', s.Counted n slots' := by
  obtain ⟨j, inside, result, looked⟩ := lookupNode_spec funcs key sound.geometric sound.holds sound.unused
  obtain ⟨rfl, rfl⟩ : i = j ∧ h = realHash funcs key := by simpa using found.symm.trans result
  have unused : slots i = .unused := by
    apply slots_of_unused sound.holds inside
    simp only [insertedNode, Cells.read_eq (sound.holds.hashLength.symm ▸ inside), some_bind] at inserted
    by_contra used
    rw [if_neg used] at inserted
    cases inserted
  rcases looked with ⟨nodeKey, nodeValue, held, _⟩ | ⟨_, reached, _⟩
  · cases unused.symm.trans held
  · obtain ⟨t₁, result, counted, _⟩ :=
      insertedNode_spec sound inside unused reached (hashIsReal_realHash funcs key) key value
    obtain rfl := Option.some.inj (result.symm.trans inserted)
    exact ⟨_, counted⟩

theorem Holds.real_of_nodeAt (holds : t.Holds t.size slots) (inside : i < t.size) {entry : UInt32 × UInt64 × UInt64}
    (node : t.nodeAt i = some entry) : slots i = .real entry.1 (entry.2.1, entry.2.2) := by
  rw [holds.nodeAt inside] at node
  exact Slot.content_eq_some.mp node

theorem Resizable.counted (resizable : Resizable funcs t) : ∃ n slots, t.Counted n slots := by
  cases resizable with
  | idle reachable =>
    obtain ⟨n, slots, sound⟩ := reachable.sound
    exact ⟨n, slots, sound.toCounted⟩
  | inserted reachable found inserted =>
    obtain ⟨n, slots, sound⟩ := reachable.sound
    obtain ⟨slots', counted⟩ := insertedNode_counted sound found inserted
    exact ⟨n, slots', counted⟩
  | @removed _ _ _ _ notify _ reachable inside node removed =>
    obtain ⟨n, slots, sound⟩ := reachable.sound
    obtain ⟨s, result, sound', _⟩ := removeNode_spec funcs sound inside (sound.holds.real_of_nodeAt inside node) notify
    obtain ⟨_, rfl⟩ : _ ∧ s = t := by simpa using result.symm.trans removed
    exact ⟨n, _, sound'.toCounted⟩
  | @stolen _ _ _ _ _ _ wantKey wantValue _ _ _ reachable inside node first second removed =>
    obtain ⟨n, slots, sound⟩ := reachable.sound
    obtain ⟨s₁, k₁, result₁, sound₁, size₁⟩ :=
      takeKey_spec sound inside (sound.holds.real_of_nodeAt inside node) wantKey
    obtain ⟨_, rfl⟩ : _ ∧ s₁ = _ := by simpa using result₁.symm.trans first
    obtain ⟨s₂, k₂, v₂, result₂, sound₂, size₂⟩ :=
      takeValue_spec sound₁ (size₁.symm ▸ inside) (Function.update_self ..) wantValue
    obtain ⟨_, rfl⟩ : _ ∧ s₂ = _ := by simpa using result₂.symm.trans second
    obtain ⟨s, result, sound', _⟩ :=
      removeNode_spec funcs sound₂ ((size₂.trans size₁).symm ▸ inside) (Function.update_self ..) false
    obtain ⟨_, rfl⟩ : _ ∧ s = t := by simpa using result.symm.trans removed
    exact ⟨n, _, sound'.toCounted⟩
  | @filtered _ _ func notify _ _ reachable looped =>
    obtain ⟨n, slots, sound⟩ := reachable.sound
    obtain ⟨s, ran, sound', _⟩ := foreachLoop_spec funcs func notify sound
    obtain ⟨_, _, rfl⟩ : _ ∧ _ ∧ s = t := by simpa using ran.symm.trans looped
    exact ⟨n, _, sound'.toCounted⟩
  | @emptied _ _ version notify _ reachable removed =>
    obtain ⟨n, slots, sound⟩ := reachable.sound
    obtain ⟨s, n', slots', result, sound', _⟩ := removeAllNodes_spec funcs (sound.withVersion version) notify
    obtain ⟨_, rfl⟩ : _ ∧ s = t := by simpa using result.symm.trans removed
    exact ⟨n', slots', sound'.toCounted⟩

end Counts

section Rehashing

/-- What a resize of `t` to `t'` has to do, where `s` is the table before its arrays are cut to the new size. -/
structure RehashedInto (t s t' : HashTable) : Prop where
  before : t.rehashed = some s
  after : t.resize = some t'
  sizes : s.size = t'.size
  cut : ∀ i, t'.size ≤ i → i < t.size → s.hashes.read i = some unusedHashValue
  contents : t'.contents.Perm t.contents
  nodes : t'.nnodes = t'.contents.length
  noccupied : t'.noccupied = t'.nnodes
  clean : ∀ i < t'.size, hashIsTombstone (t'.hashes.cell i) = false
  arrays : t'.Shaped t'.size
  placed : ∀ i < t'.size, hashIsReal (t'.hashes.cell i) →
    ∃ k, t'.probeIndex (t'.hashes.cell i) k = i ∧
      ∀ j < k, hashIsUnused (t'.hashes.cell (t'.probeIndex (t'.hashes.cell i) j)) = false

variable {t : HashTable} {n : Nat} {slots : Nat → TableSlot}

def CanGrow (t : HashTable) : Prop := t.size < 2 ^ nextShift t.nnodes → t.Allocatable (2 ^ nextShift t.nnodes)

theorem nextShift_of_allocatable {s : Nat} (fits : t.Allocatable (2 ^ s)) : s ≤ 29 := by
  by_contra large
  have wide : 2 ^ 30 ≤ 2 ^ s := Nat.pow_le_pow_right Nat.two_pos (Nat.lt_of_not_le large)
  have least : 4 ≤ Column.entrySize t.haveBigKeys := by
    cases t.haveBigKeys <;> decide
  have bytes := Nat.lt_of_le_of_lt (Nat.mul_le_mul wide least) fits.1
  exact absurd bytes (by decide)

theorem CanGrow.room (counted : t.Counted n slots) (grows : t.CanGrow) :
    nextShift t.nnodes ≤ 29 ∧ (nextShift t.nnodes ≠ n → t.Allocatable (2 ^ nextShift t.nnodes)) := by
  have size := counted.geometric.size
  rcases Nat.lt_trichotomy (nextShift t.nnodes) n with shrinks | same | more
  · have small := counted.geometric.small
    exact ⟨by omega, fun _ => allocatable_of_lt (by omega) t⟩
  · exact ⟨same ▸ counted.geometric.small, fun differ => absurd same differ⟩
  · have fits := grows (by
      rw [size]
      exact Nat.pow_lt_pow_right (by decide) more)
    exact ⟨nextShift_of_allocatable fits, fun _ => fits⟩

theorem placed_probes {t' : HashTable} {slots' : Nat → TableSlot} (geometric : t'.Geometric n) (holds : t'.Holds t'.size slots')
    (placed : Placed t'.size t'.hashToIndex slots') (i : Nat) (inside : i < t'.size) (real : hashIsReal (t'.hashes.cell i)) :
    ∃ k, t'.probeIndex (t'.hashes.cell i) k = i ∧
      ∀ j < k, hashIsUnused (t'.hashes.cell (t'.probeIndex (t'.hashes.cell i) j)) = false := by
  have positive : 0 < t'.size := geometric.size ▸ Nat.pow_pos Nat.two_pos
  have cell := holds.hash i inside
  rw [cell, hashIsReal_slotHash holds inside] at real
  obtain ⟨⟨h, entry⟩, content⟩ := Option.isSome_iff_exists.mp real
  have slot := Slot.content_eq_some.mp content
  rw [slot] at cell
  obtain ⟨k, same, before⟩ := placed i inside h entry slot
  rw [cell]
  refine ⟨k, (probeIndex_eq geometric h k).trans same, fun j less => ?_⟩
  show hashIsUnused (t'.hashes.cell (t'.probeIndex h j)) = false
  rw [probeIndex_eq geometric, hashIsUnused_slotHash holds (probeSlot_lt positive _ j), before j less]
  rfl

theorem rehashedInto_of_canGrow (counted : t.Counted n slots) (grows : t.CanGrow) : ∃ s t', RehashedInto t s t' := by
  obtain ⟨small, room⟩ := grows.room counted
  obtain ⟨s, slots₁, ran, rehashed⟩ :=
    rehashed_spec counted.geometric counted.holds counted.beyond counted.nodes small room
  obtain ⟨t', slots', result, resized⟩ :=
    resize_spec counted.geometric counted.holds counted.beyond counted.nodes small room
  have sizes : s.size = t'.size := rehashed.geometric.size.trans resized.geometric.size.symm
  have contents : t'.contents = entriesBelow slots' t'.size := resized.holds.contents
  have perm : t'.contents.Perm t.contents := by
    rw [contents, counted.holds.contents]
    exact resized.entries
  refine ⟨s, t', ran, result, sizes, fun i far below => ?_, perm, ?_, resized.noccupied.trans resized.nnodes.symm,
    fun i inside => ?_, resized.holds.toShaped, placed_probes resized.geometric resized.holds resized.placed⟩
  · rw [rehashed.holds.read (Nat.lt_of_lt_of_le below (Nat.le_max_left ..)), rehashed.beyond i (sizes ▸ far)]
    rfl
  · rw [resized.nnodes, counted.nodes, contents, realsBelow, resized.entries.length_eq]
  · rw [resized.holds.hash i inside]
    cases slot : slots' i with
    | unused => rfl
    | tombstone => exact absurd slot (resized.clean i)
    | real h entry =>
      have real := (resized.holds.entry i inside h entry.1 entry.2 slot).1
      cases grave : hashIsTombstone h with
      | false => exact grave
      | true =>
        rw [hashIsTombstone, beq_iff_eq] at grave
        rw [grave] at real
        exact absurd real Bool.false_ne_true

/-- A table without entries does not grow. -/
theorem nnodes_pos (counted : t.Counted n slots) (grows : t.size < 2 ^ nextShift t.nnodes) : 0 < t.nnodes := by
  apply Nat.pos_of_ne_zero
  intro none
  have few : t.nnodes * 4 < 2 ^ n := by
    rw [none]
    exact Nat.pow_pos Nat.two_pos
  have least := Nat.pow_le_pow_right Nat.two_pos (nextShift_le counted.least few)
  rw [counted.geometric.size] at grows
  omega

/-- If every resize did what it has to do, tables could have any number of entries. -/
theorem reachable_with_nodes (always : ∀ t, Resizable directFuncs t → ∃ s t', RehashedInto t s t') (k : Nat) (small : k < 2 ^ 64) :
    ∃ t, Reachable directFuncs t ∧ t.nnodes = k ∧ ∀ entry ∈ t.contents, entry.2.1.toNat < k := by
  -- each further key is the number of nodes so far, so it is new
  induction k with
  | zero =>
    obtain ⟨t, made, sound⟩ := newFull_spec directFuncs
    have empty : t.contents = [] := sound.holds.contents.trans (entriesBelow_unused _)
    refine ⟨t, .created made, ?_, ?_⟩
    · rw [sound.nodes, realsBelow, entriesBelow_unused]
      rfl
    · rw [empty]
      exact fun entry member => absurd member List.not_mem_nil
  | succ k ih =>
    obtain ⟨t, reachable, nnodes, below⟩ := ih (Nat.lt_of_succ_lt small)
    obtain ⟨n, slots, sound⟩ := reachable.sound
    rw [sound.holds.contents] at below
    have number : (UInt64.ofNat k).toNat = k := by
      exact Nat.mod_eq_of_lt (Nat.lt_of_succ_lt small)
    obtain ⟨i, inside, found, looked, same⟩ := insertInternal_cases directFuncs sound (UInt64.ofNat k) 0 false
    rcases looked with ⟨nodeKey, nodeValue, held, equal⟩ | ⟨empty, reached, _⟩
    · have less := below _ (mem_entriesBelow.mpr ⟨i, inside, held⟩)
      have key : nodeKey = UInt64.ofNat k := by simpa [directFuncs, TableFuncs.equal] using equal
      rw [key, number] at less
      exact absurd less (Nat.lt_irrefl k)
    · have real := hashIsReal_realHash directFuncs (UInt64.ofNat k)
      have room : slots i = .unused → (t.grown (UInt64.ofNat k) 0).Room := by
        intro unused
        obtain ⟨t₁, inserted, counted, fits, positive, _⟩ := insertedNode_spec sound inside unused reached real (UInt64.ofNat k) 0
        obtain ⟨s, t', into⟩ := always t₁ (.inserted reachable found inserted)
        refine fits.mp fun wants => ?_
        have resized : t₁.maybeResize = some t' := by rw [maybeResize, if_pos wants, into.after]
        exact room_of_maybeResize counted positive resized wants
      obtain ⟨t', n', slots', inserted, sound', perm⟩ :=
        insertNode_new directFuncs sound inside empty reached real (UInt64.ofNat k) 0 false false room
      rw [inserted] at same
      have performed : TableCall.perform directFuncs t (.map (.insert (UInt64.ofNat k) 0)) = some (.flag true, [], t') :=
        congrArg flagged same
      refine ⟨t', reachable.performed performed, ?_, fun entry member => ?_⟩
      · have before := sound.nodes
        rw [nnodes] at before
        rw [sound'.nodes, before]
        exact perm.length_eq
      · rw [sound'.holds.contents] at member
        rcases List.mem_cons.mp (perm.subset member) with rfl | old
        · exact Nat.lt_succ_of_le (Nat.le_of_eq number)
        · exact Nat.lt_succ_of_lt (below entry old)

end Rehashing

end HashTable

open HashTable

/-- A resize puts every entry in its place if and only if the arrays of the new size can be allocated. -/
theorem resize_rehashes_iff (funcs : TableFuncs) (t : HashTable) (resizable : Resizable funcs t) :
    (∃ s t', RehashedInto t s t') ↔
      (t.size < 2 ^ nextShift t.nnodes →
        2 ^ nextShift t.nnodes * Column.entrySize t.haveBigKeys < 2 ^ 32 ∧
          2 ^ nextShift t.nnodes * Column.entrySize t.haveBigValues < 2 ^ 32) := by
  obtain ⟨n, slots, counted⟩ := resizable.counted
  constructor
  · rintro ⟨s, t', into⟩ grows
    by_contra short
    have stuck := resize_none counted (nnodes_pos counted grows) grows fun fits => short fits.2
    exact nomatch stuck.symm.trans into.after
  · exact rehashedInto_of_canGrow counted

/-- The keys 0 to 2^29 - 1 cannot all be inserted, as some resize on the way fails. -/
theorem resize_outgrown : ¬∀ (funcs : TableFuncs) (t : HashTable), Resizable funcs t → ∃ s t', RehashedInto t s t' := by
  intro always
  obtain ⟨t, reachable, nnodes, _⟩ := reachable_with_nodes (always directFuncs) (2 ^ 29) (by decide)
  obtain ⟨n, slots, sound⟩ := reachable.sound
  have few := sound.few
  rw [nnodes] at few
  exact absurd few (Nat.lt_irrefl _)

/-- A table with one entry and the tombstone of another one. -/
theorem resize_rehashes_sample : ∃ t s t', RehashedInto t s t' ∧ t.nnodes = 1 ∧ t.noccupied = 2 := by
  have made := Reachable.created (show newFull
    { hashFunc := none, keyEqualFunc := none, keyDestroyFunc := false, valueDestroyFunc := false, small := true } = some _ from rfl)
  have first := made.performed (show TableCall.perform _ _ (.map (.insert 5 7)) = some _ from rfl)
  have second := first.performed (show TableCall.perform _ _ (.map (.insert 12 7)) = some _ from rfl)
  have third := second.performed (show TableCall.perform _ _ (.map (.remove 5)) = some _ from rfl)
  have small : 2 ^ nextShift 1 ≤ 2 ^ 3 := Nat.pow_le_pow_right Nat.two_pos (nextShift_le (Nat.le_refl 3) (by decide))
  obtain ⟨s, t', into⟩ := (resize_rehashes_iff _ _ (.idle third)).mpr fun grows => absurd grows (Nat.not_lt.mpr small)
  exact ⟨_, s, t', into, rfl, rfl⟩

end Xpl.Collections
