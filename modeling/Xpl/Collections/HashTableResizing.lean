import Mathlib.Tactic.Linarith
import Xpl.Collections.HashTableStorage

/-! The resize of a hash table within its own arrays.

An entry is taken out of its slot and put into the first bucket of its search that is not
settled; the entry it finds there is the next one to be put into a bucket. A settled bucket
stays as it is.
-/

set_option autoImplicit false

namespace Xpl.Collections
open Xpl.Library

namespace HashTable

/-- Everything but the cells of the arrays. -/
structure Alike (t t' : HashTable) : Prop where
  size : t'.size = t.size
  mod : t'.mod = t.mod
  mask : t'.mask = t.mask
  nnodes : t'.nnodes = t.nnodes
  noccupied : t'.noccupied = t.noccupied
  haveBigKeys : t'.haveBigKeys = t.haveBigKeys
  haveBigValues : t'.haveBigValues = t.haveBigValues
  isASet : t'.isASet = t.isASet

section Alikeness

variable {t t' t'' : HashTable} {n : Nat}

theorem Alike.refl (t : HashTable) : t.Alike t := ⟨rfl, rfl, rfl, rfl, rfl, rfl, rfl, rfl⟩

theorem Alike.trans (first : t.Alike t') (second : t'.Alike t'') : t.Alike t'' :=
  ⟨second.size.trans first.size, second.mod.trans first.mod, second.mask.trans first.mask,
    second.nnodes.trans first.nnodes, second.noccupied.trans first.noccupied, second.haveBigKeys.trans first.haveBigKeys,
    second.haveBigValues.trans first.haveBigValues, second.isASet.trans first.isASet⟩

theorem alike_put (t : HashTable) (i : Nat) (h : UInt32) (key value : UInt64) : t.Alike (t.put i h key value) := by
  refine ⟨rfl, rfl, rfl, rfl, rfl, rfl, rfl, ?_⟩
  unfold isASet put
  cases t.values <;> rfl

theorem Alike.geometric (alike : t.Alike t') (geometric : t.Geometric n) : t'.Geometric n :=
  ⟨geometric.small, alike.size.trans geometric.size, alike.mask.trans geometric.mask,
    alike.mod ▸ geometric.modPositive, alike.mod ▸ geometric.modLe⟩

theorem Alike.fits (alike : t.Alike t') {key value : UInt64} (fits : t.Fits key value) : t'.Fits key value := by
  refine ⟨?_, ?_, fun none => fits.shared ?_⟩
  · rw [alike.haveBigKeys]
    exact fits.keyStored
  · rw [alike.haveBigValues]
    exact fits.valueStored
  · have set : t'.isASet = true := by rw [HashTable.isASet, none, Option.isNone_none]
    exact Option.isNone_iff_eq_none.mp (alike.isASet.symm.trans set)

theorem Alike.home (alike : t.Alike t') : t'.hashToIndex = t.hashToIndex := by
  funext h
  rw [hashToIndex, hashToIndex, alike.mod]

end Alikeness

section Placing
variable {oldSize m : Nat}
variable {t : HashTable} {n length : Nat} {slots : Nat → TableSlot} {settled : Finset Nat} {bitmap : Cells Bool}

/-- The slots before `m`, and those that the table did not have before, are settled or unused. -/
def Swept (slots : Nat → TableSlot) (settled : Finset Nat) (oldSize m : Nat) : Prop :=
  ∀ i, i ∉ settled → i < m ∨ oldSize ≤ i → slots i = .unused

structure Resizing (t : HashTable) (n length oldSize m : Nat) (slots : Nat → TableSlot) (settled : Finset Nat)
    (bitmap : Cells Bool) : Prop where
  geometric : t.Geometric n
  holds : t.Holds length slots
  inside : 2 ^ n ≤ length
  marks : Marks bitmap length settled
  settles : Library.Settled (2 ^ n) t.hashToIndex slots settled
  swept : Swept slots settled oldSize m

theorem Marks.set (marks : Marks bitmap length settled) (i : Nat) :
    Marks { bitmap with cell := Function.update bitmap.cell i true } length (insert i settled) := by
  refine ⟨marks.length, fun j => ?_⟩
  by_cases same : j = i
  · simp [same]
  · simp [same, marks.bit]

theorem put_of_set (set : t.isASet) (i : Nat) (h : UInt32) (key value other : UInt64) :
    t.put i h key value = t.put i h key other := by
  have none : t.values = none := Option.isNone_iff_eq_none.mp set
  simp [put, none]

/-- The entry in hand in its bucket. -/
theorem Resizing.settle {k : Nat} {h : UInt32} {key value : UInt64}
    (resizing : t.Resizing n length oldSize m slots settled bitmap) (real : hashIsReal h) (fits : t.Fits key value)
    (free : probeSlot (2 ^ n) (t.hashToIndex h) k ∉ settled)
    (before : ∀ j < k, probeSlot (2 ^ n) (t.hashToIndex h) j ∈ settled) :
    (t.put (probeSlot (2 ^ n) (t.hashToIndex h) k) h key value).Resizing n length oldSize m
      (Function.update slots (probeSlot (2 ^ n) (t.hashToIndex h) k) (.real h (key, value)))
      (insert (probeSlot (2 ^ n) (t.hashToIndex h) k) settled)
      { bitmap with cell := Function.update bitmap.cell (probeSlot (2 ^ n) (t.hashToIndex h) k) true } := by
  have bucket : probeSlot (2 ^ n) (t.hashToIndex h) k < 2 ^ n := probeSlot_lt (Nat.pow_pos Nat.two_pos) _ k
  have alike := alike_put t (probeSlot (2 ^ n) (t.hashToIndex h) k) h key value
  refine ⟨alike.geometric resizing.geometric, ?_, resizing.inside, resizing.marks.set _, ?_, ?_⟩
  · exact resizing.holds.putReal real fits
  · rw [alike.home]
    exact resizing.settles.insert (key, value) bucket free before
  · intro i out region
    rw [Finset.mem_insert, not_or] at out
    rw [Function.update_of_ne out.1]
    exact resizing.swept i out.2 region

theorem Resizing.card_le (resizing : t.Resizing n length oldSize m slots settled bitmap) :
    settled.card ≤ realsBelow slots length := by
  apply resizing.settles.card_le
  intro i member
  exact Finset.mem_range.mpr (Nat.lt_of_lt_of_le (resizing.settles i member).1 resizing.inside)

/-- A loop that puts one entry into a bucket, and then those that were evicted, puts each into one. -/
theorem placeLoop_spec (fuel : Nat) (word : UInt64) {h : UInt32} {key value : UInt64}
    (resizing : t.Resizing n length oldSize m slots settled bitmap) (real : hashIsReal h) (fits : t.Fits key value)
    (inHand : t.isASet = false → word = value) (few : realsBelow slots length < 2 ^ n)
    (turns : realsBelow slots length < settled.card + fuel) :
    ∃ t' slots' settled' bitmap', placeLoop t.isASet fuel t bitmap h key word = some (t', bitmap') ∧ t.Alike t' ∧
      t'.Resizing n length oldSize m slots' settled' bitmap' ∧
      (entriesBelow slots' length).Perm ((h, key, value) :: entriesBelow slots length) := by
  -- on the turns: each puts a node where it belongs and takes up the one it displaces, so one more slot is settled
  induction fuel generalizing t slots settled bitmap h key value word with
  | zero =>
    have := resizing.card_le
    omega
  | succ fuel ih =>
    have count := resizing.card_le
    obtain ⟨k, turn, free, before⟩ := exists_unsettled (t.hashToIndex h) (Nat.lt_of_le_of_lt count few)
    have bucket : probeSlot (2 ^ n) (t.hashToIndex h) k < length :=
      Nat.lt_of_lt_of_le (probeSlot_lt (Nat.pow_pos Nat.two_pos) _ k) resizing.inside
    have seek : t.seekBucket bitmap t.size 0 (t.hashToIndex h) = some (probeSlot (2 ^ n) (t.hashToIndex h) k) := by
      have := seekBucket_eq resizing.geometric resizing.marks resizing.inside free before t.size 0 (Nat.zero_le k)
        (by rw [resizing.geometric.size]; omega)
      rwa [probeSlot_zero (resizing.geometric.home_lt h)] at this
    have settle := resizing.settle real fits free before
    have alike := alike_put t (probeSlot (2 ^ n) (t.hashToIndex h) k) h key value
    generalize probeSlot (2 ^ n) (t.hashToIndex h) k = i at *
    have shaped := resizing.holds.toShaped
    have rewrite : t.put i h (Column.stored t.haveBigKeys key) (Column.stored t.haveBigValues word) = t.put i h key value := by
      cases set : t.isASet with
      | true => rw [fits.keyStored, put_of_set set]
      | false => rw [inHand set, fits.keyStored, fits.valueStored]
    have perm := entriesBelow_update slots bucket (.real h (key, value))
    have place := assignKeyval_eq (shaped.setHash (Function.update t.hashes.cell i h)) bucket key word
    rw [put_hashes, rewrite] at place
    change assignKeyval _ t.isASet i key word = _ at place
    simp only [placeLoop, seek, Cells.write_eq (Nat.lt_of_lt_of_le bucket resizing.marks.length), resizing.holds.read bucket,
      setHash_eq shaped bucket, some_bind]
    rw [hashIsReal_slotHash resizing.holds bucket]
    cases slot : slots i with
    | real h' entry =>
      obtain ⟨key', value'⟩ := entry
      obtain ⟨real', fits', keyCell, valueCell⟩ := resizing.holds.entry i bucket h' key' value' slot
      have evict := evictKeyval_eq (shaped.setHash (Function.update t.hashes.cell i h)) bucket keyCell valueCell key word
      have reals : realsBelow (Function.update slots i (.real h (key, value))) length = realsBelow slots length := by
        have := perm.length_eq
        rw [slot] at this
        simpa [realsBelow] using this
      rw [put_hashes, rewrite] at evict
      have card : (insert i settled).card = settled.card + 1 := Finset.card_insert_of_notMem free
      obtain ⟨t', slots', settled', bitmap', result, alike', resizing', perm'⟩ :=
        ih (if t.isASet then word else value') settle real' (alike.fits fits') (fun set => by
          rw [alike.isASet] at set
          rw [set]
          rfl) (by omega) (by omega)
      refine ⟨t', slots', settled', bitmap', ?_, alike.trans alike', resizing', ?_⟩
      · simp only [Slot.content_real, Option.isSome_some, if_true, slotHash]
        rw [show t.isASet = { t with hashes := { t.hashes with cell := Function.update t.hashes.cell i h } }.isASet from rfl,
          evict]
        rw [← result, alike.isASet]
        rfl
      · rw [slot] at perm
        exact perm'.trans ((List.perm_append_singleton _ _).symm.trans (perm.trans (List.perm_append_singleton _ _)))
    | unused =>
      rw [slot] at perm
      refine ⟨_, _, _, _, ?_, alike, settle, ?_⟩
      · simp only [Slot.content_unused, Option.isSome_none, Bool.false_eq_true, if_false]
        rw [place]
        rfl
      · simpa using perm.trans (List.perm_append_singleton _ _)
    | tombstone =>
      rw [slot] at perm
      refine ⟨_, _, _, _, ?_, alike, settle, ?_⟩
      · simp only [Slot.content_tombstone, Option.isSome_none, Bool.false_eq_true, if_false]
        rw [place]
        rfl
      · simpa using perm.trans (List.perm_append_singleton _ _)

/-- An entry leaves the slot, or a tombstone does. -/
theorem Resizing.vacate {t' : HashTable} (resizing : t.Resizing n length oldSize m slots settled bitmap)
    (alike : t.Alike t') (holds : t'.Holds length (Function.update slots m .unused)) (free : m ∉ settled) :
    t'.Resizing n length oldSize (m + 1) (Function.update slots m .unused) settled bitmap := by
  refine ⟨alike.geometric resizing.geometric, holds, resizing.inside, resizing.marks, ?_, fun i out region => ?_⟩
  · rw [alike.home]
    exact resizing.settles.write free _
  · by_cases same : i = m
    · rw [same, Function.update_self]
    · rw [Function.update_of_ne same]
      exact resizing.swept i out (by omega)

theorem Resizing.pass (resizing : t.Resizing n length oldSize m slots settled bitmap)
    (member : m ∈ settled) : t.Resizing n length oldSize (m + 1) slots settled bitmap := by
  refine ⟨resizing.geometric, resizing.holds, resizing.inside, resizing.marks, resizing.settles, fun i out region => ?_⟩
  have other : i ≠ m := fun same => out (same ▸ member)
  exact resizing.swept i out (by omega)

theorem resizeTurn_spec (resizing : t.Resizing n length oldSize m slots settled bitmap)
    (within : m < length) (few : realsBelow slots length < 2 ^ n) :
    ∃ t' slots' settled' bitmap', resizeTurn t.isASet (t, bitmap) m = some (t', bitmap') ∧ t.Alike t' ∧
      t'.Resizing n length oldSize (m + 1) slots' settled' bitmap' ∧
      (entriesBelow slots' length).Perm (entriesBelow slots length) := by
  have shaped := resizing.holds.toShaped
  have perm := entriesBelow_update slots within .unused
  rw [Slot.content_unused, Option.toList_none, List.append_nil] at perm
  simp only [resizeTurn, resizing.holds.read within, setHash_eq shaped within, some_bind,
    Cells.read_eq (Nat.lt_of_lt_of_le within resizing.marks.length)]
  rw [hashIsReal_slotHash resizing.holds within]
  have vacant : ∀ {slot}, slots m = slot → slot.content = none → m ∉ settled := by
    intro slot held empty member
    obtain ⟨_, h, entry, real, _⟩ := resizing.settles m member
    rw [held.symm.trans real] at empty
    exact absurd empty (Option.some_ne_none _)
  have alike : t.Alike { t with hashes := { t.hashes with cell := Function.update t.hashes.cell m unusedHashValue } } :=
    ⟨rfl, rfl, rfl, rfl, rfl, rfl, rfl, rfl⟩
  have cleared := resizing.holds.clearHash (i := m) (show slotHash .unused = unusedHashValue from rfl) rfl
  cases slot : slots m with
  | unused =>
    rw [slot] at perm
    refine ⟨_, _, settled, bitmap, ?_, alike, resizing.vacate alike cleared (vacant slot rfl), by simpa using perm⟩
    simp only [Slot.content_unused, Option.isSome_none, Bool.false_eq_true, if_false]
  | tombstone =>
    rw [slot] at perm
    refine ⟨_, _, settled, bitmap, ?_, alike, resizing.vacate alike cleared (vacant slot rfl), by simpa using perm⟩
    simp only [Slot.content_tombstone, Option.isSome_none, Bool.false_eq_true, if_false]
  | real h entry =>
    obtain ⟨key, value⟩ := entry
    simp only [Slot.content_real, Option.isSome_some, if_true, slotHash]
    by_cases member : m ∈ settled
    · refine ⟨t, slots, settled, bitmap, ?_, Alike.refl t, resizing.pass member, List.Perm.refl _⟩
      rw [if_pos ((resizing.marks.bit m).mpr member)]
    · rw [if_neg (fun set => member ((resizing.marks.bit m).mp set))]
      obtain ⟨real, fits, keyCell, valueCell⟩ := resizing.holds.entry m within h key value slot
      have evict := evictKeyval_eq (shaped.setHash (Function.update t.hashes.cell m unusedHashValue)) within keyCell valueCell 0 0
      rw [put_hashes, stored_zero, stored_zero] at evict
      change evictKeyval _ t.isASet m 0 0 = _ at evict
      have put := alike_put t m unusedHashValue 0 0
      have vacated := resizing.vacate put
        (resizing.holds.clear (show slotHash .unused = unusedHashValue from rfl) rfl) member
      rw [slot] at perm
      have reals : realsBelow (Function.update slots m .unused) length + 1 = realsBelow slots length := by
        simpa [realsBelow] using perm.length_eq
      obtain ⟨t', slots', settled', bitmap', result, alike', resizing', perm'⟩ :=
        placeLoop_spec t.size (if t.isASet then 0 else value) vacated real (put.fits fits) (fun set => by
          rw [put.isASet] at set
          rw [set]
          rfl) (by omega) (by rw [resizing.geometric.size]; omega)
      refine ⟨t', slots', settled', bitmap', ?_, put.trans alike', resizing', ?_⟩
      · rw [evict, ← result, put.isASet]
        rfl
      · exact perm'.trans ((List.perm_append_singleton _ _).symm.trans perm)

theorem resizeSlots_spec (resizing : t.Resizing n length oldSize 0 slots settled bitmap)
    (within : oldSize ≤ length) (few : realsBelow slots length < 2 ^ n) :
    ∃ t' slots' settled' bitmap', t.resizeSlots t.isASet oldSize bitmap = some (t', bitmap') ∧ t.Alike t' ∧
      t'.Resizing n length oldSize oldSize slots' settled' bitmap' ∧
      (entriesBelow slots' length).Perm (entriesBelow slots length) := by
  have run : ∀ m ≤ oldSize, ∃ t' slots' settled' bitmap',
      (List.range m).foldlM (resizeTurn t.isASet) (t, bitmap) = some (t', bitmap') ∧ t.Alike t' ∧
        t'.Resizing n length oldSize m slots' settled' bitmap' ∧
        (entriesBelow slots' length).Perm (entriesBelow slots length) := by
    intro m
    -- on the slots passed: those below `m` hold nothing that still has to move
    induction m with
    | zero => exact fun _ => ⟨t, slots, settled, bitmap, rfl, Alike.refl t, resizing, List.Perm.refl _⟩
    | succ m ih =>
      intro below
      obtain ⟨t', slots', settled', bitmap', ran, alike, between, perm⟩ := ih (Nat.le_of_succ_le below)
      have few' : realsBelow slots' length < 2 ^ n := by
        unfold realsBelow
        rw [perm.length_eq]
        exact few
      obtain ⟨t'', slots'', settled'', bitmap'', turn, alike', after, perm'⟩ :=
        resizeTurn_spec between (Nat.lt_of_lt_of_le below within) few'
      rw [alike.isASet] at turn
      refine ⟨t'', slots'', settled'', bitmap'', ?_, alike.trans alike', after, perm'.trans perm⟩
      rw [List.range_succ, List.foldlM_append, ran]
      simpa using turn
  exact run oldSize (Nat.le_refl _)

end Placing

section Sizes

theorem roundToDouble_bounds (p : Nat) : p ≤ roundToDouble p + p / 2 ^ 52 ∧ roundToDouble p ≤ p + p / 2 ^ 52 := by
  have split : 2 ^ (p.log2 - 52) * (p / 2 ^ (p.log2 - 52)) + p % 2 ^ (p.log2 - 52) = p := Nat.div_add_mod p _
  rw [Nat.mul_comm] at split
  -- the unit of the last place, if it is more than 1
  have unit : 2 ^ (p.log2 - 52) = 1 ∨ 2 ^ (p.log2 - 52) ≤ p / 2 ^ 52 := by
    rcases Nat.lt_or_ge p.log2 53 with few | many
    · exact Or.inl (by rw [Nat.sub_eq_zero_of_le (Nat.le_of_lt_succ few), Nat.pow_zero])
    · refine Or.inr ((Nat.le_div_iff_mul_le (Nat.pow_pos Nat.two_pos)).mpr ?_)
      rw [← Nat.pow_add, Nat.sub_add_cancel (by omega)]
      exact Nat.log2_self_le (by
        rintro rfl
        simp at many)
  unfold roundToDouble
  dsimp only
  split
  · rw [Nat.succ_mul]
    omega
  · omega

theorem le_times1333 (n : Nat) : n + n / 16 ≤ times1333 n := by
  have bounds := (roundToDouble_bounds (n * 6003298303284871)).1
  have error : n * 6003298303284871 / 2 ^ 52 ≤ 2 * n := Nat.div_le_of_le_mul (by omega)
  unfold times1333
  rw [Nat.le_div_iff_mul_le (Nat.pow_pos Nat.two_pos)]
  have sixteenth : 16 * (n / 16) ≤ n := Nat.mul_div_le n 16
  linarith

theorem times1333_lt {n size : Nat} (positive : 0 < size) (few : n * 4 < size) : times1333 n < size := by
  have bounds := (roundToDouble_bounds (n * 6003298303284871)).2
  unfold times1333
  omega

theorem findClosestShift_least (n : Nat) : n < 2 ^ findClosestShift n ∧ ∀ shift, n < 2 ^ shift → findClosestShift n ≤ shift := by
  induction n using findClosestShift.induct with
  | case1 => exact ⟨Nat.pow_pos Nat.two_pos, fun shift _ => by rw [findClosestShift, if_pos rfl]; exact Nat.zero_le _⟩
  | case2 n positive ih =>
    rw [findClosestShift, if_neg positive, Nat.pow_succ]
    refine ⟨by omega, fun shift below => ?_⟩
    obtain ⟨shift, rfl⟩ : ∃ m, shift = m + 1 := by
      apply Nat.exists_eq_succ_of_ne_zero
      rintro rfl
      omega
    exact Nat.succ_le_succ (ih.2 shift (by omega))

theorem lt_findClosestShift (n : Nat) : n < 2 ^ findClosestShift n := (findClosestShift_least n).1

theorem findClosestShift_le {n shift : Nat} (below : n < 2 ^ shift) : findClosestShift n ≤ shift :=
  (findClosestShift_least n).2 shift below

/-- The shift of a table after a resize with this many entries. -/
def nextShift (nnodes : Nat) : Nat := max (findClosestShift (times1333 nnodes)) hashTableMinShift

theorem lt_nextShift (nnodes : Nat) : nnodes + nnodes / 16 < 2 ^ nextShift nnodes := by
  calc nnodes + nnodes / 16 ≤ times1333 nnodes := le_times1333 nnodes
    _ < 2 ^ findClosestShift (times1333 nnodes) := lt_findClosestShift _
    _ ≤ 2 ^ nextShift nnodes := Nat.pow_le_pow_right Nat.two_pos (Nat.le_max_left ..)

theorem nextShift_le {nnodes n : Nat} (least : hashTableMinShift ≤ n) (few : nnodes * 4 < 2 ^ n) : nextShift nnodes ≤ n :=
  Nat.max_le.mpr ⟨findClosestShift_le (times1333_lt (Nat.pow_pos Nat.two_pos) few), least⟩

end Sizes

section Resize

variable {t : HashTable} {n : Nat} {slots : Nat → TableSlot}

/-- What a resize leaves: the same entries, no tombstones, and every entry on its probe path. -/
structure Resized (t t' : HashTable) (slots slots' : Nat → TableSlot) (n : Nat) : Prop where
  geometric : t'.Geometric n
  holds : t'.Holds t'.size slots'
  placed : Placed t'.size t'.hashToIndex slots'
  clean : ∀ i, slots' i ≠ .tombstone
  beyond : ∀ i, t'.size ≤ i → slots' i = .unused
  entries : (entriesBelow slots' t'.size).Perm (entriesBelow slots t.size)
  nnodes : t'.nnodes = t.nnodes
  noccupied : t'.noccupied = t.nnodes
  haveBigKeys : t'.haveBigKeys = t.haveBigKeys
  haveBigValues : t'.haveBigValues = t.haveBigValues

/-- The numbers say nothing about the arrays. -/
theorem Holds.recount {length : Nat} (holds : t.Holds length slots) (size mod mask nnodes noccupied version : Nat) :
    { t with
      size := size, mod := mod, mask := mask, nnodes := nnodes, noccupied := noccupied, version := version }.Holds length slots :=
  holds.transfer ⟨holds.hashLength, holds.keyLength, holds.valueLength, holds.keyWidth, holds.valueWidth⟩ (fun _ _ => rfl)
    (fun _ _ => rfl) (fun _ _ => rfl) id id id

theorem reallocIf_spec {length : Nat} (condition : Bool) (holds : t.Holds length slots)
    (room : condition = true → t.Allocatable t.size) (beyond : ∀ i, length ≤ i → slots i = .unused) :
    ∃ t', t.reallocIf condition t.isASet = some t' ∧ t.Alike t' ∧
      t'.Holds (if condition then t.size else length) slots := by
  cases condition with
  | false => exact ⟨t, rfl, Alike.refl t, holds⟩
  | true =>
    obtain ⟨keys, hashes, values, result, held, shared⟩ := holds.reallocArrays (room rfl)
    refine ⟨_, result, ⟨rfl, rfl, rfl, rfl, rfl, rfl, rfl, shared⟩, held.congr fun i _ => ?_⟩
    split
    · rfl
    · exact beyond i (by omega)

/-- The table whose entries are in place for its new size, and whose arrays are not cut yet. -/
def rehashed (t : HashTable) : Option HashTable := do
  let isASet := t.isASet
  let s ← t.setShiftFromSize (times1333 t.nnodes)
  let s ← s.reallocIf (t.size < s.size) isASet
  let bitmap := Cells.filled ((max s.size t.size + 31) / 32 * 32) false
  let (s, _) ← s.resizeSlots isASet t.size bitmap
  some s

theorem resize_eq (t : HashTable) :
    t.resize = t.rehashed.bind fun s =>
      (s.reallocIf (s.size < t.size) t.isASet).bind fun s => some { s with noccupied := s.nnodes } := by
  unfold resize rehashed
  simp only [Option.bind_eq_bind, Option.bind_assoc, Option.bind_some]

/-- What the loop leaves in arrays that are as long as the greater one of the sizes. -/
structure Rehashed (t t' : HashTable) (slots slots' : Nat → TableSlot) (n : Nat) : Prop where
  geometric : t'.Geometric n
  holds : t'.Holds (max t.size t'.size) slots'
  placed : Placed t'.size t'.hashToIndex slots'
  clean : ∀ i, slots' i ≠ .tombstone
  beyond : ∀ i, t'.size ≤ i → slots' i = .unused
  entries : (entriesBelow slots' t'.size).Perm (entriesBelow slots t.size)
  nnodes : t'.nnodes = t.nnodes
  haveBigKeys : t'.haveBigKeys = t.haveBigKeys
  haveBigValues : t'.haveBigValues = t.haveBigValues
  isASet : t'.isASet = t.isASet

theorem rehashed_spec (geometric : t.Geometric n) (holds : t.Holds t.size slots)
    (beyond : ∀ i, t.size ≤ i → slots i = .unused) (count : t.nnodes = realsBelow slots t.size)
    (small : nextShift t.nnodes ≤ 29) (room : nextShift t.nnodes ≠ n → t.Allocatable (2 ^ nextShift t.nnodes)) :
    ∃ t' slots', t.rehashed = some t' ∧ Rehashed t t' slots slots' (nextShift t.nnodes) := by
  obtain ⟨mod, shifted, positive, below⟩ := setShift_eq t (Nat.le_succ_of_le small)
  have enough := lt_nextShift t.nnodes
  have sizeShift : t.setShiftFromSize (times1333 t.nnodes) = t.setShift (nextShift t.nnodes) := rfl
  obtain ⟨s, shift⟩ : ∃ s, nextShift t.nnodes = s := ⟨_, rfl⟩
  rw [shift] at small room shifted enough sizeShift below ⊢
  -- the table of the new size, whose arrays still have the old one
  obtain ⟨t₁, resized⟩ : ∃ t₁ : HashTable, t₁ = { t with size := 2 ^ s, mod := mod, mask := 2 ^ s - 1 } := ⟨_, rfl⟩
  have holds₁ : t₁.Holds t.size slots := resized ▸ holds.recount (2 ^ s) mod (2 ^ s - 1) _ _ _
  have geometric₁ : t₁.Geometric s := resized ▸ ⟨small, rfl, rfl, positive, below⟩
  obtain ⟨t₂, grown, alike₂, holds₂⟩ := reallocIf_spec (t.size < 2 ^ s) holds₁ (fun grows => by
    subst resized
    apply room
    rintro rfl
    rw [geometric.size] at grows
    exact absurd (of_decide_eq_true grows) (Nat.lt_irrefl _)) beyond
  have length₂ : (if decide (t.size < 2 ^ s) = true then t₁.size else t.size) = max t.size (2 ^ s) := by
    rw [geometric₁.size]
    simp only [decide_eq_true_eq]
    split <;> omega
  rw [length₂] at holds₂
  have least : t.size ≤ max t.size (2 ^ s) := Nat.le_max_left ..
  have fits : 2 ^ s ≤ max t.size (2 ^ s) := Nat.le_max_right ..
  have initial : t₂.Resizing s (max t.size (2 ^ s)) t.size 0 slots ∅
      (Cells.filled ((max t₂.size t.size + 31) / 32 * 32) false) := by
    refine ⟨alike₂.geometric geometric₁, holds₂, fits, ⟨?_, fun i => by simp [Cells.filled]⟩, settled_empty,
      fun i _ region => beyond i (by omega)⟩
    rw [(alike₂.geometric geometric₁).size]
    show max t.size (2 ^ s) ≤ (max (2 ^ s) t.size + 31) / 32 * 32
    omega
  have extended : entriesBelow slots (max t.size (2 ^ s)) = entriesBelow slots t.size :=
    entriesBelow_extend least fun i outside => by
      rw [beyond i outside]
      rfl
  obtain ⟨t₃, slots₃, settled, bitmap, ran, alike₃, final, perm⟩ := resizeSlots_spec initial least (by
    unfold realsBelow at count ⊢
    rw [extended, ← count]
    omega)
  have unsettled : ∀ i, i ∉ settled → slots₃ i = .unused := fun i out => final.swept i out (Nat.lt_or_ge i t.size)
  have outside : ∀ i, 2 ^ s ≤ i → slots₃ i = .unused := fun i far =>
    unsettled i fun member => Nat.not_lt.mpr far (final.settles i member).1
  have alike := alike₂.trans alike₃
  have set₁ : t₁.isASet = t.isASet := by rw [resized]; rfl
  have size₃ := final.geometric.size
  refine ⟨t₃, slots₃, ?_, final.geometric, ?_, ?_, ?_, ?_, ?_, ?_, ?_, ?_, alike.isASet.trans set₁⟩
  · rw [set₁] at grown
    rw [alike₂.isASet, set₁] at ran
    rw [rehashed, sizeShift, shifted, ← resized]
    simp only [some_bind, geometric₁.size, grown, ran]
  · rw [size₃]
    exact final.holds
  · rw [size₃]
    apply final.settles.placed
    rintro i out ⟨h, entry, real⟩
    rw [unsettled i out] at real
    exact nomatch real
  · intro i grave
    by_cases member : i ∈ settled
    · obtain ⟨_, h, entry, real, _⟩ := final.settles i member
      exact nomatch grave.symm.trans real
    · exact nomatch grave.symm.trans (unsettled i member)
  · rw [size₃]
    exact outside
  · rw [size₃, ← extended, ← entriesBelow_extend fits fun i far => by
      rw [outside i far]
      rfl]
    exact perm
  · rw [alike.nnodes, resized]
  · rw [alike.haveBigKeys, resized]
  · rw [alike.haveBigValues, resized]

theorem resize_spec (geometric : t.Geometric n) (holds : t.Holds t.size slots)
    (beyond : ∀ i, t.size ≤ i → slots i = .unused) (count : t.nnodes = realsBelow slots t.size)
    (small : nextShift t.nnodes ≤ 29) (room : nextShift t.nnodes ≠ n → t.Allocatable (2 ^ nextShift t.nnodes)) :
    ∃ t' slots', t.resize = some t' ∧ Resized t t' slots slots' (nextShift t.nnodes) := by
  obtain ⟨t₃, slots', ran, rehashed⟩ := rehashed_spec geometric holds beyond count small room
  have same : nextShift t.nnodes = n → t₃.size = t.size := fun same => by
    rw [rehashed.geometric.size, geometric.size, same]
  obtain ⟨t₄, shrunk, alike, holds₄⟩ := reallocIf_spec (t₃.size < t.size) rehashed.holds (fun shrinks => by
    have smaller := of_decide_eq_true shrinks
    have fits := room fun equal => absurd (same equal) (Nat.ne_of_lt smaller)
    unfold Allocatable at fits ⊢
    rw [rehashed.geometric.size, rehashed.haveBigKeys, rehashed.haveBigValues]
    exact fits) fun i far => rehashed.beyond i (by omega)
  have length₄ : (if decide (t₃.size < t.size) = true then t₃.size else max t.size t₃.size) = t₃.size := by
    simp only [decide_eq_true_eq]
    split <;> omega
  rw [length₄] at holds₄
  rw [rehashed.isASet] at shrunk
  have home : { t₄ with noccupied := t₄.nnodes }.hashToIndex = t₃.hashToIndex := alike.home
  have nodes : t₄.nnodes = t.nnodes := alike.nnodes.trans rehashed.nnodes
  refine ⟨{ t₄ with noccupied := t₄.nnodes }, slots', ?_, ?_, ?_, ?_, rehashed.clean, ?_, ?_, nodes, nodes,
    alike.haveBigKeys.trans rehashed.haveBigKeys, alike.haveBigValues.trans rehashed.haveBigValues⟩
  · rw [resize_eq, ran, Option.bind_some, shrunk, Option.bind_some]
  · obtain ⟨small, size, mask, positive, below⟩ := alike.geometric rehashed.geometric
    exact ⟨small, size, mask, positive, below⟩
  · show { t₄ with noccupied := t₄.nnodes }.Holds t₄.size slots'
    rw [alike.size]
    exact holds₄.recount _ _ _ _ _ _
  · rw [home]
    rw [alike.size]
    exact rehashed.placed
  · show ∀ i, t₄.size ≤ i → slots' i = .unused
    rw [alike.size]
    exact rehashed.beyond
  · show (entriesBelow slots' t₄.size).Perm _
    rw [alike.size]
    exact rehashed.entries

end Resize

end HashTable

end Xpl.Collections
