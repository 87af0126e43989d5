import Xpl.Library.Partial
import Xpl.Collections.HashTable
import Xpl.Library.Slots

/-! The arrays of a hash table as slots.

What a table holds does not depend on whether its arrays are small or shared; the operations
on single cells are writes to one slot.
-/

set_option autoImplicit false

namespace Xpl.Collections
open Xpl.Library

abbrev TableSlot := Slot UInt32 (UInt64 × UInt64)

def slotHash : TableSlot → UInt32
  | .unused => unusedHashValue
  | .tombstone => tombstoneHashValue
  | .real h _ => h

def Column.put (a : Column) (i : Nat) (v : UInt64) : Column :=
  { a with cells := { a.cells with cell := Function.update a.cells.cell i (some v) } }

@[simp] theorem Column.put_cell (a : Column) (i : Nat) (v : UInt64) :
    (a.put i v).cells.cell = Function.update a.cells.cell i (some v) := rfl

namespace HashTable

/-- The arrays can hold the entry. -/
structure Fits (t : HashTable) (key value : UInt64) : Prop where
  keyStored : Column.stored t.haveBigKeys key = key
  valueStored : Column.stored t.haveBigValues value = value
  shared : t.values = none → value = key

/-- The arrays have `length` cells of the widths that the table has noted. -/
structure Shaped (t : HashTable) (length : Nat) : Prop where
  hashLength : t.hashes.length = length
  keyLength : t.keys.cells.length = length
  valueLength : t.valueColumn.cells.length = length
  keyWidth : t.keys.big = t.haveBigKeys
  valueWidth : t.valueColumn.big = t.haveBigValues

structure Holds (t : HashTable) (length : Nat) (slots : Nat → TableSlot) : Prop extends t.Shaped length where
  hash : ∀ i < length, t.hashes.cell i = slotHash (slots i)
  entry : ∀ i < length, ∀ h key value, slots i = .real h (key, value) →
    hashIsReal h ∧ t.Fits key value ∧ t.keys.cells.cell i = some key ∧ t.valueColumn.cells.cell i = some value

/-- The cells at one index are written. -/
def put (t : HashTable) (i : Nat) (h : UInt32) (key value : UInt64) : HashTable :=
  { t with
    hashes := { t.hashes with cell := Function.update t.hashes.cell i h }
    keys := t.keys.put i key
    values := t.values.map fun values => values.put i value }

section Writing

variable {t : HashTable} {length i : Nat} {slots : Nat → TableSlot} {h : UInt32} {key value : UInt64}

@[simp] theorem stored_zero (isBig : Bool) : Column.stored isBig 0 = 0 := by
  cases isBig <;> rfl

theorem fits_zero : t.Fits 0 0 := ⟨stored_zero _, stored_zero _, fun _ => rfl⟩

theorem Holds.read (holds : t.Holds length slots) (inside : i < length) : t.hashes.read i = some (slotHash (slots i)) := by
  rw [Cells.read_eq (holds.hashLength ▸ inside), holds.hash i inside]

theorem Holds.fetchKey (holds : t.Holds length slots) (inside : i < length) (held : slots i = .real h (key, value)) :
    t.fetchKey i = some key := by
  have cell := (holds.entry i inside h key value held).2.2.1
  rw [HashTable.fetchKey, Column.fetch, if_pos holds.keyWidth, Cells.read_eq (holds.keyLength ▸ inside), cell]
  rfl

theorem Holds.fetchValue (holds : t.Holds length slots) (inside : i < length) (held : slots i = .real h (key, value)) :
    t.fetchValue i = some value := by
  have cell := (holds.entry i inside h key value held).2.2.2
  rw [HashTable.fetchValue, Column.fetch, if_pos holds.valueWidth, Cells.read_eq (holds.valueLength ▸ inside), cell]
  rfl

theorem hashIsReal_slotHash (holds : t.Holds length slots) (inside : i < length) :
    hashIsReal (slotHash (slots i)) = (slots i).content.isSome := by
  cases held : slots i with
  | unused => rfl
  | tombstone => rfl
  | real h entry => simpa [slotHash] using (holds.entry i inside h entry.1 entry.2 held).1

theorem valueColumn_put :
    (t.put i h key value).valueColumn = t.valueColumn.put i (if t.isASet then key else value) := by
  unfold valueColumn isASet HashTable.put
  cases t.values <;> rfl

theorem Fits.put {k v : UInt64} (fits : t.Fits k v) : (t.put i h key value).Fits k v := by
  refine ⟨fits.keyStored, fits.valueStored, fun none => fits.shared ?_⟩
  exact Option.map_eq_none_iff.mp none

variable {slot : TableSlot}

/-- A write to the cells of one index is a write to the slot. -/
theorem Holds.put (holds : t.Holds length slots) (code : slotHash slot = h)
    (kept : ∀ h' key' value', slot = .real h' (key', value') →
      hashIsReal h' ∧ t.Fits key' value' ∧ key = key' ∧ value = value') :
    (t.put i h key value).Holds length (Function.update slots i slot) where
  hashLength := holds.hashLength
  keyLength := holds.keyLength
  valueLength := by
    rw [valueColumn_put]
    exact holds.valueLength
  keyWidth := holds.keyWidth
  valueWidth := by
    rw [valueColumn_put]
    exact holds.valueWidth
  hash j inside := by
    by_cases same : j = i
    · subst same
      simp [HashTable.put, code]
    · simpa [HashTable.put, Function.update_of_ne same] using holds.hash j inside
  entry j inside h' key' value' held := by
    rw [valueColumn_put]
    show _ ∧ _ ∧ (t.keys.put i key).cells.cell j = _ ∧ _
    by_cases same : j = i
    · subst same
      rw [Function.update_self] at held
      obtain ⟨real, fits, rfl, rfl⟩ := kept h' key' value' held
      have chosen : (if t.isASet then key else value) = value := by
        split
        · exact (fits.shared (Option.isNone_iff_eq_none.mp ‹_›)).symm
        · rfl
      rw [chosen, Column.put_cell, Column.put_cell, Function.update_self, Function.update_self]
      exact ⟨real, fits.put, rfl, rfl⟩
    · rw [Function.update_of_ne same] at held
      obtain ⟨real, fits, keyCell, valueCell⟩ := holds.entry j inside h' key' value' held
      rw [Column.put_cell, Column.put_cell, Function.update_of_ne same, Function.update_of_ne same]
      exact ⟨real, fits.put, keyCell, valueCell⟩

theorem Holds.putReal (holds : t.Holds length slots) (real : hashIsReal h) (fits : t.Fits key value) :
    (t.put i h key value).Holds length (Function.update slots i (.real h (key, value))) := by
  refine holds.put (show slotHash (.real h (key, value)) = h from rfl) fun h' key' value' same => ?_
  obtain ⟨rfl, rfl, rfl⟩ : h = h' ∧ key = key' ∧ value = value' := by simpa using same
  exact ⟨real, fits, rfl, rfl⟩

/-- Any write that leaves no entry in the slot. -/
theorem Holds.clear (holds : t.Holds length slots) (code : slotHash slot = h) (empty : slot.content = none) :
    (t.put i h key value).Holds length (Function.update slots i slot) := by
  apply holds.put code
  intro h' key' value' real
  rw [real] at empty
  exact absurd empty (Option.some_ne_none _)

/-- The hash of an entry is overwritten; its key and value stay in their cells. -/
theorem Holds.clearHash (holds : t.Holds length slots) (code : slotHash slot = h) (empty : slot.content = none) :
    { t with hashes := { t.hashes with cell := Function.update t.hashes.cell i h } }.Holds length
      (Function.update slots i slot) := by
  refine ⟨⟨holds.hashLength, holds.keyLength, holds.valueLength, holds.keyWidth, holds.valueWidth⟩, fun j inside => ?_,
    fun j inside h' key' value' held => ?_⟩
  · by_cases same : j = i
    · simp [same, code]
    · simpa [Function.update_of_ne same] using holds.hash j inside
  · by_cases same : j = i
    · rw [same, Function.update_self] at held
      rw [held] at empty
      exact absurd empty (Option.some_ne_none _)
    · rw [Function.update_of_ne same] at held
      obtain ⟨real, fits, cells⟩ := holds.entry j inside h' key' value' held
      exact ⟨real, ⟨fits.keyStored, fits.valueStored, fits.shared⟩, cells⟩

theorem Holds.congr (holds : t.Holds length slots) {other : Nat → TableSlot} (same : ∀ i < length, other i = slots i) :
    t.Holds length other := by
  refine ⟨holds.toShaped, fun i inside => ?_, fun i inside h key value held => ?_⟩
  · rw [same i inside]
    exact holds.hash i inside
  · rw [same i inside] at held
    exact holds.entry i inside h key value held

theorem Column.assign_eq {a : Column} {isBig : Bool} (inside : i < a.cells.length) (width : a.big = isBig) (v : UInt64) :
    a.assign i isBig v = some (a.put i (Column.stored isBig v)) := by
  rw [Column.assign, if_pos width, Cells.write_eq inside]
  rfl

theorem Column.evict_eq {a : Column} {isBig : Bool} {r : UInt64} (inside : i < a.cells.length) (width : a.big = isBig)
    (cell : a.cells.cell i = some r) (v : UInt64) : a.evict i isBig v = some (r, a.put i (Column.stored isBig v)) := by
  have fetched : a.fetch i isBig = some r := by
    rw [Column.fetch, if_pos width, Cells.read_eq inside, cell]
    rfl
  simp only [Column.evict, fetched, Column.assign_eq inside width, some_bind]

theorem setHash_eq (shaped : t.Shaped length) (inside : i < length) (h : UInt32) :
    t.setHash i h = some { t with hashes := { t.hashes with cell := Function.update t.hashes.cell i h } } := by
  rw [setHash, Cells.write_eq (shaped.hashLength ▸ inside)]
  rfl

theorem Shaped.setHash (shaped : t.Shaped length) (cell : Nat → UInt32) :
    { t with hashes := { t.hashes with cell := cell } }.Shaped length :=
  ⟨shaped.hashLength, shaped.keyLength, shaped.valueLength, shaped.keyWidth, shaped.valueWidth⟩

theorem put_hashes (t : HashTable) (i : Nat) (h : UInt32) (key value : UInt64) :
    { t with hashes := { t.hashes with cell := Function.update t.hashes.cell i h } }.put i
      (Function.update t.hashes.cell i h i) key value = t.put i h key value := by
  simp [put]

-- the fields are named so that the cases of shared and of separate arrays compute
theorem assignEntry_eq (shaped : t.Shaped length) (inside : i < length) (key value : UInt64) :
    t.assignEntry i key value =
      some (t.put i (t.hashes.cell i)
        (if t.isASet then Column.stored t.haveBigValues value else Column.stored t.haveBigKeys key)
        (Column.stored t.haveBigValues value)) := by
  obtain ⟨_, inKeys, inValues, keyWidth, valueWidth⟩ := shaped
  rcases t with ⟨size, mod, mask, nnodes, noccupied, bigKeys, bigValues, keys, hashes, _ | column, version⟩
  · have first : i < keys.cells.length := inKeys ▸ inside
    have second : i < (keys.put i (Column.stored bigKeys key)).cells.length := first
    simp only [assignEntry, assignKey, assignValue, Column.assign_eq first keyWidth, Option.map_some, Option.bind_eq_bind,
      Option.bind_some, Column.assign_eq second (show (keys.put i _).big = bigValues from valueWidth)]
    simp [put, isASet, Column.put]
  · have first : i < keys.cells.length := inKeys ▸ inside
    have second : i < column.cells.length := inValues ▸ inside
    simp only [assignEntry, assignKey, assignValue, Column.assign_eq first keyWidth, Option.map_some, Option.bind_eq_bind,
      Option.bind_some, Column.assign_eq second valueWidth]
    simp [put, isASet]

theorem assignKeyval_eq (shaped : t.Shaped length) (inside : i < length) (key value : UInt64) :
    t.assignKeyval t.isASet i key value =
      some (t.put i (t.hashes.cell i) (Column.stored t.haveBigKeys key) (Column.stored t.haveBigValues value)) := by
  obtain ⟨_, inKeys, inValues, keyWidth, valueWidth⟩ := shaped
  rcases t with ⟨size, mod, mask, nnodes, noccupied, bigKeys, bigValues, keys, hashes, _ | column, version⟩
  · have first : i < keys.cells.length := inKeys ▸ inside
    simp [assignKeyval, assignKey, Column.assign_eq first keyWidth, put, isASet]
  · have first : i < keys.cells.length := inKeys ▸ inside
    have second : i < column.cells.length := inValues ▸ inside
    simp [assignKeyval, assignKey, assignValue, Column.assign_eq first keyWidth, Column.assign_eq second valueWidth, put, isASet]

theorem evictKeyval_eq (shaped : t.Shaped length) (inside : i < length) {outkey outvalue : UInt64}
    (keyCell : t.keys.cells.cell i = some outkey) (valueCell : t.valueColumn.cells.cell i = some outvalue)
    (key value : UInt64) :
    t.evictKeyval t.isASet i key value =
      some (outkey, if t.isASet then value else outvalue,
        t.put i (t.hashes.cell i) (Column.stored t.haveBigKeys key) (Column.stored t.haveBigValues value)) := by
  obtain ⟨_, inKeys, inValues, keyWidth, valueWidth⟩ := shaped
  rcases t with ⟨size, mod, mask, nnodes, noccupied, bigKeys, bigValues, keys, hashes, _ | column, version⟩
  · have first : i < keys.cells.length := inKeys ▸ inside
    simp [evictKeyval, Column.evict_eq first keyWidth keyCell, put, isASet]
  · have first : i < keys.cells.length := inKeys ▸ inside
    have second : i < column.cells.length := inValues ▸ inside
    simp [evictKeyval, Column.evict_eq first keyWidth keyCell, valueColumn, Column.evict_eq second valueWidth valueCell, put, isASet]

end Writing

section Fitting

variable {t : HashTable} {length : Nat} {slots : Nat → TableSlot} {key value : UInt64}

theorem stored_of_small {v : UInt64} (isBig : Bool) (small : entryIsBig v = false) : Column.stored isBig v = v := by
  cases isBig with
  | true => rfl
  | false =>
    have zero : v >>> 32 = 0 := by simpa [entryIsBig] using small
    have shifted : v.toNat / 2 ^ 32 = 0 := by
      have := congrArg UInt64.toNat zero
      rwa [UInt64.toNat_shiftRight, Nat.shiftRight_eq_div_pow] at this
    have below : v.toNat < 2 ^ 32 := by omega
    apply UInt64.toNat.inj
    simp only [Column.stored, Bool.false_eq_true, if_false]
    rw [UInt32.toNat_toUInt64, UInt64.toNat_toUInt32, Nat.mod_eq_of_lt below]

theorem stored_of_le {isBig wider : Bool} {v : UInt64} (fits : Column.stored isBig v = v) (wide : isBig → wider) :
    Column.stored wider v = v := by
  cases wider with
  | true => rfl
  | false =>
    cases isBig with
    | true => exact absurd (wide rfl) Bool.false_ne_true
    | false => exact fits

theorem Holds.transfer {t' : HashTable} (holds : t.Holds length slots) (shaped : t'.Shaped length)
    (hashes : ∀ i < length, t'.hashes.cell i = t.hashes.cell i)
    (keys : ∀ i < length, t'.keys.cells.cell i = t.keys.cells.cell i)
    (values : ∀ i < length, t'.valueColumn.cells.cell i = t.valueColumn.cells.cell i)
    (wideKeys : t.haveBigKeys → t'.haveBigKeys) (wideValues : t.haveBigValues → t'.haveBigValues)
    (shared : t'.values = none → t.values = none) : t'.Holds length slots := by
  refine ⟨shaped, fun i inside => (hashes i inside).trans (holds.hash i inside), fun i inside h key value held => ?_⟩
  obtain ⟨real, fits, keyCell, valueCell⟩ := holds.entry i inside h key value held
  refine ⟨real, ⟨?_, ?_, fun none => fits.shared (shared none)⟩, ?_, ?_⟩
  · exact stored_of_le fits.keyStored wideKeys
  · exact stored_of_le fits.valueStored wideValues
  · exact (keys i inside).trans keyCell
  · exact (values i inside).trans valueCell

theorem Holds.splitSet (holds : t.Holds t.size slots) (key value : UInt64) :
    (t.splitSet key value).Holds t.size slots := by
  unfold HashTable.splitSet
  split
  · rename_i both
    have none : t.values = none := Option.isNone_iff_eq_none.mp both.1
    have column : t.valueColumn = t.keys := by rw [valueColumn, none, Option.getD_none]
    have width := holds.valueWidth
    rw [column] at width
    have cells : ∀ i < t.size, (t.keys.memdup t.size).cells.cell i = t.keys.cells.cell i := fun i inside =>
      Cells.resize_cell (holds.keyLength.symm ▸ inside) _ _
    refine holds.transfer ⟨holds.hashLength, holds.keyLength, rfl, holds.keyWidth, width⟩ (fun i _ => rfl) (fun i _ => rfl)
      (fun i inside => ?_) id id fun absent => ?_
    · rw [column]
      exact cells i inside
    · exact absurd absent (Option.some_ne_none _)
  · exact holds

theorem Holds.makeKeysBig (holds : t.Holds t.size slots) (key : UInt64) : (t.makeKeysBig key).Holds t.size slots := by
  have cells : ∀ i < t.size, (t.keys.cells.resize t.size none).cell i = t.keys.cells.cell i := fun i inside =>
    Cells.resize_cell (holds.keyLength.symm ▸ inside) _ _
  obtain ⟨⟨hashLength, keyLength, valueLength, keyWidth, valueWidth⟩, _, _⟩ := id holds
  rcases t with ⟨size, mod, mask, nnodes, noccupied, _ | _, bigValues, keys, hashes, _ | column, version⟩
  · unfold HashTable.makeKeysBig maybeMakeBigKeysOrValues
    cases entryIsBig key with
    | true =>
      exact holds.transfer ⟨hashLength, rfl, rfl, rfl, rfl⟩ (fun i _ => rfl) cells cells (fun _ => rfl) (fun _ => rfl) id
    | false =>
      have narrow : bigValues = false := valueWidth.symm.trans keyWidth
      subst narrow
      exact holds
  · unfold HashTable.makeKeysBig maybeMakeBigKeysOrValues
    cases entryIsBig key with
    | true =>
      exact holds.transfer ⟨hashLength, rfl, valueLength, rfl, valueWidth⟩ (fun i _ => rfl) cells (fun i _ => rfl)
        (fun _ => rfl) id id
    | false => exact holds
  · exact holds
  · exact holds

theorem Holds.makeValuesBig (holds : t.Holds t.size slots) (value : UInt64) : (t.makeValuesBig value).Holds t.size slots := by
  obtain ⟨⟨hashLength, keyLength, valueLength, keyWidth, valueWidth⟩, _, _⟩ := id holds
  rcases t with ⟨size, mod, mask, nnodes, noccupied, bigKeys, bigValues, keys, hashes, _ | column, version⟩
  · exact holds
  · cases bigValues with
    | true => exact holds
    | false =>
      unfold HashTable.makeValuesBig maybeMakeBigKeysOrValues
      cases entryIsBig value with
      | false => exact holds
      | true =>
        have cells : ∀ i < size, (column.cells.resize size none).cell i = column.cells.cell i := fun i inside =>
          Cells.resize_cell (valueLength.symm ▸ inside) _ _
        exact holds.transfer ⟨hashLength, keyLength, rfl, keyWidth, rfl⟩ (fun i _ => rfl) (fun i _ => rfl) cells id
          (fun _ => rfl) fun absent => absurd absent (Option.some_ne_none _)

/-- The fields that do not describe the arrays of keys and values. -/
structure SameNodes (t t' : HashTable) : Prop where
  size : t'.size = t.size
  mod : t'.mod = t.mod
  mask : t'.mask = t.mask
  nnodes : t'.nnodes = t.nnodes
  noccupied : t'.noccupied = t.noccupied
  version : t'.version = t.version
  hashes : t'.hashes = t.hashes

theorem splitSet_same (t : HashTable) (key value : UInt64) : t.SameNodes (t.splitSet key value) := by
  unfold HashTable.splitSet
  split <;> exact ⟨rfl, rfl, rfl, rfl, rfl, rfl, rfl⟩

theorem makeKeysBig_same (t : HashTable) (key : UInt64) : t.SameNodes (t.makeKeysBig key) := by
  rcases t with ⟨size, mod, mask, nnodes, noccupied, _ | _, bigValues, keys, hashes, _ | column, version⟩ <;>
    exact ⟨rfl, rfl, rfl, rfl, rfl, rfl, rfl⟩

theorem makeValuesBig_same (t : HashTable) (value : UInt64) : t.SameNodes (t.makeValuesBig value) := by
  rcases t with ⟨size, mod, mask, nnodes, noccupied, bigKeys, _ | _, keys, hashes, _ | column, version⟩ <;>
    exact ⟨rfl, rfl, rfl, rfl, rfl, rfl, rfl⟩

theorem SameNodes.trans {t' t'' : HashTable} (first : t.SameNodes t') (second : t'.SameNodes t'') : t.SameNodes t'' :=
  ⟨second.size.trans first.size, second.mod.trans first.mod, second.mask.trans first.mask,
    second.nnodes.trans first.nnodes, second.noccupied.trans first.noccupied,
    second.version.trans first.version, second.hashes.trans first.hashes⟩

theorem ensureKeyvalFits_same (t : HashTable) (key value : UInt64) : t.SameNodes (t.ensureKeyvalFits key value) := by
  unfold ensureKeyvalFits
  split
  · exact splitSet_same t key value
  · exact ((splitSet_same t key value).trans (makeKeysBig_same _ key)).trans (makeValuesBig_same _ value)

theorem Holds.ensureKeyvalFits (holds : t.Holds t.size slots) (key value : UInt64) :
    (t.ensureKeyvalFits key value).Holds t.size slots := by
  have split := holds.splitSet key value
  unfold HashTable.ensureKeyvalFits
  by_cases bigSet : t.isASet ∧ t.haveBigKeys
  · rw [if_pos bigSet]
    exact split
  · rw [if_neg bigSet]
    have sizes : (t.splitSet key value).size = t.size := (splitSet_same t key value).size
    rw [← sizes] at split ⊢
    have keysBig := split.makeKeysBig key
    rw [← (makeKeysBig_same (t.splitSet key value) key).size] at keysBig ⊢
    exact keysBig.makeValuesBig value

attribute [local simp] HashTable.ensureKeyvalFits HashTable.splitSet HashTable.makeKeysBig HashTable.makeValuesBig
  maybeMakeBigKeysOrValues isASet

/-- How wide the arrays are after the call. -/
theorem ensureKeyvalFits_big (shaped : t.Shaped length) (key value : UInt64) :
    (t.ensureKeyvalFits key value).haveBigKeys = (t.haveBigKeys || entryIsBig key) ∧
      (t.ensureKeyvalFits key value).haveBigValues = (t.haveBigValues || entryIsBig value) := by
  obtain ⟨_, _, _, keyWidth, valueWidth⟩ := shaped
  rcases t with ⟨size, mod, mask, nnodes, noccupied, bigKeys, bigValues, keys, hashes, _ | column, version⟩
  · have widths : bigKeys = bigValues := keyWidth.symm.trans valueWidth
    subst widths
    by_cases same : key = value
    · subst same
      cases bigKeys <;> cases big : entryIsBig key <;> simp [big]
    · cases bigKeys <;> cases big : entryIsBig key <;> cases bigV : entryIsBig value <;> simp [big, bigV, same]
  · cases bigKeys <;> cases bigValues <;> cases big : entryIsBig key <;> cases bigV : entryIsBig value <;> simp [big, bigV]

theorem ensureKeyvalFits_shared (t : HashTable) {key value : UInt64} (none : (t.ensureKeyvalFits key value).values = none) :
    value = key := by
  by_contra other
  have differ : key ≠ value := fun same => other same.symm
  rcases t with ⟨size, mod, mask, nnodes, noccupied, bigKeys, bigValues, keys, hashes, _ | column, version⟩
  · cases bigKeys <;> cases bigValues <;> cases entryIsBig key <;> cases entryIsBig value <;> simp_all
  · cases bigKeys <;> cases bigValues <;> cases entryIsBig key <;> cases entryIsBig value <;> simp_all

theorem ensureKeyvalFits_fits (shaped : t.Shaped length) (key value : UInt64) :
    (t.ensureKeyvalFits key value).Fits key value := by
  obtain ⟨keys, values⟩ := ensureKeyvalFits_big shaped key value
  refine ⟨?_, ?_, ensureKeyvalFits_shared t⟩
  · rw [keys]
    cases big : entryIsBig key with
    | true => simp [Column.stored]
    | false => exact stored_of_small _ big
  · rw [values]
    cases big : entryIsBig value with
    | true => simp [Column.stored]
    | false => exact stored_of_small _ big

/-- The hashes play no part in the call. -/
theorem ensureKeyvalFits_hashes (t : HashTable) (hashes : Cells UInt32) (key value : UInt64) :
    { t with hashes := hashes }.ensureKeyvalFits key value = { t.ensureKeyvalFits key value with hashes := hashes } := by
  rcases t with ⟨size, mod, mask, nnodes, noccupied, bigKeys, bigValues, keys, hashes, _ | column, version⟩
  · cases bigKeys <;> cases bigValues <;> cases big : entryIsBig key <;> cases bigV : entryIsBig value <;>
      by_cases same : key = value <;> simp [big, bigV, same]
  · cases bigKeys <;> cases bigValues <;> cases big : entryIsBig key <;> cases bigV : entryIsBig value <;> simp [big, bigV]

end Fitting

section Reallocation

variable {t : HashTable} {length : Nat} {slots : Nat → TableSlot}

/-- The bytes of arrays of `size` cells can be counted in an `xuint_t`. -/
def Allocatable (t : HashTable) (size : Nat) : Prop :=
  size * Column.entrySize t.haveBigKeys < 2 ^ 32 ∧ size * Column.entrySize t.haveBigValues < 2 ^ 32

theorem Column.realloc_eq {a : Column} {isBig : Bool} {size : Nat} (width : a.big = isBig)
    (room : size * Column.entrySize isBig < 2 ^ 32) :
    a.realloc size isBig = some { a with cells := a.cells.resize size none } := by
  have positive : 0 < Column.entrySize isBig := by cases isBig <;> decide
  rw [Column.realloc, if_pos width, Nat.mod_eq_of_lt room, Nat.mul_div_cancel _ positive]

theorem Holds.reallocArrays (holds : t.Holds length slots) (room : t.Allocatable t.size) :
    ∃ keys hashes values, t.reallocArrays t.isASet = some { t with keys := keys, hashes := hashes, values := values } ∧
      { t with keys := keys, hashes := hashes, values := values }.Holds t.size (fun i => if i < length then slots i else .unused) ∧
      values.isNone = t.isASet := by
  obtain ⟨⟨hashLength, keyLength, valueLength, keyWidth, valueWidth⟩, hash, entry⟩ := holds
  have hashCells : ∀ i, (t.hashes.resize t.size unusedHashValue).cell i = slotHash (if i < length then slots i else .unused) := by
    intro i
    by_cases inside : i < length
    · rw [if_pos inside, Cells.resize_cell (hashLength ▸ inside), hash i inside]
    · rw [if_neg inside]
      exact if_neg (hashLength ▸ inside)
  have old : ∀ i h pair, (if i < length then slots i else .unused) = Slot.real h pair → i < length ∧ slots i = .real h pair := by
    intro i h pair held
    by_cases inside : i < length
    · rw [if_pos inside] at held
      exact ⟨inside, held⟩
    · rw [if_neg inside] at held
      exact nomatch held
  rcases t with ⟨size, mod, mask, nnodes, noccupied, bigKeys, bigValues, keys, hashes, _ | column, version⟩
  · refine ⟨{ keys with cells := keys.cells.resize size none }, hashes.resize size unusedHashValue, none, ?_, ?_, rfl⟩
    · simp [HashTable.reallocArrays, Column.realloc_eq keyWidth room.1, isASet]
    · refine ⟨⟨rfl, rfl, rfl, keyWidth, valueWidth⟩, fun i _ => hashCells i, fun i _ h key value held => ?_⟩
      obtain ⟨inside, held⟩ := old i h (key, value) held
      obtain ⟨real, fits, keyCell, valueCell⟩ := entry i inside h key value held
      have cell := Cells.resize_cell (keyLength.symm ▸ inside) size none
      exact ⟨real, ⟨fits.keyStored, fits.valueStored, fits.shared⟩, cell.trans keyCell, cell.trans valueCell⟩
  · refine ⟨{ keys with cells := keys.cells.resize size none }, hashes.resize size unusedHashValue,
      some { column with cells := column.cells.resize size none }, ?_, ?_, rfl⟩
    · have second := Column.realloc_eq valueWidth room.2
      simp only [valueColumn, Option.getD_some] at second
      simp [HashTable.reallocArrays, Column.realloc_eq keyWidth room.1, isASet, valueColumn, second]
    · refine ⟨⟨rfl, rfl, rfl, keyWidth, valueWidth⟩, fun i _ => hashCells i, fun i _ h key value held => ?_⟩
      obtain ⟨inside, held⟩ := old i h (key, value) held
      obtain ⟨real, fits, keyCell, valueCell⟩ := entry i inside h key value held
      have first := Cells.resize_cell (keyLength.symm ▸ inside) size none
      have second := Cells.resize_cell (valueLength.symm ▸ inside) size none
      refine ⟨real, ⟨fits.keyStored, fits.valueStored, fun absent => ?_⟩, first.trans keyCell, second.trans valueCell⟩
      exact absurd absent (Option.some_ne_none _)

end Reallocation

/-! The searches of a hash table follow the probe sequence of the hash, and end. -/

/-- A table of `2 ^ n` slots. -/
structure Geometric (t : HashTable) (n : Nat) : Prop where
  small : n ≤ 29
  size : t.size = 2 ^ n
  mask : t.mask = 2 ^ n - 1
  modPositive : 0 < t.mod
  modLe : t.mod ≤ 2 ^ n

section Geometry

variable {t : HashTable} {n : Nat}

theorem primeMod_bounds : ∀ n < 31, ∃ mod, primeMod[n]? = some mod ∧ 0 < mod ∧ mod ≤ 2 ^ n := by
  decide

/-- The assertion stops the program at a shift of 31, and there is no prime for a larger one. -/
theorem setShift_eq (t : HashTable) {shift : Nat} (small : shift ≤ 30) :
    ∃ mod, t.setShift shift = some { t with size := 2 ^ shift, mod := mod, mask := 2 ^ shift - 1 } ∧
      0 < mod ∧ mod ≤ 2 ^ shift := by
  obtain ⟨mod, prime, positive, below⟩ := primeMod_bounds shift (Nat.lt_succ_of_le small)
  refine ⟨mod, ?_, positive, below⟩
  have zero : 2 ^ shift &&& (2 ^ shift - 1) = 0 := by
    rw [Nat.and_two_pow_sub_one_eq_mod, Nat.mod_self]
  have word : (2 ^ shift - 1) % 2 ^ 32 = 2 ^ shift - 1 := by
    apply Nat.mod_eq_of_lt
    have := Nat.pow_le_pow_right Nat.two_pos small
    omega
  simp only [setShift, if_pos (Nat.lt_succ_of_le small), prime, some_bind, zero, if_true, word]

theorem setShift_some {t' : HashTable} {shift : Nat} (result : t.setShift shift = some t') : shift ≤ 30 := by
  by_contra large
  simp only [setShift, if_neg (show ¬shift < 31 by omega), Option.bind_eq_bind] at result
  obtain ⟨mod, prime, rest⟩ := Option.bind_eq_some_iff.mp result
  have asserted : ¬(2 ^ 64 - 2 ^ 31 &&& (2 ^ 64 - 2 ^ 31 - 1) = 0) := by decide
  exact absurd rest (Option.some_ne_none _).symm

theorem Geometric.home_lt (geometric : t.Geometric n) (h : UInt32) : t.hashToIndex h < 2 ^ n :=
  Nat.lt_of_lt_of_le (Nat.mod_lt _ geometric.modPositive) geometric.modLe

/-- The arithmetic of `xuint_t` does not disturb the sequence. -/
theorem Geometric.nextIndex (geometric : t.Geometric n) (start k : Nat) :
    t.nextIndex (probeSlot (2 ^ n) start k) (k + 1) = probeSlot (2 ^ n) start (k + 1) := by
  have divides : 2 ^ n ∣ 2 ^ 32 := Nat.pow_dvd_pow 2 (Nat.le_trans geometric.small (by decide))
  rw [HashTable.nextIndex, geometric.mask, Nat.and_two_pow_sub_one_eq_mod, Nat.mod_mod_of_dvd _ divides, probeSlot_succ]

end Geometry

section Searching

variable {t : HashTable} {n : Nat} {slots : Nat → TableSlot}

/-- The bits that are set are those of the settled slots. -/
structure Marks (bitmap : Cells Bool) (length : Nat) (settled : Finset Nat) : Prop where
  length : length ≤ bitmap.length
  bit : ∀ i, bitmap.cell i = true ↔ i ∈ settled

theorem seekBucket_eq {bitmap : Cells Bool} {length : Nat} {settled : Finset Nat} {start k : Nat}
    (geometric : t.Geometric n) (marks : Marks bitmap length settled) (enough : 2 ^ n ≤ length)
    (free : probeSlot (2 ^ n) start k ∉ settled) (before : ∀ j < k, probeSlot (2 ^ n) start j ∈ settled) :
    ∀ fuel j, j ≤ k → k < j + fuel →
      t.seekBucket bitmap fuel j (probeSlot (2 ^ n) start j) = some (probeSlot (2 ^ n) start k) := by
  intro fuel
  induction fuel with
  | zero =>
    intro j _ _
    omega
  | succ fuel ih =>
    intro j within turns
    have inside : probeSlot (2 ^ n) start j < bitmap.length :=
      Nat.lt_of_lt_of_le (probeSlot_lt (Nat.pow_pos Nat.two_pos) start j) (Nat.le_trans enough marks.length)
    simp only [seekBucket, Cells.read_eq inside, some_bind]
    by_cases last : j = k
    · subst last
      rw [if_neg (fun set => free ((marks.bit _).mp set))]
    · rw [if_pos ((marks.bit _).mpr (before j (by omega))), geometric.nextIndex]
      exact ih (j + 1) (by omega) (by omega)

theorem hashIsReal_realHash (funcs : TableFuncs) (key : UInt64) : hashIsReal (realHash funcs key) = true := by
  unfold realHash
  split
  · assumption
  · rfl

theorem not_real_zero : hashIsReal unusedHashValue = false := rfl

theorem not_real_one : hashIsReal tombstoneHashValue = false := rfl

/-- What a search for the key finds in the slot `i`: an equal key, or a place for the key, which then
is nowhere where a search could come upon it. -/
def Looked (t : HashTable) (funcs : TableFuncs) (slots : Nat → TableSlot) (key : UInt64) (i : Nat) : Prop :=
  (∃ nodeKey value, slots i = .real (realHash funcs key) (nodeKey, value) ∧ funcs.equal nodeKey key) ∨
    ((slots i).content = none ∧ Reaches t.size slots (t.hashToIndex (realHash funcs key)) i ∧
      ∀ j nodeKey value, slots j = .real (realHash funcs key) (nodeKey, value) →
        Reaches t.size slots (t.hashToIndex (realHash funcs key)) j → funcs.equal nodeKey key = false)

/-- The tombstone that the search has noted in its first `j` turns. -/
def Noted (slots : Nat → TableSlot) (size start j : Nat) : Option Nat → Prop
  | none => True
  | some i => slots i = .tombstone ∧ ∃ l < j, probeSlot size start l = i

theorem lookupLoop_spec (funcs : TableFuncs) (key : UInt64) (geometric : t.Geometric n) (holds : t.Holds t.size slots)
    {last : Nat} (unused : slots (probeSlot t.size (t.hashToIndex (realHash funcs key)) last) = .unused)
    (full : ∀ j < last, (slots (probeSlot t.size (t.hashToIndex (realHash funcs key)) j)).occupied) :
    ∀ fuel j tombstone, j ≤ last → last < j + fuel →
      Noted slots t.size (t.hashToIndex (realHash funcs key)) j tombstone →
      (∀ l < j, ∀ nodeKey value, slots (probeSlot t.size (t.hashToIndex (realHash funcs key)) l) =
        .real (realHash funcs key) (nodeKey, value) → funcs.equal nodeKey key = false) →
      ∃ i < t.size, t.lookupLoop funcs key (realHash funcs key) fuel j
        (probeSlot t.size (t.hashToIndex (realHash funcs key)) j) tombstone = some i ∧ t.Looked funcs slots key i := by
  have real := hashIsReal_realHash funcs key
  generalize hv : realHash funcs key = hashValue at *
  generalize hs : t.hashToIndex hashValue = start at *
  have positive : 0 < t.size := geometric.size ▸ Nat.pow_pos Nat.two_pos
  -- on the turns that are left; `Noted` carries the first tombstone, `missed` that no slot so far was a match
  intro fuel
  induction fuel with
  | zero =>
    intro j _ _ _
    omega
  | succ fuel ih =>
    intro j tombstone within turns noted missed
    have inside := probeSlot_lt positive start j
    have next : t.nextIndex (probeSlot t.size start j) (j + 1) = probeSlot t.size start (j + 1) := by
      rw [geometric.size]
      exact geometric.nextIndex start j
    -- the turn passes over the slot
    have onward : ∀ tombstone, (slots (probeSlot t.size start j)).occupied →
        Noted slots t.size start (j + 1) tombstone →
        (∀ nodeKey value, slots (probeSlot t.size start j) = .real hashValue (nodeKey, value) → funcs.equal nodeKey key = false) →
        ∃ i < t.size, t.lookupLoop funcs key hashValue fuel (j + 1) (probeSlot t.size start (j + 1)) tombstone = some i ∧
          t.Looked funcs slots key i := by
      intro tombstone occupied noted passed
      have before : j ≠ last := by
        rintro rfl
        rw [unused] at occupied
        exact absurd occupied Bool.false_ne_true
      refine ih (j + 1) tombstone (by omega) (by omega) noted fun l less => ?_
      rcases Nat.lt_succ_iff_lt_or_eq.mp less with earlier | rfl
      · exact missed l earlier
      · exact passed
    have later : ∀ {tombstone}, Noted slots t.size start j tombstone → Noted slots t.size start (j + 1) tombstone := by
      intro tombstone noted
      cases tombstone with
      | none => trivial
      | some i =>
        obtain ⟨grave, l, less, same⟩ := noted
        exact ⟨grave, l, Nat.lt_succ_of_lt less, same⟩
    simp only [lookupLoop, holds.read inside, Option.bind_eq_bind, Option.bind_some, next]
    cases slot : slots (probeSlot t.size start j) with
    | unused =>
      have final : j = last := by
        by_contra other
        have := full j (by omega)
        rw [slot] at this
        exact absurd this Bool.false_ne_true
      subst final
      -- behind an unused slot there is no match: an entry would be reached without it
      have nowhere : ∀ i nodeKey value, slots i = .real hashValue (nodeKey, value) → Reaches t.size slots start i →
          funcs.equal nodeKey key = false := by
        intro i nodeKey value held reaches
        obtain ⟨k, rfl, before⟩ := reaches
        apply missed k ?_ nodeKey value held
        by_contra late
        rcases Nat.lt_or_ge j k with beyond | equal
        · have := before j beyond
          rw [slot] at this
          exact absurd this Bool.false_ne_true
        · rw [show k = j by omega, slot] at held
          exact nomatch held
      cases tombstone with
      | none =>
        refine ⟨_, inside, rfl, Or.inr ⟨?_, ?_, ?_⟩⟩
        · rw [slot]
          rfl
        · rw [hv, hs]
          exact ⟨j, rfl, full⟩
        · rw [hv, hs]
          exact nowhere
      | some i =>
        obtain ⟨grave, l, less, rfl⟩ := noted
        refine ⟨_, probeSlot_lt positive start l, rfl, Or.inr ⟨?_, ?_, ?_⟩⟩
        · rw [grave]
          rfl
        · rw [hv, hs]
          exact ⟨l, rfl, fun k before => full k (Nat.lt_trans before less)⟩
        · rw [hv, hs]
          exact nowhere
    | tombstone =>
      have differ : tombstoneHashValue ≠ hashValue := by
        rintro rfl
        exact absurd real Bool.false_ne_true
      have passed : ∀ nodeKey value, slots (probeSlot t.size start j) = .real hashValue (nodeKey, value) →
          funcs.equal nodeKey key = false := by
        intro nodeKey value held
        rw [slot] at held
        exact nomatch held
      have occupied : (slots (probeSlot t.size start j)).occupied := by
        rw [slot]
        rfl
      simp only [slotHash, if_neg differ, show hashIsUnused tombstoneHashValue = false from rfl, Bool.false_eq_true, if_false,
        show hashIsTombstone tombstoneHashValue = true from rfl, true_and]
      cases tombstone with
      | none =>
        exact onward _ occupied ⟨slot, j, Nat.lt_succ_self j, rfl⟩ passed
      | some i =>
        exact onward _ occupied (later noted) passed
    | real h entry =>
      obtain ⟨nodeKey, value⟩ := entry
      have isReal := (holds.entry _ inside h nodeKey value slot).1
      have used : hashIsUnused h = false := by
        unfold hashIsUnused
        by_contra zero
        rw [Bool.not_eq_false, beq_iff_eq] at zero
        rw [zero] at isReal
        exact absurd isReal Bool.false_ne_true
      have lives : hashIsTombstone h = false := by
        unfold hashIsTombstone
        by_contra one
        rw [Bool.not_eq_false, beq_iff_eq] at one
        rw [one] at isReal
        exact absurd isReal Bool.false_ne_true
      have occupied : (slots (probeSlot t.size start j)).occupied := by
        rw [slot]
        rfl
      simp only [slotHash, used, lives, Bool.false_eq_true, if_false, false_and, holds.fetchKey inside slot, Option.bind_some]
      -- the keys are compared only where the stored hashes agree
      by_cases same : h = hashValue
      · subst same
        rw [if_pos rfl]
        cases equal : funcs.equal nodeKey key with
        | true =>
          refine ⟨_, inside, rfl, Or.inl ⟨nodeKey, value, ?_, equal⟩⟩
          rw [hv]
          exact slot
        | false =>
          refine onward _ occupied (later noted) fun nodeKey' value' held => ?_
          obtain ⟨rfl, rfl⟩ : nodeKey = nodeKey' ∧ value = value' := by simpa using slot.symm.trans held
          exact equal
      · rw [if_neg same]
        refine onward _ occupied (later noted) fun nodeKey' value' held => ?_
        obtain ⟨rfl, _⟩ := Slot.real.inj (slot.symm.trans held)
        exact absurd rfl same

/-- The search looks at every slot, so that it ends in a table with an unused one. -/
theorem lookupNode_spec (funcs : TableFuncs) (key : UInt64) (geometric : t.Geometric n) (holds : t.Holds t.size slots)
    (room : ∃ i < t.size, slots i = .unused) :
    ∃ i < t.size, t.lookupNode funcs key = some (i, realHash funcs key) ∧ t.Looked funcs slots key i := by
  have start := geometric.home_lt (realHash funcs key)
  rw [← geometric.size] at start
  have found : ∃ k, k < t.size ∧ slots (probeSlot t.size (t.hashToIndex (realHash funcs key)) k) = .unused := by
    obtain ⟨i, inside, unused⟩ := room
    rw [geometric.size] at inside ⊢
    obtain ⟨k, below, rfl⟩ := probeSlot_surjective (t.hashToIndex (realHash funcs key)) inside
    exact ⟨k, below, unused⟩
  classical
  obtain ⟨below, unused⟩ := Nat.find_spec found
  have full : ∀ j < Nat.find found, (slots (probeSlot t.size (t.hashToIndex (realHash funcs key)) j)).occupied := by
    intro j less
    cases slot : slots (probeSlot t.size (t.hashToIndex (realHash funcs key)) j) with
    | unused => exact absurd ⟨Nat.lt_trans less below, slot⟩ (Nat.find_min found less)
    | tombstone => rfl
    | real h entry => rfl
  obtain ⟨i, inside, result, looked⟩ := lookupLoop_spec funcs key geometric holds unused full t.size 0 none (Nat.zero_le _)
    (by omega) trivial (fun l less => absurd less (Nat.not_lt_zero l))
  rw [probeSlot_zero start] at result
  exact ⟨i, inside, by rw [lookupNode, result]; rfl, looked⟩

end Searching

end HashTable

end Xpl.Collections
