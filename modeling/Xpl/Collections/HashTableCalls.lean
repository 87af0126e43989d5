import Xpl.Collections.HashTableIteration

/-! The end of the growth of a hash table.

The number of bytes of an array of `2 ^ 29` pointers, or of `2 ^ 30` integers, is 0 in an
`xuint_t`; the resize then finds its first entry outside of the array.
-/

set_option autoImplicit false

namespace Xpl.Collections
open Xpl.Library

namespace HashTable

variable {t : HashTable} {n : Nat} {slots : Nat → TableSlot}

theorem Column.evict_none {a : Column} (empty : a.cells.length = 0) (i : Nat) (isBig : Bool) (v : UInt64) :
    a.evict i isBig v = none := by
  have read : a.cells.read i = none := if_neg (by omega)
  have fetch : a.fetch i isBig = none := by
    unfold Column.fetch
    split
    · rw [read]
      rfl
    · rfl
  rw [Column.evict, fetch]
  rfl

/-- An array that an entry would have to be taken from has no cells. -/
def Blocked (t : HashTable) (isASet : Bool) : Prop :=
  t.keys.cells.length = 0 ∨ (isASet = false ∧ t.values ≠ none ∧ t.valueColumn.cells.length = 0)

theorem evictKeyval_blocked {isASet : Bool} (blocked : t.Blocked isASet) (i : Nat) (key value : UInt64) :
    t.evictKeyval isASet i key value = none := by
  rcases blocked with empty | ⟨rfl, map, empty⟩
  · rw [evictKeyval, Column.evict_none empty]
    rfl
  · cases evicted : t.keys.evict i t.haveBigKeys key with
    | none => simp [evictKeyval, evicted]
    | some pair =>
      have same : { t with keys := pair.2 }.valueColumn = t.valueColumn := by
        unfold valueColumn
        cases values : t.values with
        | none => exact absurd values map
        | some column => rfl
      simp [evictKeyval, evicted, same, Column.evict_none empty]

/-- The loop comes to its first entry and cannot take it out. -/
theorem resizeSlots_blocked (bitmap : Cells Bool) {isASet : Bool} {oldSize first : Nat} (blocked : t.Blocked isASet)
    (below : first < oldSize) (room : oldSize ≤ t.hashes.length) (clear : ∀ i, bitmap.cell i = false)
    (real : hashIsReal (t.hashes.cell first)) (before : ∀ i < first, hashIsReal (t.hashes.cell i) = false) :
    t.resizeSlots isASet oldSize bitmap = none := by
  have run : ∀ m ≤ first, ∃ hashes : Cells UInt32, hashes.length = t.hashes.length ∧
      (∀ i, m ≤ i → hashes.cell i = t.hashes.cell i) ∧
      (List.range m).foldlM (resizeTurn isASet) (t, bitmap) = some ({ t with hashes := hashes }, bitmap) := by
    intro m
    -- up to the first real slot the turns write nothing but unused hashes
    induction m with
    | zero => exact fun _ => ⟨t.hashes, rfl, fun _ _ => rfl, rfl⟩
    | succ m ih =>
      intro within
      obtain ⟨hashes, length, rest, ran⟩ := ih (Nat.le_of_succ_le within)
      have inside : m < hashes.length := by omega
      refine ⟨{ hashes with cell := Function.update hashes.cell m unusedHashValue }, length, fun i above => ?_, ?_⟩
      · have other : i ≠ m := by omega
        exact (Function.update_of_ne other _ _).trans (rest i (by omega))
      · have unreal := before m within
        rw [← rest m (Nat.le_refl m)] at unreal
        rw [List.range_succ, List.foldlM_append, ran]
        simp [resizeTurn, Cells.read_eq inside, unreal, setHash, Cells.write_eq inside]
  obtain ⟨hashes, length, rest, ran⟩ := run first (Nat.le_refl _)
  have inside : first < hashes.length := by omega
  have stuck : resizeTurn isASet ({ t with hashes := hashes }, bitmap) first = none := by
    have there := real
    rw [← rest first (Nat.le_refl _)] at there
    have none : ∀ cells, { t with hashes := cells }.evictKeyval isASet first 0 0 = none := fun cells =>
      evictKeyval_blocked (show { t with hashes := cells }.Blocked isASet from blocked) first 0 0
    cases read : bitmap.read first with
    | none => simp [resizeTurn, Cells.read_eq inside, there, read]
    | some bit =>
      have off : bit = false := by
        unfold Cells.read at read
        split at read
        · rw [← Option.some.inj read, clear]
        · cases read
      simp [resizeTurn, Cells.read_eq inside, there, read, off, setHash, Cells.write_eq inside, none]
  have after : ∀ m, first < m → (List.range m).foldlM (resizeTurn isASet) (t, bitmap) = none := by
    intro m later
    induction m, later using Nat.le_induction with
    | base =>
      rw [List.range_succ, List.foldlM_append, ran]
      simp [stuck]
    | succ m _ ih =>
      rw [List.range_succ, List.foldlM_append, ih]
      rfl
  exact after oldSize below

/-- Powers of two that do not fit wrap to 0. -/
theorem Column.realloc_wraps {a b : Column} {isBig : Bool} {s : Nat} (large : 2 ^ 32 ≤ 2 ^ s * Column.entrySize isBig)
    (result : a.realloc (2 ^ s) isBig = some b) : b.cells.length = 0 := by
  have exponent : ∃ k, 2 ^ s * Column.entrySize isBig = 2 ^ k := by
    cases isBig with
    | true => exact ⟨s + 3, (Nat.pow_add 2 s 3).symm⟩
    | false => exact ⟨s + 2, (Nat.pow_add 2 s 2).symm⟩
  obtain ⟨k, power⟩ := exponent
  rw [power] at large
  have zero : 2 ^ s * Column.entrySize isBig % 2 ^ 32 = 0 := by
    rw [power]
    exact Nat.mod_eq_zero_of_dvd (Nat.pow_dvd_pow 2 ((Nat.pow_le_pow_iff_right (by decide)).mp large))
  unfold Column.realloc at result
  split at result
  · rw [← Option.some.inj result]
    show 2 ^ s * Column.entrySize isBig % 2 ^ 32 / Column.entrySize isBig = 0
    rw [zero, Nat.zero_div]
  · exact nomatch result

theorem reallocArrays_blocked {t' : HashTable} {s length : Nat} (shaped : t.Shaped length) (size : t.size = 2 ^ s)
    (short : ¬t.Allocatable (2 ^ s)) (result : t.reallocArrays t.isASet = some t') :
    t'.Blocked t.isASet ∧ t'.hashes = t.hashes.resize (2 ^ s) unusedHashValue := by
  have widths : t.values = none → t.haveBigKeys = t.haveBigValues := by
    intro none
    have column : t.valueColumn = t.keys := by rw [valueColumn, none, Option.getD_none]
    rw [← shaped.keyWidth, ← shaped.valueWidth, column]
  simp only [reallocArrays, Option.bind_eq_bind, Option.bind_eq_some_iff] at result
  obtain ⟨keys, keyResult, rest⟩ := result
  rw [size] at keyResult rest
  by_cases keysFit : 2 ^ s * Column.entrySize t.haveBigKeys < 2 ^ 32
  · have valuesWide : 2 ^ 32 ≤ 2 ^ s * Column.entrySize t.haveBigValues :=
      Nat.le_of_not_lt fun fit => short ⟨keysFit, fit⟩
    have map : t.isASet = false := by
      cases values : t.values with
      | none =>
        rw [← widths values] at valuesWide
        omega
      | some column => rw [isASet, values, Option.isNone_some]
    rw [map, if_neg Bool.false_ne_true, Option.bind_eq_some_iff] at rest
    obtain ⟨values, valueResult, same⟩ := rest
    rw [map, ← Option.some.inj same]
    exact ⟨Or.inr ⟨rfl, Option.some_ne_none _, Column.realloc_wraps valuesWide valueResult⟩, rfl⟩
  · have empty := Column.realloc_wraps (Nat.le_of_not_lt keysFit) keyResult
    cases set : t.isASet with
    | true =>
      rw [set, if_pos rfl] at rest
      rw [← Option.some.inj rest]
      exact ⟨Or.inl empty, rfl⟩
    | false =>
      rw [set, if_neg Bool.false_ne_true, Option.bind_eq_some_iff] at rest
      obtain ⟨values, _, same⟩ := rest
      rw [← Option.some.inj same]
      exact ⟨Or.inl empty, rfl⟩

/-- A growth that asks for too much ends outside of the arrays. -/
theorem resize_none (counted : t.Counted n slots) (positive : 0 < t.nnodes) (grows : t.size < 2 ^ nextShift t.nnodes)
    (short : ¬(nextShift t.nnodes ≤ 29 ∧ t.Allocatable (2 ^ nextShift t.nnodes))) : t.resize = none := by
  cases result : t.resize with
  | none => rfl
  | some t' =>
    exfalso
    simp only [resize, Option.bind_eq_bind, Option.bind_eq_some_iff] at result
    obtain ⟨t₁, shifted, t₂, grown, ⟨t₃, bitmap⟩, ran, _⟩ := result
    change t.setShift (nextShift t.nnodes) = some t₁ at shifted
    have small := setShift_some shifted
    obtain ⟨mod, shifted', _⟩ := setShift_eq t small
    have numbers : t₁ = { t with size := 2 ^ nextShift t.nnodes, mod := mod, mask := 2 ^ nextShift t.nnodes - 1 } :=
      Option.some.inj (shifted.symm.trans shifted')
    obtain ⟨s, shift⟩ : ∃ s, nextShift t.nnodes = s := ⟨_, rfl⟩
    rw [shift] at small grows short numbers
    have wide : ¬t₁.Allocatable (2 ^ s) := by
      intro fits
      rcases Nat.lt_or_ge s 30 with fine | top
      · refine short ⟨Nat.le_of_lt_succ fine, ?_⟩
        rw [numbers] at fits
        exact fits
      · have thirty : s = 30 := by omega
        have least : 4 ≤ Column.entrySize t₁.haveBigKeys := by
          unfold Column.entrySize
          split <;> decide
        have := fits.1
        have := Nat.mul_le_mul_left (2 ^ s) least
        rw [thirty] at *
        omega
    have size : t₁.size = 2 ^ s := by rw [numbers]
    have shaped : t₁.Shaped t.size := by
      rw [numbers]
      exact (counted.holds.recount _ _ _ _ _ _).toShaped
    have set : t₁.isASet = t.isASet := by rw [numbers]; rfl
    rw [size, decide_eq_true grows] at grown
    rw [← set] at grown ran
    obtain ⟨blocked, hashes⟩ := reallocArrays_blocked shaped size wide grown
    have cells : ∀ i < t.size, t₂.hashes.cell i = slotHash (slots i) := by
      intro i inside
      have oldHashes : t₁.hashes = t.hashes := by rw [numbers]
      have length : i < t.hashes.length := counted.holds.hashLength.symm ▸ inside
      rw [hashes, oldHashes, Cells.resize_cell length, counted.holds.hash i inside]
    have exists_real : ∃ i, i < t.size ∧ hashIsReal (t₂.hashes.cell i) := by
      rw [counted.nodes] at positive
      obtain ⟨⟨h, entry⟩, member⟩ := List.exists_mem_of_length_pos positive
      obtain ⟨i, inside, held⟩ := mem_entriesBelow.mp member
      refine ⟨i, inside, ?_⟩
      rw [cells i inside, hashIsReal_slotHash counted.holds inside, held]
      rfl
    obtain ⟨below, real⟩ := Nat.find_spec exists_real
    have room : t.size ≤ t₂.hashes.length := by
      rw [hashes]
      exact Nat.le_of_lt grows
    have stuck := resizeSlots_blocked (Cells.filled ((max t₂.size t.size + 31) / 32 * 32) false) blocked below room
      (fun _ => rfl) real (fun i less => by
      have := Nat.find_min exists_real less
      rw [not_and] at this
      simpa using this (Nat.lt_trans less below))
    exact nomatch stuck.symm.trans ran

theorem room_of_maybeResize {t' : HashTable} (counted : t.Counted n slots) (positive : 0 < t.nnodes)
    (result : t.maybeResize = some t') : t.Room := by
  intro wants grows
  by_contra short
  rw [maybeResize, if_pos wants, resize_none counted positive grows short] at result
  exact nomatch result

end HashTable

/-! Runs of calls on a hash table: in every table that a run reaches, the searches end. -/

/-- The calls that treat the table as a map. An iteration leaves every entry as it is. -/
inductive MapCall where
  | insert (key value : UInt64)
  | replace (key value : UInt64)
  | add (key : UInt64)
  | remove (key : UInt64)
  | steal (key : UInt64)
  | removeAll
  | lookup (key : UInt64)
  | lookupExtended (key : UInt64)
  | contains (key : UInt64)
  | size
  | foreach
  | iteration

inductive TableCall where
  | map (call : MapCall)
  | stealExtended (key : UInt64) (wantKey wantValue : Bool)
  | stealAll
  | iterate (choose : UInt64 → UInt64 → HashTable.IterStep)
  | foreachRemove (func : UInt64 → UInt64 → Bool)
  | foreachSteal (func : UInt64 → UInt64 → Bool)

inductive TableAnswer where
  | nothing
  | flag (flag : Bool)
  | pointer (p : UInt64)
  | entry (entry : Option (UInt64 × UInt64))
  | number (n : Nat)
  | entries (entries : List (UInt64 × UInt64))
  | stolen (found : Bool) (key value : Option UInt64)

namespace HashTable

def flagged (x : Option (Bool × List Notified × HashTable)) : Option (TableAnswer × List Notified × HashTable) :=
  x.map fun (flag, log, t) => (.flag flag, log, t)

def silent {α : Type} (t : HashTable) (answer : α → TableAnswer) (x : Option α) :
    Option (TableAnswer × List Notified × HashTable) :=
  x.map fun a => (answer a, [], t)

def unanswered (x : Option (List Notified × HashTable)) : Option (TableAnswer × List Notified × HashTable) :=
  x.map fun (log, t) => (.nothing, log, t)

end HashTable

open HashTable

def MapCall.perform (funcs : TableFuncs) (t : HashTable) : MapCall → Option (TableAnswer × List Notified × HashTable)
  | insert key value => flagged (t.insert funcs key value)
  | replace key value => flagged (t.replace funcs key value)
  | add key => flagged (t.add funcs key)
  | remove key => flagged (t.remove funcs key)
  | steal key => flagged (t.steal funcs key)
  | removeAll => unanswered (t.removeAll funcs)
  | lookup key => t.silent .pointer (t.lookup funcs key)
  | lookupExtended key => t.silent .entry (t.lookupExtended funcs key)
  | contains key => t.silent .flag (t.contains funcs key)
  | size => t.silent .number (some t.nnodes)
  | foreach => t.silent .entries t.foreach
  | iteration => (t.iterate funcs fun _ _ => .keep).map fun (visited, log, t) => (.entries visited, log, t)

def TableCall.perform (funcs : TableFuncs) (t : HashTable) : TableCall → Option (TableAnswer × List Notified × HashTable)
  | map call => call.perform funcs t
  | stealExtended key wantKey wantValue =>
    (t.stealExtended funcs key wantKey wantValue).map fun (found, key, value, t) => (.stolen found key value, [], t)
  | stealAll => unanswered (t.stealAll funcs)
  | iterate choose => (t.iterate funcs choose).map fun (visited, log, t) => (.entries visited, log, t)
  | foreachRemove func => (t.foreachRemoveOrSteal funcs func true).map fun (deleted, log, t) => (.number deleted, log, t)
  | foreachSteal func => (t.foreachRemoveOrSteal funcs func false).map fun (deleted, log, t) => (.number deleted, log, t)

/-- The answers and the calls of destroy functions come in the order of the calls. -/
def runTable (funcs : TableFuncs) (t : HashTable) : List TableCall → Option (List (TableAnswer × List Notified) × HashTable)
  | [] => some ([], t)
  | call :: calls => do
    let (answer, log, t) ← call.perform funcs t
    let (results, t) ← runTable funcs t calls
    some ((answer, log) :: results, t)

namespace HashTable

section Soundness
variable {t' : HashTable}
variable {t : HashTable} {n : Nat} {slots : Nat → TableSlot} {funcs : TableFuncs}

theorem insertInternal_cases (funcs : TableFuncs) (sound : t.Sound n slots) (key value : UInt64) (keepNewKey : Bool) :
    ∃ i < t.size, t.lookupNode funcs key = some (i, realHash funcs key) ∧ t.Looked funcs slots key i ∧
      t.insertInternal funcs key value keepNewKey = t.insertNode funcs i (realHash funcs key) key value keepNewKey false := by
  obtain ⟨i, inside, found, looked⟩ := lookupNode_spec funcs key sound.geometric sound.holds sound.unused
  refine ⟨i, inside, found, looked, ?_⟩
  rw [insertInternal, found]
  rfl

/-- The searches that change nothing read the entry that they find. -/
theorem lookups_spec (funcs : TableFuncs) (sound : t.Sound n slots) (key : UInt64) :
    ∃ i < t.size, t.lookupNode funcs key = some (i, realHash funcs key) ∧ t.Looked funcs slots key i ∧
      t.lookupExtended funcs key = some ((slots i).content.map Prod.snd) ∧
      t.lookup funcs key = some ((slots i).content.elim 0 fun entry => entry.2.2) ∧
      t.contains funcs key = some (slots i).content.isSome := by
  obtain ⟨i, inside, found, looked⟩ := lookupNode_spec funcs key sound.geometric sound.holds sound.unused
  refine ⟨i, inside, found, looked, ?_⟩
  simp only [lookupExtended, lookup, contains, found, sound.holds.read inside, Option.bind_eq_bind, Option.bind_some,
    hashIsReal_slotHash sound.holds inside]
  cases slot : slots i with
  | unused => exact ⟨rfl, rfl, trivial⟩
  | tombstone => exact ⟨rfl, rfl, trivial⟩
  | real h entry =>
    simp only [Slot.content_real, Option.isSome_some, if_true, sound.holds.fetchKey inside slot, sound.holds.fetchValue inside slot,
      Option.bind_some, Option.map_some, Option.elim_some, and_self]

/-- Every entry is stored with the hash of its key. -/
def Keyed (t : HashTable) (funcs : TableFuncs) (slots : Nat → TableSlot) : Prop :=
  ∀ entry ∈ t.entries slots, entry.1 = realHash funcs entry.2.1

/-- A sound table, in which the hashes are those of the keys if they were so before. -/
def Follows (t : HashTable) (funcs : TableFuncs) (slots : Nat → TableSlot) (t' : HashTable) : Prop :=
  ∃ n' slots', t'.Sound n' slots' ∧ (t.Keyed funcs slots → t'.Keyed funcs slots')

theorem Sound.follows (sound : t.Sound n slots) (funcs : TableFuncs) : t.Follows funcs slots t :=
  ⟨n, slots, sound, fun keyed => keyed⟩

theorem Keyed.perm {n' : Nat} {slots' : Nat → TableSlot} {entries : List (UInt32 × UInt64 × UInt64)} (sound : t'.Sound n' slots')
    (perm : (t'.entries slots').Perm entries)
    (hashes : t.Keyed funcs slots → ∀ entry ∈ entries, entry.1 = realHash funcs entry.2.1) : t.Follows funcs slots t' :=
  ⟨n', slots', sound, fun keyed entry member => hashes keyed entry (perm.subset member)⟩

/-- A slot gets an entry with the hash of its key, or none, or keeps its key. -/
theorem Keyed.of_slots {slots' : Nat → TableSlot} {size : Nat} (keyed : t.Keyed funcs slots) (within : size = t.size)
    (kept : ∀ i < t.size, ∀ h key value, slots' i = .real h (key, value) →
      h = realHash funcs key ∨ ∃ old, slots i = .real h (key, old)) :
    ∀ entry ∈ entriesBelow slots' size, entry.1 = realHash funcs entry.2.1 := by
  rintro ⟨h, key, value⟩ member
  obtain ⟨i, inside, held⟩ := mem_entriesBelow.mp member
  rw [within] at inside
  rcases kept i inside h key value held with hash | ⟨old, before⟩
  · exact hash
  · exact keyed (h, key, old) (mem_entriesBelow.mpr ⟨i, inside, before⟩)

theorem Keyed.removed (keyed : t.Keyed funcs slots) (i : Nat) :
    ∀ entry ∈ entriesBelow (Function.update slots i .tombstone) t.size, entry.1 = realHash funcs entry.2.1 := by
  refine keyed.of_slots rfl fun j inside h key value held => .inr ⟨value, ?_⟩
  by_cases same : j = i
  · rw [same, Function.update_self] at held
    cases held
  · rwa [Function.update_of_ne same] at held

theorem insertInternal_sound {key value : UInt64} {keepNewKey new : Bool} {log : List Notified}
    (sound : t.Sound n slots) (result : t.insertInternal funcs key value keepNewKey = some (new, log, t')) :
    t.Follows funcs slots t' := by
  obtain ⟨i, inside, _, looked, same⟩ := insertInternal_cases funcs sound key value keepNewKey
  rw [same] at result
  rcases looked with ⟨nodeKey, nodeValue, held, _⟩ | ⟨empty, reached, _⟩
  · obtain ⟨t₁, inserted, sound', size, _⟩ :=
      insertNode_existing funcs sound inside held (realHash funcs key) key value keepNewKey false
    rw [inserted] at result
    obtain ⟨_, _, rfl⟩ : _ ∧ _ ∧ t₁ = t' := by simpa using result
    refine ⟨_, _, sound', fun keyed => keyed.of_slots size fun j _ h k v after => ?_⟩
    by_cases here : j = i
    · rw [here, Function.update_self] at after
      obtain ⟨rfl, entry⟩ := Slot.real.inj after
      rw [← (Prod.mk.inj entry).1]
      cases keepNewKey with
      | true => exact .inl rfl
      | false => exact .inr ⟨nodeValue, by rw [here]; exact held⟩
    · rw [Function.update_of_ne here] at after
      exact .inr ⟨v, after⟩
  · have room : slots i = .unused → (t.grown key value).Room := by
      intro unused
      obtain ⟨t₁, inserted, counted, fits, positive, _⟩ :=
        insertNode_unused funcs sound inside unused reached (hashIsReal_realHash funcs key) key value keepNewKey false
      rw [inserted] at result
      obtain ⟨t₂, resized, _⟩ := Option.bind_eq_some_iff.mp result
      exact fits.mp (room_of_maybeResize counted positive resized)
    obtain ⟨t₁, n', slots', inserted, sound', perm⟩ :=
      insertNode_new funcs sound inside empty reached (hashIsReal_realHash funcs key) key value keepNewKey false room
    rw [inserted] at result
    obtain ⟨_, _, rfl⟩ : _ ∧ _ ∧ t₁ = t' := by simpa using result
    refine Keyed.perm sound' perm fun keyed entry member => ?_
    rcases List.mem_cons.mp member with rfl | old
    · rfl
    · exact keyed entry old

/-- What a removal finds, and does. -/
theorem removeInternal_spec (funcs : TableFuncs) (sound : t.Sound n slots) (key : UInt64) (notify : Bool) :
    ∃ i < t.size, t.Looked funcs slots key i ∧
      (((slots i).content = none ∧ t.removeInternal funcs key notify = some (false, [], t)) ∨
        ∃ h k v t' n' slots', slots i = .real h (k, v) ∧ t.removeInternal funcs key notify =
            some (true, if notify then funcs.destroyKey k ++ funcs.destroyValue v else [], t') ∧
          t'.Sound n' slots' ∧ (t'.entries slots').Perm (entriesBelow (Function.update slots i .tombstone) t.size)) := by
  obtain ⟨i, inside, found, looked⟩ := lookupNode_spec funcs key sound.geometric sound.holds sound.unused
  refine ⟨i, inside, looked, ?_⟩
  have start : t.removeInternal funcs key notify =
      if (slots i).content.isSome then do
        let (log, t) ← t.removeNode funcs i notify
        let t ← t.maybeResize
        some (true, log, { t with version := t.version + 1 })
      else some (false, [], t) := by
    simp only [removeInternal, found, sound.holds.read inside, some_bind,
      hashIsReal_slotHash sound.holds inside]
  cases slot : slots i with
  | unused =>
    rw [slot] at start
    exact Or.inl ⟨rfl, start⟩
  | tombstone =>
    rw [slot] at start
    exact Or.inl ⟨rfl, start⟩
  | real h entry =>
    obtain ⟨k, v⟩ := entry
    obtain ⟨t₁, removed, sound₁, size, _⟩ := removeNode_spec funcs sound inside slot notify
    obtain ⟨t₂, n', slots', resized, sound', perm, _⟩ := maybeResize_spec sound₁.toCounted sound₁.room
    refine Or.inr ⟨h, k, v, _, n', slots', rfl, ?_, sound'.withVersion (t₂.version + 1), ?_⟩
    · rw [start, slot]
      simp only [Slot.content_real, Option.isSome_some, if_true, removed, resized, some_bind]
    · rw [← size]
      exact perm

theorem stealExtended_spec (funcs : TableFuncs) (sound : t.Sound n slots) (key : UInt64) (wantKey wantValue : Bool) :
    ∃ i < t.size, t.lookupNode funcs key = some (i, realHash funcs key) ∧ t.Looked funcs slots key i ∧
      (((slots i).content = none ∧ t.stealExtended funcs key wantKey wantValue =
          some (false, if wantKey then some 0 else none, if wantValue then some 0 else none, t)) ∨
        ∃ h k v t' n' slots', slots i = .real h (k, v) ∧ t.stealExtended funcs key wantKey wantValue =
            some (true, if wantKey then some k else none,
              if wantValue then some (if wantKey && t.isASet then 0 else v) else none, t') ∧
          t'.Sound n' slots' ∧ (t'.entries slots').Perm (entriesBelow (Function.update slots i .tombstone) t.size)) := by
  obtain ⟨i, inside, found, looked⟩ := lookupNode_spec funcs key sound.geometric sound.holds sound.unused
  refine ⟨i, inside, found, looked, ?_⟩
  simp only [stealExtended, found, sound.holds.read inside, Option.bind_eq_bind, Option.bind_some,
    hashIsReal_slotHash sound.holds inside]
  cases slot : slots i with
  | unused => exact Or.inl ⟨rfl, rfl⟩
  | tombstone => exact Or.inl ⟨rfl, rfl⟩
  | real h entry =>
    obtain ⟨k, v⟩ := entry
    obtain ⟨t₁, k₁, first, sound₁, size₁⟩ := takeKey_spec sound inside slot wantKey
    have inside₁ : i < t₁.size := size₁.symm ▸ inside
    obtain ⟨t₂, k₂, v₂, second, sound₂, size₂⟩ := takeValue_spec sound₁ inside₁ (Function.update_self ..) wantValue
    have inside₂ : i < t₂.size := size₂.symm ▸ inside₁
    obtain ⟨t₃, removed, sound₃, size₃, _⟩ := removeNode_spec funcs sound₂ inside₂ (Function.update_self ..) false
    obtain ⟨t₄, n', slots', resized, sound', perm, _⟩ := maybeResize_spec sound₃.toCounted sound₃.room
    rw [Function.update_idem, Function.update_idem, entries, entries, size₃, size₂, size₁] at perm
    refine Or.inr ⟨h, k, v, _, n', slots', rfl, ?_, sound'.withVersion (t₄.version + 1), perm⟩
    simp only [Slot.content_real, Option.isSome_some, if_true, first, second, removed, resized, Option.bind_some]

theorem stealExtended_sound (funcs : TableFuncs) (sound : t.Sound n slots) (key : UInt64) (wantKey wantValue : Bool) :
    ∃ found stolenKey stolenValue t',
      t.stealExtended funcs key wantKey wantValue = some (found, stolenKey, stolenValue, t') ∧ t.Follows funcs slots t' := by
  obtain ⟨i, _, _, _, ⟨_, missing⟩ | ⟨h, k, v, t', n', slots', _, stolen, sound', perm⟩⟩ :=
    stealExtended_spec funcs sound key wantKey wantValue
  · exact ⟨_, _, _, t, missing, sound.follows funcs⟩
  · exact ⟨_, _, _, t', stolen, Keyed.perm sound' perm fun keyed => keyed.removed i⟩

theorem removeOrStealAll_spec (funcs : TableFuncs) (sound : t.Sound n slots) (notify : Bool) :
    ∃ t' n' slots', t.removeOrStealAll funcs notify =
        some (if notify then (t.entries slots).flatMap fun entry => destroyEntry funcs entry.2 else [], t') ∧
      t'.Sound n' slots' ∧ t'.entries slots' = [] := by
  obtain ⟨t₁, n₁, slots₁, removed, sound₁, empty⟩ :=
    removeAllNodes_spec funcs (sound.withVersion (if t.nnodes ≠ 0 then t.version + 1 else t.version)) notify
  obtain ⟨t', n', slots', resized, sound', perm, _⟩ := maybeResize_spec sound₁.toCounted sound₁.room
  refine ⟨t', n', slots', ?_, sound', ?_⟩
  · simp only [removeOrStealAll, removed, resized, some_bind]
    rfl
  · rw [empty] at perm
    exact List.perm_nil.mp perm

variable {result : TableAnswer × List Notified × HashTable}

theorem silent_eq {α : Type} {answer : α → TableAnswer} {x : Option α}
    (performed : t.silent answer x = some result) : result.2.2 = t := by
  obtain ⟨a, _, rfl⟩ := Option.map_eq_some_iff.mp performed
  rfl

theorem flagged_sound {x : Option (Bool × List Notified × HashTable)}
    (keeps : ∀ flag log t', x = some (flag, log, t') → t.Follows funcs slots t') (performed : flagged x = some result) :
    t.Follows funcs slots result.2.2 := by
  obtain ⟨⟨flag, log, t'⟩, inner, rfl⟩ := Option.map_eq_some_iff.mp performed
  exact keeps flag log t' inner

theorem removeInternal_sound {key : UInt64} {notify found : Bool} {log : List Notified} (sound : t.Sound n slots)
    (result : t.removeInternal funcs key notify = some (found, log, t')) : t.Follows funcs slots t' := by
  obtain ⟨i, _, _, ⟨_, missing⟩ | ⟨h, k, v, t₁, n', slots', _, removed, sound', perm⟩⟩ := removeInternal_spec funcs sound key notify
  · rw [missing] at result
    obtain ⟨_, _, rfl⟩ : _ ∧ _ ∧ t = t' := by simpa using result
    exact sound.follows funcs
  · rw [removed] at result
    obtain ⟨_, _, rfl⟩ : _ ∧ _ ∧ t₁ = t' := by simpa using result
    exact Keyed.perm sound' perm fun keyed => keyed.removed i

theorem removeOrStealAll_sound {notify : Bool} (sound : t.Sound n slots)
    (performed : unanswered (t.removeOrStealAll funcs notify) = some result) : t.Follows funcs slots result.2.2 := by
  obtain ⟨t', n', slots', removed, sound', empty⟩ := removeOrStealAll_spec funcs sound notify
  rw [removed] at performed
  rw [← Option.some.inj performed]
  exact Keyed.perm sound' (List.Perm.of_eq empty) fun _ entry member => absurd member List.not_mem_nil

theorem stepSlot_key {choose : UInt64 → UInt64 → IterStep} {slot : TableSlot} {h : UInt32} {key value : UInt64}
    (after : stepSlot choose slot = .real h (key, value)) : ∃ old, slot = .real h (key, old) := by
  cases slot with
  | unused => cases after
  | tombstone => cases after
  | real h' entry =>
    obtain ⟨k, v⟩ := entry
    rw [stepSlot_real] at after
    cases step : choose k v with
    | keep | replace =>
      rw [step] at after
      obtain ⟨rfl, entry⟩ := Slot.real.inj after
      rw [← (Prod.mk.inj entry).1]
      exact ⟨v, rfl⟩
    | remove | steal =>
      rw [step] at after
      cases after

theorem iterate_sound (funcs : TableFuncs) (choose : UInt64 → UInt64 → IterStep) (sound : t.Sound n slots) :
    ∃ visited log t', t.iterate funcs choose = some (visited, log, t') ∧ t.Follows funcs slots t' := by
  obtain ⟨t', visited, sound', size⟩ := iterate_spec funcs choose sound
  exact ⟨_, _, t', visited, n, _, sound', fun keyed => keyed.of_slots size fun _ _ _ _ _ after => .inr (stepSlot_key after)⟩

theorem foreachRemoveOrSteal_sound (funcs : TableFuncs) (func : UInt64 → UInt64 → Bool) (notify : Bool) (sound : t.Sound n slots) :
    ∃ deleted log t', t.foreachRemoveOrSteal funcs func notify = some (deleted, log, t') ∧ t.Follows funcs slots t' := by
  obtain ⟨t', n', slots', removed, sound', perm⟩ := foreachRemoveOrSteal_spec funcs func notify sound
  exact ⟨_, _, t', removed, Keyed.perm sound' perm fun keyed entry member => keyed entry (List.mem_of_mem_filter member)⟩

theorem mapCall_sound (call : MapCall) (sound : t.Sound n slots)
    (performed : call.perform funcs t = some result) : t.Follows funcs slots result.2.2 := by
  cases call with
  | insert key value => exact flagged_sound (fun _ _ _ inner => insertInternal_sound sound inner) performed
  | replace key value => exact flagged_sound (fun _ _ _ inner => insertInternal_sound sound inner) performed
  | add key => exact flagged_sound (fun _ _ _ inner => insertInternal_sound sound inner) performed
  | remove key => exact flagged_sound (fun _ _ _ inner => removeInternal_sound sound inner) performed
  | steal key => exact flagged_sound (fun _ _ _ inner => removeInternal_sound sound inner) performed
  | removeAll => exact removeOrStealAll_sound sound performed
  | lookup key => exact (silent_eq performed).symm ▸ sound.follows funcs
  | lookupExtended key => exact (silent_eq performed).symm ▸ sound.follows funcs
  | contains key => exact (silent_eq performed).symm ▸ sound.follows funcs
  | size => exact (silent_eq performed).symm ▸ sound.follows funcs
  | foreach => exact (silent_eq performed).symm ▸ sound.follows funcs
  | iteration =>
    obtain ⟨_, _, t', visited, follows⟩ := iterate_sound funcs (fun _ _ => .keep) sound
    simp only [MapCall.perform, visited, Option.map_some, Option.some.injEq] at performed
    subst performed
    exact follows

theorem tableCall_sound (call : TableCall) (sound : t.Sound n slots)
    (performed : call.perform funcs t = some result) : t.Follows funcs slots result.2.2 := by
  cases call with
  | map call => exact mapCall_sound call sound performed
  | stealExtended key wantKey wantValue =>
    obtain ⟨found, stolenKey, stolenValue, t', stolen, follows⟩ := stealExtended_sound funcs sound key wantKey wantValue
    simp only [TableCall.perform, stolen, Option.map_some, Option.some.injEq] at performed
    subst performed
    exact follows
  | stealAll => exact removeOrStealAll_sound sound performed
  | iterate choose =>
    obtain ⟨_, _, t', visited, follows⟩ := iterate_sound funcs choose sound
    simp only [TableCall.perform, visited, Option.map_some, Option.some.injEq] at performed
    subst performed
    exact follows
  | foreachRemove func =>
    obtain ⟨deleted, log, t', removed, follows⟩ := foreachRemoveOrSteal_sound funcs func true sound
    simp only [TableCall.perform, removed, Option.map_some, Option.some.injEq] at performed
    subst performed
    exact follows
  | foreachSteal func =>
    obtain ⟨deleted, log, t', removed, follows⟩ := foreachRemoveOrSteal_sound funcs func false sound
    simp only [TableCall.perform, removed, Option.map_some, Option.some.injEq] at performed
    subst performed
    exact follows

theorem runTable_sound {calls : List TableCall} {results : List (TableAnswer × List Notified)}
    (sound : t.Sound n slots) (ran : runTable funcs t calls = some (results, t')) : t.Follows funcs slots t' := by
  induction calls generalizing t n slots results with
  | nil =>
    obtain ⟨_, rfl⟩ := Prod.mk.inj (Option.some.inj ran)
    exact sound.follows funcs
  | cons call calls ih =>
    simp only [runTable, Option.bind_eq_bind, Option.bind_eq_some_iff] at ran
    obtain ⟨⟨answer, log, t₁⟩, performed, ⟨rest, t₂⟩, ran, same⟩ := ran
    obtain ⟨_, rfl⟩ := Prod.mk.inj (Option.some.inj same)
    obtain ⟨n₁, slots₁, sound₁, keyed₁⟩ := tableCall_sound call sound performed
    obtain ⟨n', slots', sound', keyed'⟩ := ih sound₁ ran
    exact ⟨n', slots', sound', fun keyed => keyed' (keyed₁ keyed)⟩

end Soundness

section Probes

/-- The slots that the search for a hash looks at. -/
def probeIndex (t : HashTable) (h : UInt32) : Nat → Nat
  | 0 => t.hashToIndex h
  | k + 1 => t.nextIndex (probeIndex t h k) (k + 1)

/-- The numbers of the table are right, and every search ends. -/
structure Probes (funcs : TableFuncs) (t : HashTable) : Prop where
  nodes : t.nnodes = (List.range t.size).countP fun i => hashIsReal (t.hashes.cell i)
  occupied : t.noccupied = (List.range t.size).countP fun i => hashIsReal (t.hashes.cell i) || hashIsTombstone (t.hashes.cell i)
  size : ∃ shift, t.size = 2 ^ shift
  unused : ∃ i < t.size, hashIsUnused (t.hashes.cell i)
  placed : ∀ i < t.size, hashIsReal (t.hashes.cell i) →
    ∃ k < t.size, t.probeIndex (t.hashes.cell i) k = i ∧
      ∀ j < k, hashIsUnused (t.hashes.cell (t.probeIndex (t.hashes.cell i) j)) = false
  visits : ∀ h, ∀ i < t.size, ∃ k < t.size, t.probeIndex h k = i
  ends : ∀ key, ∃ i < t.size, t.lookupNode funcs key = some (i, realHash funcs key)

/-- The slot holds an entry that is stored with the hash of this key, and whose key is equal to it. -/
def Matches (t : HashTable) (funcs : TableFuncs) (key : UInt64) (i : Nat) : Prop :=
  t.hashes.cell i = realHash funcs key ∧ ∃ stored, t.fetchKey i = some stored ∧ funcs.equal stored key

/-- The stored hashes are those of the keys, and a search comes to a slot with an equal key if there is any such slot,
else to one without an entry. -/
structure Finds (funcs : TableFuncs) (t : HashTable) : Prop where
  hashes : ∀ i < t.size, hashIsReal (t.hashes.cell i) →
    ∃ stored, t.fetchKey i = some stored ∧ t.hashes.cell i = realHash funcs stored
  found : ∀ key i h, t.lookupNode funcs key = some (i, h) → (∃ j < t.size, t.Matches funcs key j) → t.Matches funcs key i
  missing : ∀ key i h, t.lookupNode funcs key = some (i, h) → (¬∃ j < t.size, t.Matches funcs key j) →
    hashIsReal (t.hashes.cell i) = false

variable {t : HashTable} {n : Nat} {slots : Nat → TableSlot} {funcs : TableFuncs}

theorem probeIndex_eq (geometric : t.Geometric n) (h : UInt32) (k : Nat) :
    t.probeIndex h k = probeSlot t.size (t.hashToIndex h) k := by
  rw [geometric.size]
  induction k with
  | zero => exact (probeSlot_zero (geometric.home_lt h)).symm
  | succ k ih => rw [probeIndex, ih, geometric.nextIndex]

theorem hashIsUnused_slotHash {i : Nat} (holds : t.Holds t.size slots) (inside : i < t.size) :
    hashIsUnused (t.hashes.cell i) = !(slots i).occupied := by
  rw [holds.hash i inside]
  cases slot : slots i with
  | unused => rfl
  | tombstone => rfl
  | real h entry =>
    have real := (holds.entry i inside h entry.1 entry.2 slot).1
    cases unused : hashIsUnused h with
    | false => simp [slotHash, unused]
    | true =>
      rw [hashIsUnused, beq_iff_eq] at unused
      rw [unused] at real
      exact absurd real Bool.false_ne_true

theorem Sound.probes (sound : t.Sound n slots) (funcs : TableFuncs) : Probes funcs t := by
  have reals : ∀ i < t.size, hashIsReal (t.hashes.cell i) = (slots i).content.isSome := by
    intro i inside
    rw [sound.holds.hash i inside, hashIsReal_slotHash sound.holds inside]
  have occupieds : ∀ i < t.size, (hashIsReal (t.hashes.cell i) || hashIsTombstone (t.hashes.cell i)) = (slots i).occupied := by
    intro i inside
    rw [reals i inside, sound.holds.hash i inside]
    cases slots i <;> rfl
  have positive : 0 < t.size := sound.geometric.size ▸ Nat.pow_pos Nat.two_pos
  have visits : ∀ h, ∀ i < t.size, ∃ k < t.size, t.probeIndex h k = i := by
    intro h i inside
    rw [sound.geometric.size] at inside
    obtain ⟨k, below, same⟩ := probeSlot_surjective (t.hashToIndex h) inside
    refine ⟨k, sound.geometric.size ▸ below, ?_⟩
    rw [probeIndex_eq sound.geometric, sound.geometric.size]
    exact same
  refine ⟨?_, ?_, ⟨n, sound.geometric.size⟩, ?_, ?_, visits, ?_⟩
  · rw [sound.nodes, realsBelow, entriesBelow, List.length_filterMap_eq_countP]
    apply List.countP_congr
    intro i member
    rw [reals i (List.mem_range.mp member)]
  · rw [sound.occupied, occupiedBelow]
    apply List.countP_congr
    intro i member
    rw [occupieds i (List.mem_range.mp member)]
  · obtain ⟨i, inside, unused⟩ := sound.unused
    refine ⟨i, inside, ?_⟩
    rw [hashIsUnused_slotHash sound.holds inside, unused]
    rfl
  · intro i inside real
    rw [reals i inside] at real
    cases slot : slots i with
    | unused => exact absurd real (by rw [slot]; exact Bool.false_ne_true)
    | tombstone => exact absurd real (by rw [slot]; exact Bool.false_ne_true)
    | real h entry =>
      have cell : t.hashes.cell i = h := by
        rw [sound.holds.hash i inside, slot]
        rfl
      obtain ⟨k, same, before⟩ := sound.placed i inside h entry slot
      -- the search comes to an unused slot within the size of the table, and has not come to it yet
      obtain ⟨u, insideU, unused⟩ := sound.unused
      obtain ⟨l, below, reach⟩ := visits h u insideU
      rw [probeIndex_eq sound.geometric] at reach
      have early : k ≤ l := by
        by_contra late
        have := before l (Nat.lt_of_not_le late)
        rw [reach, unused] at this
        exact absurd this Bool.false_ne_true
      rw [cell]
      refine ⟨k, Nat.lt_of_le_of_lt early below, by rw [probeIndex_eq sound.geometric]; exact same, fun j less => ?_⟩
      rw [probeIndex_eq sound.geometric, hashIsUnused_slotHash sound.holds (probeSlot_lt positive _ j), before j less]
      rfl
  · intro key
    obtain ⟨i, inside, found, _⟩ := lookupNode_spec funcs key sound.geometric sound.holds sound.unused
    exact ⟨i, inside, found⟩

theorem Holds.real (holds : t.Holds t.size slots) {i : Nat} (inside : i < t.size) (real : hashIsReal (t.hashes.cell i)) :
    ∃ key value, slots i = .real (t.hashes.cell i) (key, value) := by
  have code := hashIsReal_slotHash holds inside
  rw [holds.hash i inside] at real ⊢
  rw [real] at code
  cases slot : slots i with
  | unused | tombstone =>
    rw [slot] at code
    cases code
  | real h entry => exact ⟨entry.1, entry.2, rfl⟩

theorem Sound.finds (sound : t.Sound n slots) (keyed : t.Keyed funcs slots) : Finds funcs t := by
  refine ⟨fun i inside real => ?_, fun key i h searched => ?_, fun key i h searched nowhere => ?_⟩
  · obtain ⟨key, value, held⟩ := sound.holds.real inside real
    exact ⟨key, sound.holds.fetchKey inside held, keyed (_, key, value) (mem_entriesBelow.mpr ⟨i, inside, held⟩)⟩
  · rintro ⟨j, below, hash, stored, fetched, equal⟩
    obtain ⟨i', inside, again, looked⟩ := lookupNode_spec funcs key sound.geometric sound.holds sound.unused
    obtain ⟨rfl, rfl⟩ := Prod.mk.inj (Option.some.inj (again.symm.trans searched))
    rcases looked with ⟨nodeKey, value, held, same⟩ | ⟨_, _, none⟩
    · refine ⟨?_, nodeKey, sound.holds.fetchKey inside held, same⟩
      rw [sound.holds.hash i' inside, held]
      rfl
    · obtain ⟨nodeKey, value, held⟩ := sound.holds.real below (hash ▸ hashIsReal_realHash funcs key)
      obtain rfl : nodeKey = stored := Option.some.inj ((sound.holds.fetchKey below held).symm.trans fetched)
      rw [hash] at held
      rw [none j nodeKey value held (sound.placed j below _ _ held)] at equal
      cases equal
  · obtain ⟨i', inside, again, looked⟩ := lookupNode_spec funcs key sound.geometric sound.holds sound.unused
    obtain ⟨rfl, rfl⟩ := Prod.mk.inj (Option.some.inj (again.symm.trans searched))
    rcases looked with ⟨nodeKey, value, held, same⟩ | ⟨empty, _, _⟩
    · refine absurd ⟨i', inside, ?_, nodeKey, sound.holds.fetchKey inside held, same⟩ nowhere
      rw [sound.holds.hash i' inside, held]
      rfl
    · rw [sound.holds.hash i' inside, hashIsReal_slotHash sound.holds inside, empty]
      rfl

end Probes

end HashTable

/-- In every table that a run of calls on a new table reaches, the counts are those of the slots, and the search
for any key ends, at an equal key if the table has one. -/
theorem runTable_probes (funcs : TableFuncs) (calls : List TableCall) (t : HashTable)
    (reached : ∃ new results, HashTable.newFull funcs = some new ∧ runTable funcs new calls = some (results, t)) :
    Probes funcs t ∧ Finds funcs t := by
  obtain ⟨new, results, created, ran⟩ := reached
  obtain ⟨t₀, created', sound⟩ := newFull_spec funcs
  obtain rfl : t₀ = new := Option.some.inj (created'.symm.trans created)
  obtain ⟨n, slots, sound', keyed⟩ := runTable_sound sound ran
  refine ⟨sound'.probes funcs, sound'.finds (keyed fun entry member => ?_)⟩
  obtain ⟨i, _, held⟩ := mem_entriesBelow.mp member
  cases held

/-- Two keys with one hash; the first is removed before the second comes, which is then found behind the tombstone. -/
theorem runTable_probes_sample :
    ∃ t, (Probes
      { hashFunc := some fun _ => 0, keyEqualFunc := none, keyDestroyFunc := true, valueDestroyFunc := false, small := true } t ∧
      Finds
      { hashFunc := some fun _ => 0, keyEqualFunc := none, keyDestroyFunc := true, valueDestroyFunc := false, small := true } t) :=
  ⟨_, runTable_probes _ [.map (.insert 5 7), .map (.insert 4 1), .map (.remove 5), .map (.add 6)] _ ⟨_, _, rfl, rfl⟩⟩

end Xpl.Collections
