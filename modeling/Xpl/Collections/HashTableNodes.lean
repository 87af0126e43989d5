import Xpl.Collections.HashTableResizing

/-! What the operations on single nodes do to a hash table, and the invariant they keep. -/

set_option autoImplicit false

namespace Xpl.Collections
open Xpl.Library

namespace HashTable

/-- The table holds the slots, an entry is found by the search from its hash, and the counts are right. -/
structure Counted (t : HashTable) (n : Nat) (slots : Nat → TableSlot) : Prop where
  geometric : t.Geometric n
  least : hashTableMinShift ≤ n
  holds : t.Holds t.size slots
  placed : Placed t.size t.hashToIndex slots
  beyond : ∀ i, t.size ≤ i → slots i = .unused
  nodes : t.nnodes = realsBelow slots t.size
  occupied : t.noccupied = occupiedBelow slots t.size

/-- The invariant: a table with enough unused slots. -/
structure Sound (t : HashTable) (n : Nat) (slots : Nat → TableSlot) : Prop extends t.Counted n slots where
  load : t.noccupied + t.noccupied / 16 < t.size

def entries (t : HashTable) (slots : Nat → TableSlot) : List (UInt32 × UInt64 × UInt64) := entriesBelow slots t.size

section Resizes

variable {t : HashTable} {n : Nat} {slots : Nat → TableSlot}

theorem Sound.unused (sound : t.Sound n slots) : ∃ i < t.size, slots i = .unused := by
  apply exists_unused
  have := sound.load
  rw [← sound.occupied]
  omega

theorem Sound.withVersion (sound : t.Sound n slots) (version : Nat) : { t with version := version }.Sound n slots := by
  obtain ⟨⟨⟨small, size, mask, positive, below⟩, least, holds, placed, beyond, nodes, occupied⟩, load⟩ := sound
  exact ⟨⟨⟨small, size, mask, positive, below⟩, least, holds.recount _ _ _ _ _ _, placed, beyond, nodes, occupied⟩, load⟩

/-- A resize that is due does not ask for arrays that cannot be allocated. -/
def Room (t : HashTable) : Prop :=
  t.wantsResize → t.size < 2 ^ nextShift t.nnodes → nextShift t.nnodes ≤ 29 ∧ t.Allocatable (2 ^ nextShift t.nnodes)

theorem allocatable_of_lt {s : Nat} (small : s < 29) (t : HashTable) : t.Allocatable (2 ^ s) := by
  have below : 2 ^ s ≤ 2 ^ 28 := Nat.pow_le_pow_right Nat.two_pos (Nat.le_of_lt_succ small)
  have width : ∀ isBig, Column.entrySize isBig ≤ 8 := by decide
  have bytes : ∀ isBig, 2 ^ s * Column.entrySize isBig < 2 ^ 32 := fun isBig =>
    Nat.lt_of_le_of_lt (Nat.mul_le_mul below (width isBig)) (by decide)
  exact ⟨bytes _, bytes _⟩

theorem maybeResize_spec (counted : t.Counted n slots) (room : t.Room) :
    ∃ t' n' slots', t.maybeResize = some t' ∧ t'.Sound n' slots' ∧ (t'.entries slots').Perm (t.entries slots) ∧
      t'.nnodes = t.nnodes := by
  unfold maybeResize
  cases wants : t.wantsResize with
  | false =>
    refine ⟨t, n, slots, rfl, ⟨counted, ?_⟩, List.Perm.refl _, rfl⟩
    simp only [wantsResize, Bool.or_eq_false_iff, decide_eq_false_iff_not] at wants
    omega
  | true =>
    have small : nextShift t.nnodes ≤ 29 := by
      rcases Nat.lt_or_ge n (nextShift t.nnodes) with grows | fits
      · refine (room wants ?_).1
        rw [counted.geometric.size]
        exact Nat.pow_lt_pow_right (by decide) grows
      · exact Nat.le_trans fits counted.geometric.small
    have allocatable : nextShift t.nnodes ≠ n → t.Allocatable (2 ^ nextShift t.nnodes) := by
      intro differ
      rcases Nat.lt_or_gt_of_ne differ with shrinks | grows
      · exact allocatable_of_lt (Nat.lt_of_lt_of_le shrinks counted.geometric.small) t
      · refine (room wants ?_).2
        rw [counted.geometric.size]
        exact Nat.pow_lt_pow_right (by decide) grows
    obtain ⟨t', slots', result, resized⟩ :=
      resize_spec counted.geometric counted.holds counted.beyond counted.nodes small allocatable
    have reals : t'.nnodes = realsBelow slots' t'.size := by
      rw [resized.nnodes, counted.nodes, realsBelow, realsBelow, resized.entries.length_eq]
    refine ⟨t', nextShift t.nnodes, slots', result, ⟨⟨resized.geometric, Nat.le_max_right .., resized.holds, resized.placed,
      resized.beyond, reals, ?_⟩, ?_⟩, resized.entries, resized.nnodes⟩
    · rw [occupiedBelow_eq fun i _ => resized.clean i, ← reals, resized.nnodes, resized.noccupied]
    · rw [resized.noccupied, resized.geometric.size]
      exact lt_nextShift t.nnodes

/-- A table that does not have more occupied slots than before is not resized to more slots. -/
theorem Sound.room (sound : t.Sound n slots) : t.Room := by
  intro wants grows
  have few : t.nnodes * 4 < t.size := by
    have load := sound.load
    simp only [wantsResize, Bool.or_eq_true, Bool.and_eq_true, decide_eq_true_eq] at wants
    omega
  have := Nat.pow_le_pow_right Nat.two_pos (nextShift_le sound.least (sound.geometric.size ▸ few))
  rw [← sound.geometric.size] at this
  omega

end Resizes

section Nodes
variable {t' : HashTable}
variable {t : HashTable} {n i : Nat} {slots : Nat → TableSlot} {funcs : TableFuncs} {h : UInt32} {key value : UInt64}

/-- The entry in the arrays, which are made to fit it. -/
theorem assignEntry_fitting (holds : t.Holds t.size slots) (inside : i < t.size) (real : hashIsReal h) (key value : UInt64) :
    ∃ t', ({ t with hashes := { t.hashes with cell := Function.update t.hashes.cell i h } }.ensureKeyvalFits key value).assignEntry
        i key value = some t' ∧
      t'.size = t.size ∧ t'.mod = t.mod ∧ t'.mask = t.mask ∧ t'.nnodes = t.nnodes ∧ t'.noccupied = t.noccupied ∧ t'.version = t.version ∧
      t'.haveBigKeys = (t.haveBigKeys || entryIsBig key) ∧ t'.haveBigValues = (t.haveBigValues || entryIsBig value) ∧
      t'.Holds t.size (Function.update slots i (.real h (key, value))) := by
  have held := holds.ensureKeyvalFits key value
  have fits := ensureKeyvalFits_fits holds.toShaped key value
  have same := ensureKeyvalFits_same t key value
  have big := ensureKeyvalFits_big holds.toShaped key value
  rw [ensureKeyvalFits_hashes]
  generalize t.ensureKeyvalFits key value = t₁ at *
  rw [← same.hashes]
  have shaped := held.toShaped.setHash (Function.update t₁.hashes.cell i h)
  have chosen : (if t₁.isASet then Column.stored t₁.haveBigValues value else Column.stored t₁.haveBigKeys key) = key := by
    split
    · rw [fits.valueStored]
      exact fits.shared (Option.isNone_iff_eq_none.mp ‹_›)
    · exact fits.keyStored
  have written := assignEntry_eq shaped inside key value
  rw [put_hashes] at written
  change _ = some (t₁.put i h (if t₁.isASet then Column.stored t₁.haveBigValues value else Column.stored t₁.haveBigKeys key)
    (Column.stored t₁.haveBigValues value)) at written
  rw [chosen, fits.valueStored] at written
  exact ⟨_, written, same.size, same.mod, same.mask, same.nnodes, same.noccupied, same.version, big.1, big.2, held.putReal real fits⟩

theorem Counted.write (counted : t.Counted n slots) (inside : i < t.size) (slot : TableSlot)
    (size : t'.size = t.size) (mod : t'.mod = t.mod) (mask : t'.mask = t.mask) (full : slot.occupied)
    (reached : ∀ h entry, slot = .real h entry → Reaches t.size slots (t.hashToIndex h) i)
    (holds : t'.Holds t.size (Function.update slots i slot))
    (nodes : t'.nnodes + (slots i).content.toList.length = t.nnodes + slot.content.toList.length)
    (occupied : t'.noccupied + (slots i).occupied.toNat = t.noccupied + 1) :
    t'.Counted n (Function.update slots i slot) := by
  have home : t'.hashToIndex = t.hashToIndex := by
    funext h
    rw [hashToIndex, hashToIndex, mod]
  refine ⟨⟨counted.geometric.small, size.trans counted.geometric.size, mask.trans counted.geometric.mask,
    mod ▸ counted.geometric.modPositive, mod ▸ counted.geometric.modLe⟩, counted.least, ?_, ?_, ?_, ?_, ?_⟩
  · rw [size]
    exact holds
  · rw [size, home]
    exact counted.placed.write full reached
  · rw [size]
    intro j outside
    rw [Function.update_of_ne (by omega)]
    exact counted.beyond j outside
  · have perm := (entriesBelow_update slots inside slot).length_eq
    rw [List.length_append, List.length_append] at perm
    have before := counted.nodes
    rw [size]
    unfold realsBelow at before ⊢
    omega
  · have update := occupiedBelow_update slots inside slot
    have before := counted.occupied
    rw [size]
    rw [full] at update
    simp only [Bool.toNat_true] at update
    omega

/-- The numbers of the table when the entry has been put into an unused slot. -/
def grown (t : HashTable) (key value : UInt64) : HashTable :=
  { t with
    nnodes := t.nnodes + 1
    noccupied := t.noccupied + 1
    haveBigKeys := t.haveBigKeys || entryIsBig key
    haveBigValues := t.haveBigValues || entryIsBig value }

theorem insertNode_counts (funcs : TableFuncs) (sound : t.Sound n slots) (inside : i < t.size) (empty : (slots i).content = none)
    (reached : Reaches t.size slots (t.hashToIndex h) i) (real : hashIsReal h) (key value : UInt64) (keepNewKey reusingKey : Bool) :
    ∃ t₁ : HashTable, t.insertNode funcs i h key value keepNewKey reusingKey =
        (t₁.countNode (slotHash (slots i))).bind (fun t' => some (true, [], { t' with version := t'.version + 1 })) ∧
      (∀ noccupied version, noccupied + (slots i).occupied.toNat = t.noccupied + 1 →
        { t₁ with nnodes := t₁.nnodes + 1, noccupied := noccupied, version := version }.Counted n
          (Function.update slots i (.real h (key, value)))) ∧
      t₁.size = t.size ∧ t₁.nnodes = t.nnodes ∧ t₁.noccupied = t.noccupied ∧
      t₁.haveBigKeys = (t.haveBigKeys || entryIsBig key) ∧ t₁.haveBigValues = (t.haveBigValues || entryIsBig value) := by
  obtain ⟨t₁, written, size, mod, mask, nnodes, noccupied, version, bigKeys, bigValues, holds⟩ :=
    assignEntry_fitting sound.holds inside real key value
  have reach : ∀ h' entry, Slot.real h (key, value) = .real h' entry → Reaches t.size slots (t.hashToIndex h') i := by
    intro h' entry same
    rw [← (Slot.real.inj same).1]
    exact reached
  have unreal : hashIsReal (slotHash (slots i)) = false := by
    rw [hashIsReal_slotHash sound.holds inside, empty]
    rfl
  refine ⟨t₁, ?_, fun count version counts => ?_, size, nnodes, noccupied, bigKeys, bigValues⟩
  · simp only [insertNode, sound.holds.read inside, setHash_eq sound.holds.toShaped inside h, written, unreal, Bool.false_eq_true,
      if_false, Option.bind_eq_bind, Option.bind_some]
  · refine sound.toCounted.write inside _ size mod mask rfl reach (holds.recount _ _ _ _ _ _) ?_ counts
    rw [empty]
    exact congrArg (· + 1) nnodes

theorem entries_new (slots : Nat → TableSlot) (inside : i < t.size) (empty : (slots i).content = none) (h : UInt32)
    (key value : UInt64) :
    (entriesBelow (Function.update slots i (.real h (key, value))) t.size).Perm ((h, key, value) :: t.entries slots) := by
  have := entriesBelow_update slots inside (.real h (key, value))
  rw [empty] at this
  simp only [Option.toList_none, List.append_nil] at this
  exact this.trans (List.perm_append_singleton _ _)

/-- A new entry in an unused slot, at the moment when the table is looked at for a resize. -/
def insertedNode (t : HashTable) (i : Nat) (h : UInt32) (key value : UInt64) : Option HashTable := do
  let oldHash ← t.hashes.read i
  if hashIsUnused oldHash then do
    let t ← t.setHash i h
    let t ← (t.ensureKeyvalFits key value).assignEntry i key value
    some { t with nnodes := t.nnodes + 1, noccupied := t.noccupied + 1 }
  else none

theorem insertNode_inserted (funcs : TableFuncs) (unused : t.hashes.read i = some unusedHashValue) (h : UInt32) (key value : UInt64)
    (keepNewKey reusingKey : Bool) :
    t.insertNode funcs i h key value keepNewKey reusingKey =
      (t.insertedNode i h key value).bind fun s =>
        s.maybeResize.bind fun s => some (true, [], { s with version := s.version + 1 }) := by
  simp only [insertNode, insertedNode, unused, Option.bind_eq_bind, Option.bind_some, not_real_zero, Bool.false_eq_true, if_false,
    show hashIsUnused unusedHashValue = true from rfl, if_true, Option.bind_assoc, countNode]

theorem insertedNode_spec (sound : t.Sound n slots) (inside : i < t.size) (unused : slots i = .unused)
    (reached : Reaches t.size slots (t.hashToIndex h) i) (real : hashIsReal h) (key value : UInt64) :
    ∃ t₁, t.insertedNode i h key value = some t₁ ∧ t₁.Counted n (Function.update slots i (.real h (key, value))) ∧
      (t₁.Room ↔ (t.grown key value).Room) ∧ 0 < t₁.nnodes ∧
      (t₁.entries (Function.update slots i (.real h (key, value)))).Perm ((h, key, value) :: t.entries slots) := by
  obtain ⟨t₁, written, size, mod, mask, nnodes, noccupied, version, bigKeys, bigValues, holds⟩ :=
    assignEntry_fitting sound.holds inside real key value
  have read := sound.holds.read inside
  rw [unused] at read
  refine ⟨{ t₁ with nnodes := t₁.nnodes + 1, noccupied := t₁.noccupied + 1 }, ?_, ?_, ?_, Nat.succ_pos _, ?_⟩
  · simp only [insertedNode, read, slotHash, show hashIsUnused unusedHashValue = true from rfl, if_true,
      setHash_eq sound.holds.toShaped inside, written, some_bind]
  · refine sound.toCounted.write inside _ size mod mask rfl (fun h' entry same => ?_) (holds.recount _ _ _ _ _ _) ?_ ?_
    · rw [← (Slot.real.inj same).1]
      exact reached
    · rw [unused]
      exact congrArg (· + 1) nnodes
    · rw [unused]
      exact congrArg (· + 1) noccupied
  · unfold Room wantsResize Allocatable HashTable.grown
    simp only [size, nnodes, noccupied, bigKeys, bigValues]
  · have empty : (slots i).content = none := by
      rw [unused]
      rfl
    rw [size]
    exact entries_new slots inside empty h key value

theorem insertNode_unused (funcs : TableFuncs) (sound : t.Sound n slots) (inside : i < t.size) (unused : slots i = .unused)
    (reached : Reaches t.size slots (t.hashToIndex h) i) (real : hashIsReal h) (key value : UInt64) (keepNewKey reusingKey : Bool) :
    ∃ t₁ : HashTable, t.insertNode funcs i h key value keepNewKey reusingKey =
        t₁.maybeResize.bind (fun t' => some (true, [], { t' with version := t'.version + 1 })) ∧
      t₁.Counted n (Function.update slots i (.real h (key, value))) ∧ (t₁.Room ↔ (t.grown key value).Room) ∧ 0 < t₁.nnodes ∧
      (t₁.entries (Function.update slots i (.real h (key, value)))).Perm ((h, key, value) :: t.entries slots) := by
  obtain ⟨t₁, inserted, facts⟩ := insertedNode_spec sound inside unused reached real key value
  have read := sound.holds.read inside
  rw [unused] at read
  refine ⟨t₁, ?_, facts⟩
  rw [insertNode_inserted funcs read, inserted, Option.bind_some]

theorem insertNode_new (funcs : TableFuncs) (sound : t.Sound n slots) (inside : i < t.size) (empty : (slots i).content = none)
    (reached : Reaches t.size slots (t.hashToIndex h) i) (real : hashIsReal h) (key value : UInt64) (keepNewKey reusingKey : Bool)
    (room : slots i = .unused → (t.grown key value).Room) :
    ∃ t' n' slots', t.insertNode funcs i h key value keepNewKey reusingKey = some (true, [], t') ∧ t'.Sound n' slots' ∧
      (t'.entries slots').Perm ((h, key, value) :: t.entries slots) := by
  cases slot : slots i with
  | real h' entry =>
    rw [slot] at empty
    exact absurd empty (Option.some_ne_none _)
  | tombstone =>
    obtain ⟨t₁, inserted, counted, size, nnodes, noccupied, _, _⟩ :=
      insertNode_counts funcs sound inside empty reached real key value keepNewKey reusingKey
    refine ⟨{ t₁ with nnodes := t₁.nnodes + 1, version := t₁.version + 1 }, n, _, ?_, ⟨counted t₁.noccupied _ ?_, ?_⟩, ?_⟩
    · rw [inserted, slot]
      rfl
    · rw [slot, noccupied]
      rfl
    · show t₁.noccupied + t₁.noccupied / 16 < t₁.size
      rw [noccupied, size]
      exact sound.load
    · show (entriesBelow _ t₁.size).Perm _
      rw [size]
      exact entries_new slots inside empty h key value
  | unused =>
    obtain ⟨t₁, inserted, counted, fits, _, perm⟩ :=
      insertNode_unused funcs sound inside slot reached real key value keepNewKey reusingKey
    obtain ⟨t', n', slots', result, sound', perm', _⟩ := maybeResize_spec counted (fits.mpr (room slot))
    refine ⟨{ t' with version := t'.version + 1 }, n', slots', ?_, sound'.withVersion _, perm'.trans perm⟩
    rw [inserted, result]
    rfl

theorem insertNode_existing (funcs : TableFuncs) (sound : t.Sound n slots) (inside : i < t.size)
    (held : slots i = .real h (key, value)) (keyHash : UInt32) (newKey newValue : UInt64) (keepNewKey reusingKey : Bool) :
    ∃ t', t.insertNode funcs i keyHash newKey newValue keepNewKey reusingKey =
        some (false, (if reusingKey then [] else funcs.destroyKey (if keepNewKey then key else newKey)) ++ funcs.destroyValue value, t') ∧
      t'.Sound n (Function.update slots i (.real h (if keepNewKey then newKey else key, newValue))) ∧
      t'.size = t.size ∧ t'.version = t.version := by
  have real := (sound.holds.entry i inside h key value held).1
  obtain ⟨t₁, written, size, mod, mask, nnodes, noccupied, version, bigKeys, bigValues, holds⟩ :=
    assignEntry_fitting sound.holds inside real (if keepNewKey then newKey else key) newValue
  have same : { t with hashes := { t.hashes with cell := Function.update t.hashes.cell i h } } = t := by
    have cell : t.hashes.cell i = h := by
      rw [sound.holds.hash i inside, held]
      rfl
    rw [← cell, Function.update_eq_self]
  rw [same] at written
  have read := sound.holds.read inside
  rw [held] at read
  simp only [slotHash] at read
  have reach : ∀ h' entry, Slot.real h (if keepNewKey then newKey else key, newValue) = .real h' entry →
      Reaches t.size slots (t.hashToIndex h') i := by
    intro h' entry same
    rw [← (Slot.real.inj same).1]
    exact sound.placed i inside h _ held
  refine ⟨t₁, ?_, ⟨?_, ?_⟩, size, version⟩
  · simp only [insertNode, read, real, if_true, sound.holds.fetchValue inside held, sound.holds.fetchKey inside held, written,
      some_bind]
  · refine sound.toCounted.write inside _ size mod mask rfl reach holds ?_ ?_
    · rw [held]
      exact congrArg (· + 1) nnodes
    · rw [held]
      exact congrArg (· + 1) noccupied
  · rw [noccupied, size]
    exact sound.load

theorem removeNode_spec (funcs : TableFuncs) (sound : t.Sound n slots) (inside : i < t.size)
    (held : slots i = .real h (key, value)) (notify : Bool) :
    ∃ t', t.removeNode funcs i notify = some (if notify then funcs.destroyKey key ++ funcs.destroyValue value else [], t') ∧
      t'.Sound n (Function.update slots i .tombstone) ∧ t'.size = t.size ∧ t'.version = t.version := by
  have setHash := setHash_eq sound.holds.toShaped inside tombstoneHashValue
  have written := assignEntry_eq (sound.holds.toShaped.setHash (Function.update t.hashes.cell i tombstoneHashValue)) inside 0 0
  rw [stored_zero, stored_zero, ite_self, put_hashes] at written
  have positive : 0 < t.nnodes := by
    rw [sound.nodes]
    exact List.length_pos_of_mem (mem_entriesBelow.mpr ⟨i, inside, held⟩)
  have cleared : (t.put i tombstoneHashValue 0 0).Holds t.size (Function.update slots i .tombstone) := sound.holds.clear rfl rfl
  refine ⟨{ t.put i tombstoneHashValue 0 0 with nnodes := t.nnodes - 1 }, ?_, ⟨?_, sound.load⟩, rfl, rfl⟩
  · simp only [removeNode, sound.holds.fetchKey inside held, sound.holds.fetchValue inside held, setHash, written,
      some_bind]
    rfl
  · refine sound.toCounted.write inside _ rfl rfl rfl rfl (fun h entry same => nomatch same) (cleared.recount _ _ _ _ _ _) ?_ ?_
    · rw [held]
      show t.nnodes - 1 + 1 = t.nnodes
      omega
    · rw [held]
      rfl

end Nodes

section AllNodes

variable {t : HashTable} {n : Nat} {slots : Nat → TableSlot}

theorem collect_eq {α : Type} {length : Nat} (body : List α → Nat → Option (List α)) (out : UInt32 × UInt64 × UInt64 → List α)
    (turn : ∀ i < length, ∀ log, body log i = some (log ++ (slots i).content.toList.flatMap out)) :
    (List.range length).foldlM body [] = some ((entriesBelow slots length).flatMap out) := by
  have run : ∀ m ≤ length, (List.range m).foldlM body [] = some ((entriesBelow slots m).flatMap out) := by
    intro m
    induction m with
    | zero => exact fun _ => rfl
    | succ m ih =>
      intro below
      rw [List.range_succ, List.foldlM_append, ih (Nat.le_of_succ_le below), entriesBelow_succ, List.flatMap_append]
      simpa using turn m below _
  exact run length (Nat.le_refl _)

theorem foreach_eq (sound : t.Sound n slots) : t.foreach = some ((t.entries slots).map Prod.snd) := by
  rw [List.map_eq_flatMap]
  apply collect_eq
  · intro i inside visited
    simp only [sound.holds.read inside, some_bind, hashIsReal_slotHash sound.holds inside]
    cases slot : slots i with
    | unused => simp
    | tombstone => simp
    | real h entry =>
      simp [sound.holds.fetchKey inside slot, sound.holds.fetchValue inside slot]

/-- The destroy functions are called for a key and its value. -/
def destroyEntry (funcs : TableFuncs) (entry : UInt64 × UInt64) : List Notified :=
  funcs.destroyKey entry.1 ++ funcs.destroyValue entry.2

theorem destroyNodes_eq (funcs : TableFuncs) (sound : t.Sound n slots) :
    t.destroyNodes funcs = some ((t.entries slots).flatMap fun entry => destroyEntry funcs entry.2) := by
  apply collect_eq
  intro i inside log
  simp only [sound.holds.read inside, some_bind, hashIsReal_slotHash sound.holds inside]
  cases slot : slots i with
  | unused => simp
  | tombstone => simp
  | real h entry =>
    simp [sound.holds.fetchKey inside slot, sound.holds.fetchValue inside slot, destroyEntry]

theorem entriesBelow_unused (length : Nat) : entriesBelow (fun _ => (.unused : TableSlot)) length = [] := by
  simp [entriesBelow]

theorem occupiedBelow_unused (length : Nat) : occupiedBelow (fun _ => (.unused : TableSlot)) length = 0 := by
  simp [occupiedBelow]

theorem sound_unused (geometric : t.Geometric n) (least : hashTableMinShift ≤ n) (shaped : t.Shaped t.size)
    (unused : ∀ i, t.hashes.cell i = unusedHashValue) (nnodes : t.nnodes = 0) (noccupied : t.noccupied = 0) :
    t.Sound n fun _ => .unused := by
  refine ⟨⟨geometric, least, ⟨shaped, fun i _ => unused i, fun i _ h key value held => nomatch held⟩,
    fun i _ h entry held => (nomatch held), fun i _ => rfl, ?_, ?_⟩, ?_⟩
  · rw [nnodes, realsBelow, entriesBelow_unused]
    rfl
  · rw [noccupied, occupiedBelow_unused]
  · rw [noccupied, geometric.size]
    exact Nat.pow_pos Nat.two_pos

theorem setupStorage_spec (funcs : TableFuncs) (t : HashTable) (nnodes : t.nnodes = 0) (noccupied : t.noccupied = 0) :
    ∃ t', t.setupStorage funcs = some t' ∧ t'.Sound hashTableMinShift fun _ => .unused := by
  obtain ⟨mod, result, positive, below⟩ := setShift_eq t (show hashTableMinShift ≤ 30 by decide)
  refine ⟨_, by simp only [setupStorage, result, some_bind]; rfl, ?_⟩
  exact sound_unused ⟨by decide, rfl, rfl, positive, below⟩ (Nat.le_refl _) ⟨rfl, rfl, rfl, rfl, rfl⟩ (fun _ => rfl) nnodes noccupied

theorem removeAllNodes_spec (funcs : TableFuncs) (sound : t.Sound n slots) (notify : Bool) :
    ∃ t' n' slots', t.removeAllNodes funcs notify =
        some (if notify then (t.entries slots).flatMap fun entry => destroyEntry funcs entry.2 else [], t') ∧
      t'.Sound n' slots' ∧ t'.entries slots' = [] := by
  unfold removeAllNodes
  by_cases nothing : t.nnodes = 0
  · have none : t.entries slots = [] := List.eq_nil_of_length_eq_zero (sound.nodes.symm.trans nothing)
    refine ⟨t, n, slots, ?_, sound, none⟩
    rw [if_pos nothing, none]
    simp
  · rw [if_neg nothing]
    by_cases silent : !notify || (!funcs.keyDestroyFunc && !funcs.valueDestroyFunc)
    · refine ⟨{ t with
          nnodes := 0
          noccupied := 0
          hashes := Cells.filled t.hashes.length unusedHashValue
          keys := t.keys.cleared
          values := t.values.map Column.cleared }, n, fun _ => .unused, ?_,
        sound_unused ?_ sound.least ?_ (fun _ => rfl) rfl rfl, entriesBelow_unused _⟩
      · simp only [if_pos silent, Option.some.injEq, Prod.mk.injEq, and_true]
        cases notify with
        | false => rfl
        | true =>
          simp only [Bool.not_true, Bool.false_or, Bool.and_eq_true, Bool.not_eq_true'] at silent
          simp [destroyEntry, TableFuncs.destroyKey, TableFuncs.destroyValue, silent.1, silent.2]
      · obtain ⟨small, size, mask, positive, below⟩ := sound.geometric
        exact ⟨small, size, mask, positive, below⟩
      · obtain ⟨hashLength, keyLength, valueLength, keyWidth, valueWidth⟩ := sound.holds.toShaped
        rcases t with ⟨size, mod, mask, nnodes, noccupied, bigKeys, bigValues, keys, hashes, _ | column, version⟩
        · exact ⟨hashLength, keyLength, keyLength, keyWidth, valueWidth⟩
        · exact ⟨hashLength, keyLength, valueLength, keyWidth, valueWidth⟩
    · have loud : notify = true := by
        cases notify with
        | true => rfl
        | false => exact absurd rfl silent
      obtain ⟨t', result, empty⟩ := setupStorage_spec funcs { t with nnodes := 0, noccupied := 0 } rfl rfl
      refine ⟨t', _, _, ?_, empty, entriesBelow_unused _⟩
      rw [if_neg silent, loud, if_pos rfl]
      simp only [result, destroyNodes_eq funcs sound, some_bind]

theorem newFull_spec (funcs : TableFuncs) :
    ∃ t, newFull funcs = some t ∧ t.Sound hashTableMinShift fun _ => .unused :=
  setupStorage_spec funcs _ rfl rfl

end AllNodes

end HashTable

end Xpl.Collections
