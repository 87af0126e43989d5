import Xpl.Collections.HashTableMap
import Xpl.Collections.HashTableReach

/-! What a table stores, whatever arrays it stores it in.

The entries that have been stored are a list of their own, on which a call is a step: it finds an
entry that matches its key or none, and reads, adds or takes away what was stored. Nothing is
assumed of the functions that hash and compare keys.
-/

set_option autoImplicit false

namespace Xpl.Collections
open Xpl.Library HashTable

abbrev StoredEntries := List (UInt32 × UInt64 × UInt64)

namespace StoredEntries

variable (funcs : TableFuncs)

def Matching (key : UInt64) (entry : UInt32 × UInt64 × UInt64) : Prop :=
  entry.1 = realHash funcs key ∧ funcs.equal entry.2.1 key

/-- What a search for a key finds, and the other entries. -/
inductive Search (stored : StoredEntries) (key : UInt64) : Option (UInt32 × UInt64 × UInt64) → StoredEntries → Prop where
  | missing : (∀ entry ∈ stored, ¬Matching funcs key entry) → Search stored key none stored
  | found {entry : UInt32 × UInt64 × UInt64} {rest : StoredEntries} : stored.Perm (entry :: rest) → Matching funcs key entry →
      Search stored key (some entry) rest

def Searched (stored : StoredEntries) : Option UInt64 → Option (UInt32 × UInt64 × UInt64) → StoredEntries → Prop
  | some key, entry, rest => Search funcs stored key entry rest
  | none, entry, rest => entry = none ∧ rest = stored

def inserted (rest : StoredEntries) (key value : UInt64) (keepNewKey : Bool) :
    Option (UInt32 × UInt64 × UInt64) → TableAnswer × List Notified × StoredEntries
  | none => (.flag true, [], (realHash funcs key, key, value) :: rest)
  | some (h, k, v) =>
    (.flag false, funcs.destroyKey (if keepNewKey then k else key) ++ funcs.destroyValue v,
      (h, if keepNewKey then key else k, value) :: rest)

def removed (rest : StoredEntries) (notify : Bool) :
    Option (UInt32 × UInt64 × UInt64) → TableAnswer × List Notified × StoredEntries
  | none => (.flag false, [], rest)
  | some (_, entry) => (.flag true, if notify then destroyEntry funcs entry else [], rest)

def stolen (rest : StoredEntries) (wantKey wantValue : Bool) :
    Option (UInt32 × UInt64 × UInt64) → TableAnswer × List Notified × StoredEntries
  | none => (.stolen false (if wantKey then some 0 else none) (if wantValue then some 0 else none), [], rest)
  | some (_, k, v) => (.stolen true (if wantKey then some k else none) (if wantValue then some v else none), [], rest)

def filtered (stored : StoredEntries) (func : UInt64 → UInt64 → Bool) (notify : Bool) : TableAnswer × List Notified × StoredEntries :=
  (.number (stored.filter fun entry => func entry.2.1 entry.2.2).length,
    filterLog funcs notify (stored.filter fun entry => func entry.2.1 entry.2.2),
    stored.filter fun entry => !func entry.2.1 entry.2.2)

end StoredEntries

open StoredEntries

namespace MapCall

def key : MapCall → Option UInt64
  | insert key _ | replace key _ | add key | remove key | steal key | lookup key | lookupExtended key | contains key => some key
  | removeAll | size | foreach | iteration => none

/-- The answer, the calls of destroy functions, and the entries that are stored then. -/
def outcome (funcs : TableFuncs) (stored rest : StoredEntries) (entry : Option (UInt32 × UInt64 × UInt64)) :
    MapCall → TableAnswer × List Notified × StoredEntries
  | insert key value => inserted funcs rest key value false entry
  | replace key value => inserted funcs rest key value true entry
  | add key => inserted funcs rest key key true entry
  | remove _ => removed funcs rest true entry
  | steal _ => removed funcs rest false entry
  | removeAll => (.nothing, stored.flatMap fun entry => destroyEntry funcs entry.2, [])
  | lookup _ => (.pointer (entry.elim 0 fun entry => entry.2.2), [], stored)
  | lookupExtended _ => (.entry (entry.map Prod.snd), [], stored)
  | contains _ => (.flag entry.isSome, [], stored)
  | size => (.number stored.length, [], stored)
  | foreach | iteration => (.entries (stored.map Prod.snd), [], stored)

end MapCall

namespace TableCall

def key : TableCall → Option UInt64
  | map call => call.key
  | stealExtended key _ _ => some key
  | stealAll | iterate _ | foreachRemove _ | foreachSteal _ => none

def outcome (funcs : TableFuncs) (stored rest : StoredEntries) (entry : Option (UInt32 × UInt64 × UInt64)) :
    TableCall → TableAnswer × List Notified × StoredEntries
  | map call => call.outcome funcs stored rest entry
  | stealExtended _ wantKey wantValue => stolen rest wantKey wantValue entry
  | stealAll => (.nothing, [], [])
  | iterate choose =>
    (.entries (stored.map Prod.snd), stored.flatMap fun entry => stepLog funcs choose entry.2,
      stored.filterMap fun entry => entryAfter (choose entry.2.1 entry.2.2) entry)
  | foreachRemove func => filtered funcs stored func true
  | foreachSteal func => filtered funcs stored func false

def Steps (funcs : TableFuncs) (stored : StoredEntries) (call : TableCall) (result : TableAnswer × List Notified)
    (after : StoredEntries) : Prop :=
  ∃ entry rest, Searched funcs stored call.key entry rest ∧
    ResultsAgree result ((call.outcome funcs stored rest entry).1, (call.outcome funcs stored rest entry).2.1) ∧
    after.Perm (call.outcome funcs stored rest entry).2.2

/-- Where a call finds what was stored: it does not make the table outgrow its arrays, and it does not take both the key and
the value of an entry out of the one array that a set has for them, unless the key is `NULL`. -/
def Undisturbed (funcs : TableFuncs) (t : HashTable) : TableCall → Prop
  | map call => call.Fits funcs t
  | stealExtended key wantKey wantValue =>
    wantKey → wantValue → t.isASet → ∀ k v, t.lookupExtended funcs key = some (some (k, v)) → k = 0
  | stealAll | iterate _ | foreachRemove _ | foreachSteal _ => True

end TableCall

/-- A run of calls as steps of the stored entries. -/
inductive Stores (funcs : TableFuncs) :
    StoredEntries → List TableCall → List (TableAnswer × List Notified) → StoredEntries → Prop where
  | nil {stored : StoredEntries} : Stores funcs stored [] [] stored
  | cons {stored after final : StoredEntries} {call : TableCall} {calls : List TableCall} {result : TableAnswer × List Notified}
      {results : List (TableAnswer × List Notified)} : call.Steps funcs stored result after →
      Stores funcs after calls results final → Stores funcs stored (call :: calls) (result :: results) final

def EveryTableCall (funcs : TableFuncs) (condition : HashTable → TableCall → Prop) : HashTable → List TableCall → Prop
  | _, [] => True
  | t, call :: calls =>
    condition t call ∧ ∀ answer log t', call.perform funcs t = some (answer, log, t') → EveryTableCall funcs condition t' calls

/-- One array holds keys and values only where they are the same, an array of integers holds only pointers of 32 bits,
and no entry changes when room is made for another one. -/
structure Lossless (t : HashTable) : Prop where
  widths : t.keys.big = t.haveBigKeys ∧ t.valueColumn.big = t.haveBigValues
  shared : t.values = none → ∀ entry ∈ t.contents, entry.2.1 = entry.2.2
  smallKeys : t.haveBigKeys = false → ∀ entry ∈ t.contents, entry.2.1.toNat < 2 ^ 32
  smallValues : t.haveBigValues = false → ∀ entry ∈ t.contents, entry.2.2.toNat < 2 ^ 32
  kept : ∀ i h key value, i < t.size → ∀ j, j ≠ i →
    ({ t with hashes := { t.hashes with cell := Function.update t.hashes.cell i h } }.ensureKeyvalFits key value).nodeAt j = t.nodeAt j

def ReadsBack (funcs : TableFuncs) (calls : List TableCall) : Prop :=
  ∃ new results t stored, newFull funcs = some new ∧ runTable funcs new calls = some (results, t) ∧
    Stores funcs [] calls results stored ∧ t.contents.Perm stored ∧ Lossless t

namespace HashTable

variable {funcs : TableFuncs} {t : HashTable} {n i : Nat} {slots : Nat → TableSlot} {key value : UInt64}

section Arrays

theorem lt_of_stored {v : UInt64} (fits : Column.stored false v = v) : v.toNat < 2 ^ 32 := by
  have same := congrArg UInt64.toNat fits
  rw [← same]
  exact UInt32.toNat_lt _

theorem Holds.fits (holds : t.Holds t.size slots) {entry : UInt32 × UInt64 × UInt64} (member : entry ∈ t.contents) :
    t.Fits entry.2.1 entry.2.2 := by
  rw [holds.contents] at member
  obtain ⟨i, inside, held⟩ := mem_entriesBelow.mp member
  exact (holds.entry i inside _ _ _ held).2.1

theorem Holds.nodeAt_beyond (holds : t.Holds t.size slots) (outside : t.size ≤ i) : t.nodeAt i = none := by
  have read : t.hashes.read i = none := if_neg (by rw [holds.hashLength]; exact Nat.not_lt.mpr outside)
  rw [HashTable.nodeAt, read]
  rfl

/-- Only the entry at the index whose hash is written may change. -/
theorem nodeAt_setHash (t : HashTable) (h : UInt32) {j : Nat} (other : j ≠ i) :
    { t with hashes := { t.hashes with cell := Function.update t.hashes.cell i h } }.nodeAt j = t.nodeAt j := by
  have read : ({ t.hashes with cell := Function.update t.hashes.cell i h } : Cells UInt32).read j = t.hashes.read j := by
    simp only [Cells.read, Function.update_of_ne other]
  simp only [HashTable.nodeAt, read]
  rfl

theorem Sound.lossless (sound : t.Sound n slots) : Lossless t := by
  have holds := sound.holds
  refine ⟨⟨holds.keyWidth, holds.valueWidth⟩, fun none entry member => ((holds.fits member).shared none).symm,
    fun small entry member => ?_, fun small entry member => ?_, fun i h key value inside j other => ?_⟩
  · have fits := (holds.fits member).keyStored
    rw [small] at fits
    exact lt_of_stored fits
  · have fits := (holds.fits member).valueStored
    rw [small] at fits
    exact lt_of_stored fits
  · have wider := holds.ensureKeyvalFits key value
    have same := ensureKeyvalFits_same t key value
    rw [ensureKeyvalFits_hashes, ← same.hashes, nodeAt_setHash _ h other]
    rw [← same.size] at wider
    rcases Nat.lt_or_ge j t.size with below | above
    · rw [holds.nodeAt below, wider.nodeAt (same.size.symm ▸ below)]
    · rw [holds.nodeAt_beyond above, wider.nodeAt_beyond (same.size.symm ▸ above)]

end Arrays

section Steps

/-- What a search finds in the table it finds among the entries. -/
theorem Sound.search (sound : t.Sound n slots) (inside : i < t.size) (looked : t.Looked funcs slots key i) :
    ((slots i).content = none ∧ StoredEntries.Search funcs (t.entries slots) key none (t.entries slots)) ∨
      ∃ k v, slots i = .real (realHash funcs key) (k, v) ∧
        StoredEntries.Search funcs (t.entries slots) key (some (realHash funcs key, k, v))
          (entriesBelow (Function.update slots i .tombstone) t.size) := by
  rcases looked with ⟨k, v, held, equal⟩ | ⟨empty, _, nowhere⟩
  · exact Or.inr ⟨k, v, held, .found (entriesBelow_take inside held) ⟨rfl, equal⟩⟩
  · refine Or.inl ⟨empty, .missing ?_⟩
    rintro ⟨h, k, v⟩ member ⟨hash, equal⟩
    obtain ⟨j, below, held⟩ := mem_entriesBelow.mp member
    subst hash
    rw [nowhere j k v held (sound.placed j below _ _ held)] at equal
    exact absurd equal Bool.false_ne_true

def Stepped (funcs : TableFuncs) (t : HashTable) (slots : Nat → TableSlot) (call : TableCall) : Prop :=
  ∃ answer log t' n' slots', call.perform funcs t = some (answer, log, t') ∧ t'.Sound n' slots' ∧
    call.Steps funcs (t.entries slots) (answer, log) (t'.entries slots')

/-- An insertion or a removal: `effect` tells what it does when its search has found an entry or none. -/
def Updates (funcs : TableFuncs) (t : HashTable) (slots : Nat → TableSlot) (key : UInt64)
    (effect : StoredEntries → Option (UInt32 × UInt64 × UInt64) → TableAnswer × List Notified × StoredEntries)
    (x : Option (Bool × List Notified × HashTable)) : Prop :=
  ∃ flag log t' n' slots' entry rest, x = some (flag, log, t') ∧ t'.Sound n' slots' ∧ StoredEntries.Search funcs (t.entries slots) key entry rest ∧
    (.flag flag, log) = ((effect rest entry).1, (effect rest entry).2.1) ∧ (t'.entries slots').Perm (effect rest entry).2.2

theorem insertInternal_step (sound : t.Sound n slots) (key value : UInt64) (keepNewKey : Bool)
    (fits : ∀ i h, t.lookupNode funcs key = some (i, h) → hashIsUnused (t.hashes.cell i) → (t.grown key value).Room) :
    t.Updates funcs slots key (fun rest entry => inserted funcs rest key value keepNewKey entry)
      (t.insertInternal funcs key value keepNewKey) := by
  obtain ⟨i, inside, found, looked, same⟩ := insertInternal_cases funcs sound key value keepNewKey
  rw [same]
  rcases sound.search inside looked with ⟨empty, search⟩ | ⟨k, v, held, search⟩
  · have reached : Reaches t.size slots (t.hashToIndex (realHash funcs key)) i := by
      rcases looked with ⟨_, _, held, _⟩ | ⟨_, reached, _⟩
      · rw [held] at empty
        exact absurd empty (Option.some_ne_none _)
      · exact reached
    have room : slots i = .unused → (t.grown key value).Room := by
      intro unused
      apply fits i _ found
      rw [hashIsUnused_slotHash sound.holds inside, unused]
      rfl
    obtain ⟨t', n', slots', result, sound', perm⟩ :=
      insertNode_new funcs sound inside empty reached (hashIsReal_realHash funcs key) key value keepNewKey false room
    exact ⟨true, [], t', n', slots', none, _, result, sound', search, rfl, perm⟩
  · obtain ⟨t', result, sound', size, _⟩ :=
      insertNode_existing funcs sound inside held (realHash funcs key) key value keepNewKey false
    refine ⟨false, _, t', n, _, some _, _, result, sound', search, rfl, ?_⟩
    rw [entries, size]
    exact entriesBelow_put inside slots _ _

theorem removeInternal_step (sound : t.Sound n slots) (key : UInt64) (notify : Bool) :
    t.Updates funcs slots key (fun rest entry => removed funcs rest notify entry) (t.removeInternal funcs key notify) := by
  obtain ⟨i, inside, looked, results⟩ := removeInternal_spec funcs sound key notify
  rcases sound.search inside looked with ⟨empty, search⟩ | ⟨k, v, held, search⟩
  · rcases results with ⟨_, missing⟩ | ⟨h, k, v, _, _, _, held, _⟩
    · exact ⟨false, [], t, n, slots, none, _, missing, sound, search, rfl, List.Perm.refl _⟩
    · rw [held] at empty
      exact absurd empty (Option.some_ne_none _)
  · rcases results with ⟨empty, _⟩ | ⟨h, k', v', t', n', slots', held', result, sound', perm⟩
    · rw [held] at empty
      exact absurd empty (Option.some_ne_none _)
    · obtain ⟨rfl, rfl, rfl⟩ : realHash funcs key = h ∧ k = k' ∧ v = v' := by simpa using held.symm.trans held'
      exact ⟨true, _, t', n', slots', some _, _, result, sound', search, rfl, perm⟩

theorem stealExtended_step (sound : t.Sound n slots) (key : UInt64) (wantKey wantValue : Bool)
    (alone : wantKey → wantValue → t.isASet → ∀ k v, t.lookupExtended funcs key = some (some (k, v)) → k = 0) :
    t.Stepped funcs slots (.stealExtended key wantKey wantValue) := by
  obtain ⟨i, inside, found, looked, results⟩ := stealExtended_spec funcs sound key wantKey wantValue
  rcases sound.search inside looked with ⟨empty, search⟩ | ⟨k, v, held, search⟩
  · rcases results with ⟨_, missing⟩ | ⟨h, k, v, _, _, _, held, _⟩
    · refine ⟨_, [], t, n, slots, by rw [TableCall.perform, missing]; rfl, sound, none, _, search, ⟨?_, List.Perm.refl _⟩,
        List.Perm.refl _⟩
      exact (rfl : TableAnswer.stolen _ _ _ = _)
    · rw [held] at empty
      exact absurd empty (Option.some_ne_none _)
  · rcases results with ⟨empty, _⟩ | ⟨h, k', v', t', n', slots', held', result, sound', perm⟩
    · rw [held] at empty
      exact absurd empty (Option.some_ne_none _)
    · obtain ⟨rfl, rfl, rfl⟩ : realHash funcs key = h ∧ k = k' ∧ v = v' := by simpa using held.symm.trans held'
      -- a set whose key is taken first gives back the value only if it is `NULL`
      have value : (if wantValue then some (if wantKey && t.isASet then 0 else v) else none) =
          if wantValue then some v else none := by
        obtain ⟨j, _, found', _, extended, _⟩ := lookups_spec funcs sound key
        obtain rfl : i = j := by simpa using found.symm.trans found'
        rw [held] at extended
        cases wantValue with
        | false => rfl
        | true =>
          cases both : wantKey && t.isASet with
          | false => rfl
          | true =>
            obtain ⟨first, set⟩ : wantKey = true ∧ t.isASet = true := by simpa using both
            have zero := alone first rfl set k v extended
            have same := (sound.holds.entry i inside _ _ _ held).2.1.shared (Option.isNone_iff_eq_none.mp set)
            rw [same, zero]
            rfl
      rw [value] at result
      refine ⟨_, [], t', n', slots', by rw [TableCall.perform, result]; rfl, sound', some _, _, search, ⟨?_, List.Perm.refl _⟩, perm⟩
      exact (rfl : TableAnswer.stolen _ _ _ = _)

theorem removeOrStealAll_step (sound : t.Sound n slots) (notify : Bool) :
    ∃ t' n' slots', unanswered (t.removeOrStealAll funcs notify) =
        some (.nothing, if notify then (t.entries slots).flatMap fun entry => destroyEntry funcs entry.2 else [], t') ∧
      t'.Sound n' slots' ∧ (t'.entries slots').Perm [] := by
  obtain ⟨t', n', slots', result, sound', empty⟩ := removeOrStealAll_spec funcs sound notify
  refine ⟨t', n', slots', by rw [result]; rfl, sound', ?_⟩
  rw [empty]

theorem foreachRemoveOrSteal_step (sound : t.Sound n slots) (func : UInt64 → UInt64 → Bool) (notify : Bool) :
    ∃ t' n' slots', (t.foreachRemoveOrSteal funcs func notify).map (fun (deleted, log, t) => (TableAnswer.number deleted, log, t)) =
        some ((filtered funcs (t.entries slots) func notify).1, (filtered funcs (t.entries slots) func notify).2.1, t') ∧
      t'.Sound n' slots' ∧ (t'.entries slots').Perm (filtered funcs (t.entries slots) func notify).2.2 := by
  obtain ⟨t', n', slots', result, sound', perm⟩ := foreachRemoveOrSteal_spec funcs func notify sound
  exact ⟨t', n', slots', by rw [result]; rfl, sound', perm⟩

/-- A loop whose caller looks at the key and the value. -/
theorem entriesBelow_stepSlot (choose : UInt64 → UInt64 → IterStep) (slots : Nat → TableSlot) (m : Nat) :
    entriesBelow (fun i => stepSlot choose (slots i)) m =
      (entriesBelow slots m).filterMap fun entry => entryAfter (choose entry.2.1 entry.2.2) entry := by
  induction m with
  | zero => rfl
  | succ m ih =>
    rw [entriesBelow_succ, entriesBelow_succ, ih, List.filterMap_append]
    congr 1
    cases slots m with
    | unused => rfl
    | tombstone => rfl
    | real h entry =>
      obtain ⟨key, value⟩ := entry
      rw [stepSlot_real, slotAfter_content, Slot.content_real]
      cases after : entryAfter (choose key value) (h, key, value) <;> simp [after]

theorem iterate_step (sound : t.Sound n slots) (choose : UInt64 → UInt64 → IterStep) :
    ∃ t' slots', t.iterate funcs choose = some ((t.entries slots).map Prod.snd,
        (t.entries slots).flatMap (fun entry => stepLog funcs choose entry.2), t') ∧ t'.Sound n slots' ∧
      t'.entries slots' = (t.entries slots).filterMap fun entry => entryAfter (choose entry.2.1 entry.2.2) entry := by
  obtain ⟨t', result, sound', size⟩ := iterate_spec funcs choose sound
  refine ⟨t', _, result, sound', ?_⟩
  rw [entries, size]
  exact entriesBelow_stepSlot choose slots t.size

theorem Updates.stepped {call : MapCall}
    {effect : StoredEntries → Option (UInt32 × UInt64 × UInt64) → TableAnswer × List Notified × StoredEntries}
    {x : Option (Bool × List Notified × HashTable)} (updates : t.Updates funcs slots key effect x)
    (performs : call.perform funcs t = flagged x) (keyed : call.key = some key)
    (outcome : ∀ rest entry, call.outcome funcs (t.entries slots) rest entry = effect rest entry) :
    t.Stepped funcs slots (.map call) := by
  obtain ⟨flag, log, t', n', slots', entry, rest, result, sound', search, answer, perm⟩ := updates
  refine ⟨.flag flag, log, t', n', slots', ?_, sound', entry, rest, ?_, ?_, ?_⟩
  · rw [TableCall.perform, performs, result]
    rfl
  · rw [TableCall.key, keyed]
    exact search
  · rw [TableCall.outcome, outcome, ← answer]
    exact ⟨rfl, List.Perm.refl _⟩
  · rw [TableCall.outcome, outcome]
    exact perm

theorem mapCall_step (sound : t.Sound n slots) (call : MapCall) (fits : call.Fits funcs t) :
    t.Stepped funcs slots (.map call) := by
  have search : ∀ key, ∃ entry rest, StoredEntries.Search funcs (t.entries slots) key entry rest ∧
      t.lookupExtended funcs key = some (entry.map Prod.snd) ∧
      t.lookup funcs key = some (entry.elim 0 fun entry => entry.2.2) ∧ t.contains funcs key = some entry.isSome := by
    intro key
    obtain ⟨i, inside, _, looked, results⟩ := lookups_spec funcs sound key
    rcases sound.search inside looked with ⟨empty, search⟩ | ⟨k, v, held, search⟩
    · rw [empty] at results
      exact ⟨none, _, search, results⟩
    · rw [held] at results
      exact ⟨some _, _, search, results⟩
  cases call with
  | insert key value => exact (insertInternal_step sound key value false fits).stepped rfl rfl fun _ _ => rfl
  | replace key value => exact (insertInternal_step sound key value true fits).stepped rfl rfl fun _ _ => rfl
  | add key => exact (insertInternal_step sound key key true fits).stepped rfl rfl fun _ _ => rfl
  | remove key => exact (removeInternal_step sound key true).stepped rfl rfl fun _ _ => rfl
  | steal key => exact (removeInternal_step sound key false).stepped rfl rfl fun _ _ => rfl
  | removeAll =>
    obtain ⟨t', n', slots', result, sound', empty⟩ := removeOrStealAll_step sound true
    exact ⟨_, _, t', n', slots', result, sound', none, _, ⟨rfl, rfl⟩, ⟨(rfl : TableAnswer.nothing = _), List.Perm.refl _⟩, empty⟩
  | lookup key =>
    obtain ⟨entry, rest, found, _, result, _⟩ := search key
    exact ⟨_, [], t, n, slots, congrArg (t.silent .pointer) result, sound, entry, rest, found,
      ⟨(rfl : TableAnswer.pointer _ = _), List.Perm.refl _⟩, List.Perm.refl _⟩
  | lookupExtended key =>
    obtain ⟨entry, rest, found, result, _⟩ := search key
    exact ⟨_, [], t, n, slots, congrArg (t.silent .entry) result, sound, entry, rest, found,
      ⟨(rfl : TableAnswer.entry _ = _), List.Perm.refl _⟩, List.Perm.refl _⟩
  | contains key =>
    obtain ⟨entry, rest, found, _, _, result⟩ := search key
    exact ⟨_, [], t, n, slots, congrArg (t.silent .flag) result, sound, entry, rest, found,
      ⟨(rfl : TableAnswer.flag _ = _), List.Perm.refl _⟩, List.Perm.refl _⟩
  | size =>
    exact ⟨_, [], t, n, slots, rfl, sound, none, _, ⟨rfl, rfl⟩, ⟨congrArg TableAnswer.number sound.nodes, List.Perm.refl _⟩,
      List.Perm.refl _⟩
  | foreach =>
    exact ⟨_, [], t, n, slots, congrArg (t.silent .entries) (foreach_eq sound), sound, none, _, ⟨rfl, rfl⟩,
      ⟨List.Perm.refl _, List.Perm.refl _⟩, List.Perm.refl _⟩
  | iteration =>
    obtain ⟨t', slots', result, sound', same⟩ := iterate_step sound fun _ _ => .keep
    have silent : (t.entries slots).flatMap (fun entry => stepLog funcs (fun _ _ => .keep) entry.2) = [] :=
      List.flatMap_eq_nil_iff.mpr fun entry _ => rfl
    rw [silent] at result
    refine ⟨.entries ((t.entries slots).map Prod.snd), [], t', n, slots', by rw [TableCall.perform, MapCall.perform, result]; rfl,
      sound', none, _, ⟨rfl, rfl⟩, ⟨List.Perm.refl _, List.Perm.refl _⟩, ?_⟩
    rw [same]
    exact List.Perm.of_eq List.filterMap_some

theorem tableCall_step (sound : t.Sound n slots) (call : TableCall) (undisturbed : call.Undisturbed funcs t) :
    t.Stepped funcs slots call := by
  cases call with
  | map call => exact mapCall_step sound call undisturbed
  | stealExtended key wantKey wantValue => exact stealExtended_step sound key wantKey wantValue undisturbed
  | stealAll =>
    obtain ⟨t', n', slots', result, sound', empty⟩ := removeOrStealAll_step sound false
    exact ⟨_, _, t', n', slots', result, sound', none, _, ⟨rfl, rfl⟩, ⟨(rfl : TableAnswer.nothing = _), List.Perm.refl _⟩, empty⟩
  | iterate choose =>
    obtain ⟨t', slots', result, sound', same⟩ := iterate_step sound choose
    exact ⟨.entries ((t.entries slots).map Prod.snd), _, t', n, slots', by rw [TableCall.perform, result]; rfl, sound', none, _,
      ⟨rfl, rfl⟩, ⟨List.Perm.refl _, List.Perm.refl _⟩, List.Perm.of_eq same⟩
  | foreachRemove func =>
    obtain ⟨t', n', slots', result, sound', perm⟩ := foreachRemoveOrSteal_step sound func true
    exact ⟨_, _, t', n', slots', result, sound', none, _, ⟨rfl, rfl⟩, ⟨(rfl : TableAnswer.number _ = _), List.Perm.refl _⟩, perm⟩
  | foreachSteal func =>
    obtain ⟨t', n', slots', result, sound', perm⟩ := foreachRemoveOrSteal_step sound func false
    exact ⟨_, _, t', n', slots', result, sound', none, _, ⟨rfl, rfl⟩, ⟨(rfl : TableAnswer.number _ = _), List.Perm.refl _⟩, perm⟩

theorem runTable_stores {calls : List TableCall} (sound : t.Sound n slots)
    (undisturbed : EveryTableCall funcs (fun t call => call.Undisturbed funcs t) t calls) :
    ∃ results t' n' slots', runTable funcs t calls = some (results, t') ∧ t'.Sound n' slots' ∧
      Stores funcs (t.entries slots) calls results (t'.entries slots') := by
  induction calls generalizing t n slots with
  | nil => exact ⟨[], t, n, slots, rfl, sound, .nil⟩
  | cons call calls ih =>
    obtain ⟨first, rest⟩ := undisturbed
    obtain ⟨answer, log, t₁, n₁, slots₁, performed, sound₁, step⟩ := tableCall_step sound call first
    obtain ⟨results, t', n', slots', ran, sound', stores⟩ := ih sound₁ (rest answer log t₁ performed)
    refine ⟨(answer, log) :: results, t', n', slots', ?_, sound', .cons step stores⟩
    simp only [runTable, performed, ran, some_bind]

end Steps

end HashTable

/-- A run that does not outgrow the table, and takes no key and value out of a set together, reads back what it has stored. -/
theorem runTable_readsBack (funcs : TableFuncs) (calls : List TableCall)
    (undisturbed : ∀ new, newFull funcs = some new → EveryTableCall funcs (fun t call => call.Undisturbed funcs t) new calls) :
    ReadsBack funcs calls := by
  obtain ⟨new, created, sound⟩ := newFull_spec funcs
  obtain ⟨results, t, n, slots, ran, sound', stores⟩ := runTable_stores sound (undisturbed new created)
  have empty : new.entries (fun _ => .unused) = [] := entriesBelow_unused _
  rw [empty] at stores
  exact ⟨new, results, t, _, created, ran, stores, List.Perm.of_eq sound'.holds.contents, sound'.lossless⟩

/-- A key is stolen with its value, which has made a map of the set. -/
theorem runTable_readsBack_sample : ReadsBack directFuncs [.map (.insert 6 7), .stealExtended 6 true true] := by
  apply runTable_readsBack
  intro new created
  obtain rfl := Option.some.inj created
  refine ⟨fun _ _ _ _ wants => absurd wants (by decide), fun _ _ _ first => ⟨?_, fun _ _ _ _ => trivial⟩⟩
  obtain rfl := congrArg (fun result => result.2.2) (Option.some.inj first)
  exact fun _ _ set => absurd set (by decide)

/-- The value of an element of a set is `NULL` when it is stolen together with the key. -/
theorem readsBack_stolen : ¬∀ (funcs : TableFuncs) (calls : List TableCall), ReadsBack funcs calls := by
  intro claim
  obtain ⟨new, results, t, stored, created, ran, stores, _⟩ :=
    claim directFuncs [.map (.add 5), .stealExtended 5 true true]
  obtain rfl := Option.some.inj created
  have answers : [(TableAnswer.flag true, []), (.stolen true (some 5) (some 0), [])] = results :=
    congrArg Prod.fst (Option.some.inj ran)
  subst answers
  obtain _ | ⟨first, rest⟩ := stores
  obtain _ | ⟨second, _⟩ := rest
  obtain ⟨_, _, search, _, perm⟩ := first
  cases search with
  | found none _ => exact absurd none.length_eq (Nat.zero_ne_add_one _)
  | missing _ =>
    obtain rfl := List.perm_singleton.mp perm
    obtain ⟨_, _, search, ⟨answer, _⟩, _⟩ := second
    cases search with
    | missing none => exact none _ (List.mem_singleton_self _) ⟨rfl, directFuncs_consistent.refl 5⟩
    | found only _ =>
      obtain ⟨rfl, rfl⟩ := List.cons.inj (List.perm_singleton.mp only.symm)
      exact absurd answer (by
        show ¬TableAnswer.stolen true (some 5) (some 0) = .stolen true (some 5) (some 5)
        simp)

end Xpl.Collections
