import Xpl.Collections.HashTableCalls

/-! Hash tables as finite maps.

The abstract map is the list of its entries in any order. A key stands for all keys that are
equal to it.
-/

set_option autoImplicit false

namespace Xpl.Collections
open Xpl.Library HashTable

/-- The equality is an equivalence, and equal keys have the same hash. -/
structure TableFuncs.Consistent (funcs : TableFuncs) : Prop where
  refl : ∀ key, funcs.equal key key
  symm : ∀ key other, funcs.equal key other → funcs.equal other key
  trans : ∀ key other third, funcs.equal key other → funcs.equal other third → funcs.equal key third
  hash : ∀ key other, funcs.equal key other → funcs.hash key = funcs.hash other

abbrev MapEntries := List (UInt64 × UInt64)

namespace MapEntries

variable (funcs : TableFuncs) (entries : MapEntries) (key : UInt64)

def find : Option (UInt64 × UInt64) := entries.find? fun entry => funcs.equal entry.1 key

def others : MapEntries := entries.filter fun entry => !funcs.equal entry.1 key

/-- Whether the key is new, the keys and values that are discarded, and the map. -/
def insert (value : UInt64) : TableAnswer × List Notified × MapEntries :=
  match find funcs entries key with
  | none => (.flag true, [], (key, value) :: entries)
  | some (stored, old) =>
    (.flag false, funcs.destroyKey key ++ funcs.destroyValue old, (stored, value) :: others funcs entries key)

def replace (value : UInt64) : TableAnswer × List Notified × MapEntries :=
  match find funcs entries key with
  | none => (.flag true, [], (key, value) :: entries)
  | some (stored, old) =>
    (.flag false, funcs.destroyKey stored ++ funcs.destroyValue old, (key, value) :: others funcs entries key)

def remove (notify : Bool) : TableAnswer × List Notified × MapEntries :=
  match find funcs entries key with
  | none => (.flag false, [], entries)
  | some (stored, old) =>
    (.flag true, if notify then funcs.destroyKey stored ++ funcs.destroyValue old else [], others funcs entries key)

end MapEntries

/-- The call as an operation on the map; `NULL` is the value of a key that it does not have. -/
def MapCall.effect (funcs : TableFuncs) (entries : MapEntries) : MapCall → TableAnswer × List Notified × MapEntries
  | insert key value => entries.insert funcs key value
  | replace key value => entries.replace funcs key value
  | add key => entries.replace funcs key key
  | remove key => entries.remove funcs key true
  | steal key => entries.remove funcs key false
  | removeAll => (.nothing, entries.flatMap fun entry => funcs.destroyKey entry.1 ++ funcs.destroyValue entry.2, [])
  | lookup key => (.pointer ((entries.find funcs key).elim 0 Prod.snd), [], entries)
  | lookupExtended key => (.entry (entries.find funcs key), [], entries)
  | contains key => (.flag (entries.find funcs key).isSome, [], entries)
  | size => (.number entries.length, [], entries)
  | foreach => (.entries entries, [], entries)
  | iteration => (.entries entries, [], entries)

def mapEffects (funcs : TableFuncs) (entries : MapEntries) : List MapCall → MapEntries × List (TableAnswer × List Notified)
  | [] => (entries, [])
  | call :: calls =>
    ((mapEffects funcs (call.effect funcs entries).2.2 calls).1,
      ((call.effect funcs entries).1, (call.effect funcs entries).2.1) :: (mapEffects funcs (call.effect funcs entries).2.2 calls).2)

/-- Entries are visited in any order. -/
def AnswersAgree : TableAnswer → TableAnswer → Prop
  | .entries visited, .entries entries => visited.Perm entries
  | answer, other => answer = other

def ResultsAgree (result other : TableAnswer × List Notified) : Prop :=
  AnswersAgree result.1 other.1 ∧ result.2.Perm other.2

/-- An insertion does not make the table grow beyond what can be allocated. -/
def MapCall.Fits (funcs : TableFuncs) (t : HashTable) : MapCall → Prop
  | insert key value | replace key value =>
    ∀ i h, t.lookupNode funcs key = some (i, h) → hashIsUnused (t.hashes.cell i) → (t.grown key value).Room
  | add key => ∀ i h, t.lookupNode funcs key = some (i, h) → hashIsUnused (t.hashes.cell i) → (t.grown key key).Room
  | _ => True

/-- Every call of the run meets the condition in the table on which it is made. -/
def EveryMapCall (funcs : TableFuncs) (condition : HashTable → MapCall → Prop) : HashTable → List MapCall → Prop
  | _, [] => True
  | t, call :: calls =>
    condition t call ∧ ∀ answer log t', call.perform funcs t = some (answer, log, t') → EveryMapCall funcs condition t' calls

/-- The run on a new table answers, and calls the destroy functions, as the map does. -/
def RefinesMap (funcs : TableFuncs) (calls : List MapCall) : Prop :=
  ∃ new results t, HashTable.newFull funcs = some new ∧ runTable funcs new (calls.map .map) = some (results, t) ∧
    List.Forall₂ ResultsAgree results (mapEffects funcs [] calls).2 ∧ t.nnodes = (mapEffects funcs [] calls).1.length

section Entries

variable {funcs : TableFuncs} {key : UInt64} {entries rest : MapEntries} {stored old : UInt64}

/-- No two entries have equal keys. -/
def Distinct (funcs : TableFuncs) (entries : MapEntries) : Prop :=
  entries.Pairwise fun entry other => funcs.equal entry.1 other.1 = false

theorem TableFuncs.Consistent.comm (consistent : funcs.Consistent) (key other : UInt64) :
    funcs.equal key other = funcs.equal other key :=
  Bool.eq_iff_iff.mpr ⟨consistent.symm key other, consistent.symm other key⟩

theorem TableFuncs.Consistent.congr (consistent : funcs.Consistent) {key other : UInt64} (same : funcs.equal key other)
    (third : UInt64) : funcs.equal third key = funcs.equal third other :=
  Bool.eq_iff_iff.mpr ⟨fun first => consistent.trans _ _ _ first same,
    fun first => consistent.trans _ _ _ first (consistent.symm _ _ same)⟩

theorem Distinct.perm (consistent : funcs.Consistent) {other : MapEntries} (distinct : Distinct funcs entries)
    (perm : entries.Perm other) : Distinct funcs other := by
  refine (perm.pairwise_iff fun {x y} differ => ?_).mp distinct
  rw [consistent.comm]
  exact differ

theorem find_of_perm (consistent : funcs.Consistent) (distinct : Distinct funcs entries)
    (perm : entries.Perm ((stored, old) :: rest)) (equal : funcs.equal stored key) :
    entries.find funcs key = some (stored, old) ∧ (entries.others funcs key).Perm rest := by
  have apart := (List.pairwise_cons.mp (distinct.perm consistent perm)).1
  have differ : ∀ entry ∈ rest, funcs.equal entry.1 key = false := by
    intro entry member
    rw [← consistent.congr equal, consistent.comm]
    exact apart entry member
  have filtered : ∀ accepts : UInt64 × UInt64 → Bool, (entries.filter accepts).Perm (((stored, old) :: rest).filter accepts) :=
    fun accepts => perm.filter accepts
  constructor
  · have only := filtered fun entry => funcs.equal entry.1 key
    have none : rest.filter (fun entry => funcs.equal entry.1 key) = [] := by
      apply List.filter_eq_nil_iff.mpr
      intro entry member
      rw [differ entry member]
      exact Bool.false_ne_true
    have head : ((stored, old) :: rest).filter (fun entry => funcs.equal entry.1 key) = [(stored, old)] := by
      rw [List.filter_cons, if_pos equal, none]
    rw [head] at only
    unfold MapEntries.find
    rw [← List.head?_filter, List.perm_singleton.mp only]
    rfl
  · have out := filtered fun entry => !funcs.equal entry.1 key
    have all : rest.filter (fun entry => !funcs.equal entry.1 key) = rest := by
      apply List.filter_eq_self.mpr
      intro entry member
      rw [differ entry member]
      rfl
    have tail : ((stored, old) :: rest).filter (fun entry => !funcs.equal entry.1 key) = rest := by
      rw [List.filter_cons, if_neg (by simp [equal]), all]
    rw [tail] at out
    exact out

theorem find_of_missing (missing : ∀ entry ∈ entries, funcs.equal entry.1 key = false) : entries.find funcs key = none := by
  apply List.find?_eq_none.mpr
  intro entry member
  rw [missing entry member]
  exact Bool.false_ne_true

end Entries

section Refinement

variable {funcs : TableFuncs} {t : HashTable} {n : Nat} {slots : Nat → TableSlot} {entries : MapEntries} {key value : UInt64}

structure HoldsMap (funcs : TableFuncs) (t : HashTable) (n : Nat) (slots : Nat → TableSlot) (entries : MapEntries) : Prop where
  sound : t.Sound n slots
  perm : ((t.entries slots).map Prod.snd).Perm entries
  hashes : ∀ entry ∈ t.entries slots, entry.1 = realHash funcs entry.2.1
  distinct : Distinct funcs entries

theorem TableFuncs.Consistent.realHash (consistent : funcs.Consistent) {other : UInt64} (same : funcs.equal key other) :
    HashTable.realHash funcs key = HashTable.realHash funcs other := by
  unfold HashTable.realHash
  rw [consistent.hash key other same]

theorem distinct_missing (consistent : funcs.Consistent) (distinct : Distinct funcs entries)
    (missing : ∀ entry ∈ entries, funcs.equal entry.1 key = false) (value : UInt64) : Distinct funcs ((key, value) :: entries) := by
  refine List.pairwise_cons.mpr ⟨fun entry member => ?_, distinct⟩
  rw [consistent.comm]
  exact missing entry member

/-- The key is in the table, at an index that the search finds. -/
structure Present (funcs : TableFuncs) (t : HashTable) (slots : Nat → TableSlot) (entries : MapEntries) (key : UInt64) (i : Nat)
    (stored old : UInt64) (rest : List (UInt32 × UInt64 × UInt64)) : Prop where
  held : slots i = .real (realHash funcs key) (stored, old)
  equal : funcs.equal stored key
  without : (entriesBelow (Function.update slots i .tombstone) t.size).Perm rest
  find : entries.find funcs key = some (stored, old)
  others : (entries.others funcs key).Perm (rest.map Prod.snd)
  hashes : ∀ entry ∈ rest, entry.1 = realHash funcs entry.2.1
  missing : ∀ entry ∈ rest, funcs.equal entry.2.1 key = false

/-- The key is not in the table, which has a slot for it. -/
structure Absent (funcs : TableFuncs) (t : HashTable) (slots : Nat → TableSlot) (entries : MapEntries) (key : UInt64) (i : Nat) :
    Prop where
  empty : (slots i).content = none
  reached : Reaches t.size slots (t.hashToIndex (realHash funcs key)) i
  missing : ∀ entry ∈ entries, funcs.equal entry.1 key = false

theorem HoldsMap.looked (consistent : funcs.Consistent) (represents : HoldsMap funcs t n slots entries) {i : Nat}
    (inside : i < t.size) (looked : t.Looked funcs slots key i) :
    (∃ stored old rest, Present funcs t slots entries key i stored old rest) ∨ Absent funcs t slots entries key i := by
  rcases looked with ⟨stored, old, held, equal⟩ | ⟨empty, reached, nowhere⟩
  · left
    have perm := (entriesBelow_take inside held).symm
    have pairs := (perm.map Prod.snd).trans represents.perm
    obtain ⟨find, others⟩ := find_of_perm consistent represents.distinct pairs.symm equal
    refine ⟨stored, old, _, held, equal, List.Perm.refl _, find, others, fun entry member => ?_, fun entry member => ?_⟩
    · exact represents.hashes entry (perm.subset (List.mem_cons_of_mem _ member))
    · have apart := (List.pairwise_cons.mp (represents.distinct.perm consistent pairs.symm)).1 entry.2 (List.mem_map_of_mem member)
      rw [← consistent.congr equal, consistent.comm]
      exact apart
  · right
    refine ⟨empty, reached, fun entry member => ?_⟩
    obtain ⟨⟨h, k, v⟩, inTable, rfl⟩ := List.mem_map.mp (represents.perm.symm.subset member)
    obtain ⟨j, below, held⟩ := mem_entriesBelow.mp inTable
    have hash : h = realHash funcs k := represents.hashes _ inTable
    by_contra same
    rw [Bool.not_eq_false] at same
    have code : h = realHash funcs key := hash.trans (consistent.realHash same)
    subst code
    rw [nowhere j k v held (represents.sound.placed j below _ _ held)] at same
    exact absurd same Bool.false_ne_true

theorem Present.update {i : Nat} {stored old : UInt64} {rest : List (UInt32 × UInt64 × UInt64)} (inside : i < t.size)
    (present : Present funcs t slots entries key i stored old rest) (k v : UInt64) :
    (entriesBelow (Function.update slots i (.real (realHash funcs key) (k, v))) t.size).Perm ((realHash funcs key, k, v) :: rest) := by
  exact (entriesBelow_put inside slots _ _).trans (present.without.cons _)

theorem represents_cons (consistent : funcs.Consistent) {rest : List (UInt32 × UInt64 × UInt64)} {others : MapEntries}
    {k v : UInt64} (sound : t.Sound n slots) (perm : (t.entries slots).Perm ((realHash funcs key, k, v) :: rest))
    (same : funcs.equal k key) (pairs : others.Perm (rest.map Prod.snd)) (distinct : Distinct funcs others)
    (hashes : ∀ entry ∈ rest, entry.1 = realHash funcs entry.2.1) (missing : ∀ entry ∈ rest, funcs.equal entry.2.1 key = false) :
    HoldsMap funcs t n slots ((k, v) :: others) := by
  refine ⟨sound, (perm.map Prod.snd).trans (pairs.symm.cons _), fun entry member => ?_, ?_⟩
  · rcases List.mem_cons.mp (perm.subset member) with rfl | inRest
    · exact (consistent.realHash same).symm
    · exact hashes entry inRest
  · apply distinct_missing consistent distinct
    intro entry member
    obtain ⟨full, inRest, rfl⟩ := List.mem_map.mp (pairs.subset member)
    rw [consistent.congr same]
    exact missing full inRest

theorem distinct_others (distinct : Distinct funcs entries) (key : UInt64) : Distinct funcs (entries.others funcs key) :=
  distinct.filter _

attribute [local simp] MapEntries.replace MapEntries.insert MapEntries.remove

theorem insertInternal_simulates (consistent : funcs.Consistent) (represents : HoldsMap funcs t n slots entries)
    (key value : UInt64) (keepNewKey : Bool)
    (fits : ∀ i h, t.lookupNode funcs key = some (i, h) → hashIsUnused (t.hashes.cell i) → (t.grown key value).Room) :
    ∃ flag log t' n' slots', t.insertInternal funcs key value keepNewKey = some (flag, log, t') ∧
      HoldsMap funcs t' n' slots'
        (if keepNewKey then entries.replace funcs key value else entries.insert funcs key value).2.2 ∧
      (if keepNewKey then entries.replace funcs key value else entries.insert funcs key value).1 = .flag flag ∧
      (if keepNewKey then entries.replace funcs key value else entries.insert funcs key value).2.1 = log := by
  have sound := represents.sound
  obtain ⟨i, inside, found, looked, same⟩ := insertInternal_cases funcs sound key value keepNewKey
  rw [same]
  rcases represents.looked consistent inside looked with ⟨stored, old, rest, present⟩ | absent
  · obtain ⟨t', inserted, sound', size, _⟩ :=
      insertNode_existing funcs sound inside present.held (realHash funcs key) key value keepNewKey false
    have update := present.update inside (if keepNewKey then key else stored) value
    rw [← size] at update
    have equal : funcs.equal (if keepNewKey then key else stored) key := by
      cases keepNewKey with
      | true => exact consistent.refl key
      | false => exact present.equal
    have holds := represents_cons consistent sound' update equal present.others
      (distinct_others represents.distinct key) present.hashes present.missing
    refine ⟨false, _, t', n,
      Function.update slots i (.real (realHash funcs key) (if keepNewKey then key else stored, value)), inserted, ?_, ?_, ?_⟩
    · cases keepNewKey with
      | true => simpa [present.find] using holds
      | false => simpa [present.find] using holds
    · cases keepNewKey <;> simp [present.find]
    · cases keepNewKey <;> simp [present.find]
  · have room : slots i = .unused → (t.grown key value).Room := by
      intro unused
      apply fits i _ found
      rw [hashIsUnused_slotHash sound.holds inside, unused]
      rfl
    obtain ⟨t', n', slots', inserted, sound', perm⟩ :=
      insertNode_new funcs sound inside absent.empty absent.reached (hashIsReal_realHash funcs key) key value keepNewKey false room
    have find := find_of_missing absent.missing
    have missing : ∀ entry ∈ t.entries slots, funcs.equal entry.2.1 key = false := fun entry member =>
      absent.missing entry.2 (represents.perm.subset (List.mem_map_of_mem member))
    have holds := represents_cons consistent sound' perm (consistent.refl key) represents.perm.symm represents.distinct
      represents.hashes missing
    refine ⟨true, [], t', n', slots', inserted, ?_, ?_, ?_⟩
    · cases keepNewKey <;> simpa [find] using holds
    · cases keepNewKey <;> simp [find]
    · cases keepNewKey <;> simp [find]

theorem removeInternal_simulates (consistent : funcs.Consistent) (represents : HoldsMap funcs t n slots entries)
    (key : UInt64) (notify : Bool) :
    ∃ flag log t' n' slots', t.removeInternal funcs key notify = some (flag, log, t') ∧
      HoldsMap funcs t' n' slots' (entries.remove funcs key notify).2.2 ∧
      (entries.remove funcs key notify).1 = .flag flag ∧ (entries.remove funcs key notify).2.1 = log := by
  obtain ⟨i, inside, looked, results⟩ := removeInternal_spec funcs represents.sound key notify
  rcases represents.looked consistent inside looked with ⟨stored, old, rest, present⟩ | absent
  · rcases results with ⟨empty, _⟩ | ⟨h, k, v, t', n', slots', held, removed, sound', perm⟩
    · rw [present.held] at empty
      exact absurd empty (Option.some_ne_none _)
    · obtain ⟨_, rfl, rfl⟩ : realHash funcs key = h ∧ stored = k ∧ old = v := by simpa using present.held.symm.trans held
      have left := perm.trans present.without
      refine ⟨true, _, t', n', slots', removed, ?_, ?_, ?_⟩
      · simp only [MapEntries.remove, present.find]
        exact ⟨sound', (left.map Prod.snd).trans present.others.symm, fun entry member => present.hashes entry (left.subset member),
          distinct_others represents.distinct key⟩
      · simp [present.find]
      · simp [present.find]
  · have find := find_of_missing absent.missing
    rcases results with ⟨_, missing⟩ | ⟨h, k, v, t', n', slots', held, _⟩
    · refine ⟨false, [], t, n, slots, missing, ?_, ?_, ?_⟩
      · simpa [find] using represents
      · simp [find]
      · simp [find]
    · have empty := absent.empty
      rw [held] at empty
      exact absurd empty (Option.some_ne_none _)

/-- The searches that change nothing. -/
theorem lookups_simulate (consistent : funcs.Consistent) (represents : HoldsMap funcs t n slots entries) (key : UInt64) :
    t.lookupExtended funcs key = some (entries.find funcs key) ∧
      t.lookup funcs key = some ((entries.find funcs key).elim 0 Prod.snd) ∧
      t.contains funcs key = some (entries.find funcs key).isSome := by
  obtain ⟨i, inside, _, looked, extended, value, contained⟩ := lookups_spec funcs represents.sound key
  rw [extended, value, contained]
  rcases represents.looked consistent inside looked with ⟨stored, old, rest, present⟩ | absent
  · rw [present.held, present.find]
    exact ⟨rfl, rfl, rfl⟩
  · rw [absent.empty, find_of_missing absent.missing]
    exact ⟨rfl, rfl, rfl⟩

theorem simulates_map (consistent : funcs.Consistent) (represents : HoldsMap funcs t n slots entries) (call : MapCall)
    (fits : call.Fits funcs t) :
    ∃ answer log t' n' slots', call.perform funcs t = some (answer, log, t') ∧
      ResultsAgree (answer, log) ((call.effect funcs entries).1, (call.effect funcs entries).2.1) ∧
      HoldsMap funcs t' n' slots' (call.effect funcs entries).2.2 := by
  obtain ⟨lookedExtended, looked, contained⟩ : (∀ key, t.lookupExtended funcs key = some (entries.find funcs key)) ∧
      (∀ key, t.lookup funcs key = some ((entries.find funcs key).elim 0 Prod.snd)) ∧
      ∀ key, t.contains funcs key = some (entries.find funcs key).isSome :=
    ⟨fun key => (lookups_simulate consistent represents key).1, fun key => (lookups_simulate consistent represents key).2.1,
      fun key => (lookups_simulate consistent represents key).2.2⟩
  cases call with
  | insert key value =>
    obtain ⟨flag, log, t', n', slots', result, holds, answer, calls⟩ :=
      insertInternal_simulates consistent represents key value false fits
    exact ⟨.flag flag, log, t', n', slots', congrArg flagged result, ⟨answer.symm, calls ▸ List.Perm.refl _⟩, holds⟩
  | replace key value =>
    obtain ⟨flag, log, t', n', slots', result, holds, answer, calls⟩ :=
      insertInternal_simulates consistent represents key value true fits
    exact ⟨.flag flag, log, t', n', slots', congrArg flagged result, ⟨answer.symm, calls ▸ List.Perm.refl _⟩, holds⟩
  | add key =>
    obtain ⟨flag, log, t', n', slots', result, holds, answer, calls⟩ :=
      insertInternal_simulates consistent represents key key true fits
    exact ⟨.flag flag, log, t', n', slots', congrArg flagged result, ⟨answer.symm, calls ▸ List.Perm.refl _⟩, holds⟩
  | remove key =>
    obtain ⟨flag, log, t', n', slots', result, holds, answer, calls⟩ := removeInternal_simulates consistent represents key true
    exact ⟨.flag flag, log, t', n', slots', congrArg flagged result, ⟨answer.symm, calls ▸ List.Perm.refl _⟩, holds⟩
  | steal key =>
    obtain ⟨flag, log, t', n', slots', result, holds, answer, calls⟩ := removeInternal_simulates consistent represents key false
    exact ⟨.flag flag, log, t', n', slots', congrArg flagged result, ⟨answer.symm, calls ▸ List.Perm.refl _⟩, holds⟩
  | removeAll =>
    obtain ⟨t', n', slots', result, sound', empty⟩ := removeOrStealAll_spec funcs represents.sound true
    refine ⟨.nothing, _, t', n', slots', congrArg unanswered result, ⟨rfl, ?_⟩, sound', ?_, ?_, List.Pairwise.nil⟩
    · rw [if_pos rfl, ← List.flatMap_map Prod.snd (destroyEntry funcs)]
      exact represents.perm.flatMap_right _
    · rw [empty]
      exact List.Perm.refl _
    · rw [empty]
      exact fun entry member => absurd member List.not_mem_nil
  | lookup key =>
    exact ⟨.pointer _, [], t, n, slots, congrArg (t.silent .pointer) (looked key), ⟨rfl, List.Perm.refl _⟩, represents⟩
  | lookupExtended key =>
    exact ⟨.entry _, [], t, n, slots, congrArg (t.silent .entry) (lookedExtended key), ⟨rfl, List.Perm.refl _⟩, represents⟩
  | contains key =>
    exact ⟨.flag _, [], t, n, slots, congrArg (t.silent .flag) (contained key), ⟨rfl, List.Perm.refl _⟩, represents⟩
  | size =>
    refine ⟨_, [], t, n, slots, rfl, ⟨congrArg TableAnswer.number ?_, List.Perm.refl _⟩, represents⟩
    rw [represents.sound.nodes, ← represents.perm.length_eq, List.length_map]
    rfl
  | foreach =>
    exact ⟨.entries _, [], t, n, slots, congrArg (t.silent .entries) (foreach_eq represents.sound),
      ⟨represents.perm, List.Perm.refl _⟩, represents⟩
  | iteration =>
    obtain ⟨t', result, sound', size⟩ := iterate_spec funcs (fun _ _ => .keep) represents.sound
    have same : (fun i => stepSlot (fun _ _ => .keep) (slots i)) = slots := by
      funext i
      cases slots i <;> rfl
    -- an iteration that keeps everything calls no destroy function
    have silent : (t.entries slots).flatMap (fun entry => stepLog funcs (fun _ _ => .keep) entry.2) = [] :=
      List.flatMap_eq_nil_iff.mpr fun entry _ => rfl
    rw [same] at sound'
    have kept : t'.entries slots = t.entries slots := by rw [HashTable.entries, size]; rfl
    refine ⟨.entries ((t.entries slots).map Prod.snd), _, t', n, slots, by rw [MapCall.perform, result]; rfl,
      ⟨represents.perm, ?_⟩, sound', ?_, ?_, represents.distinct⟩
    · rw [silent]
      exact List.Perm.refl _
    · rw [kept]
      exact represents.perm
    · rw [kept]
      exact represents.hashes

theorem runTable_simulates (consistent : funcs.Consistent) {calls : List MapCall} (represents : HoldsMap funcs t n slots entries)
    (fits : EveryMapCall funcs (fun t call => call.Fits funcs t) t calls) :
    ∃ results t', runTable funcs t (calls.map .map) = some (results, t') ∧
      List.Forall₂ ResultsAgree results (mapEffects funcs entries calls).2 ∧
      t'.nnodes = (mapEffects funcs entries calls).1.length := by
  induction calls generalizing t n slots entries with
  | nil =>
    refine ⟨[], t, rfl, List.Forall₂.nil, ?_⟩
    rw [represents.sound.nodes, mapEffects, ← represents.perm.length_eq, List.length_map]
    rfl
  | cons call calls ih =>
    obtain ⟨first, rest⟩ := fits
    obtain ⟨answer, log, t₁, n₁, slots₁, performed, agree, represents₁⟩ := simulates_map consistent represents call first
    obtain ⟨results, t', ran, agrees, nnodes⟩ := ih represents₁ (rest answer log t₁ performed)
    refine ⟨(answer, log) :: results, t', ?_, List.Forall₂.cons agree agrees, nnodes⟩
    simp only [List.map_cons, runTable, TableCall.perform, performed, ran, some_bind]

end Refinement

/-- A run whose insertions do not outgrow the table refines the map. -/
theorem runTable_refines (funcs : TableFuncs) (consistent : funcs.Consistent) (calls : List MapCall)
    (fits : ∀ new, HashTable.newFull funcs = some new →
      EveryMapCall funcs (fun t call => call.Fits funcs t) new calls) :
    RefinesMap funcs calls := by
  obtain ⟨new, created, sound⟩ := newFull_spec funcs
  have represents : HoldsMap funcs new hashTableMinShift (fun _ => .unused) [] := by
    have empty : new.entries (fun _ => .unused) = [] := entriesBelow_unused _
    refine ⟨sound, ?_, ?_, List.Pairwise.nil⟩
    · rw [empty]
      exact List.Perm.refl _
    · rw [empty]
      exact fun entry member => absurd member List.not_mem_nil
  obtain ⟨results, t, ran, agrees, nnodes⟩ := runTable_simulates consistent represents (fits new created)
  exact ⟨new, results, t, created, ran, agrees, nnodes⟩

/-- A key that is compared by a function of its own. -/
theorem runTable_refines_sample :
    RefinesMap
      { hashFunc := some fun key => (key % 16).toUInt32
        keyEqualFunc := some fun key other => key % 16 == other % 16
        keyDestroyFunc := true
        valueDestroyFunc := true
        small := false }
      [.insert 1 2, .lookup 17, .steal 33] := by
  apply runTable_refines
  · refine ⟨fun key => ?_, fun key other => ?_, fun key other third => ?_, fun key other same => ?_⟩
    · simp [TableFuncs.equal]
    · simpa [TableFuncs.equal] using Eq.symm
    · simpa [TableFuncs.equal] using Eq.trans
    · have equal : key % 16 = other % 16 := by simpa [TableFuncs.equal] using same
      simp [TableFuncs.hash, equal]
  · intro new created
    have fresh := Option.some.inj created
    subst fresh
    refine ⟨fun _ _ _ _ wants => absurd wants (by decide), fun _ _ _ _ => ⟨trivial, fun _ _ _ _ => ⟨trivial, fun _ _ _ _ => trivial⟩⟩⟩

/-- Integers as keys, compared as pointers. -/
def directFuncs : TableFuncs :=
  { hashFunc := none, keyEqualFunc := none, keyDestroyFunc := false, valueDestroyFunc := false, small := true }

theorem directFuncs_consistent : directFuncs.Consistent where
  refl key := by simp [directFuncs, TableFuncs.equal]
  symm key other := by simpa [directFuncs, TableFuncs.equal] using Eq.symm
  trans key other third := by simpa [directFuncs, TableFuncs.equal] using Eq.trans
  hash key other := by
    intro same
    have equal : key = other := by simpa [directFuncs, TableFuncs.equal] using same
    rw [equal]

theorem HashTable.Sound.few {t : HashTable} {n : Nat} {slots : Nat → TableSlot} (sound : t.Sound n slots) : t.nnodes < 2 ^ 29 := by
  have reals : t.nnodes ≤ t.noccupied := by
    rw [sound.nodes, sound.occupied]
    exact realsBelow_le
  have load := sound.load
  have size : t.size ≤ 2 ^ 29 := sound.geometric.size ▸ Nat.pow_le_pow_right Nat.two_pos sound.geometric.small
  omega

theorem mapEffects_inserts (count : Nat) {first : Nat} {entries : MapEntries} (room : first + count ≤ 2 ^ 64)
    (below : ∀ entry ∈ entries, entry.1.toNat < first) :
    (mapEffects directFuncs entries ((List.range' first count).map fun i => .insert (UInt64.ofNat i) 0)).1.length =
      entries.length + count := by
  induction count generalizing first entries with
  | zero => rfl
  | succ count ih =>
    have number : (UInt64.ofNat first).toNat = first := by
      exact Nat.mod_eq_of_lt (by omega)
    have find : entries.find directFuncs (UInt64.ofNat first) = none := by
      apply find_of_missing
      intro entry member
      have := below entry member
      simp only [directFuncs, TableFuncs.equal, beq_eq_false_iff_ne]
      intro same
      rw [same, number] at this
      omega
    rw [List.range'_succ, List.map_cons, mapEffects]
    simp only [MapCall.effect, MapEntries.insert, find]
    rw [ih (by omega)]
    · rw [List.length_cons]
      omega
    · intro entry member
      rcases List.mem_cons.mp member with rfl | old
      · show (UInt64.ofNat first).toNat < first + 1
        omega
      · have := below entry old
        omega

/-- The keys 0 to 2^29 - 1 cannot all be inserted. -/
theorem refines_outgrown :
    ¬∀ funcs : TableFuncs, funcs.Consistent → ∀ calls, RefinesMap funcs calls := by
  intro claim
  obtain ⟨new, results, t, created, ran, _, nnodes⟩ := claim directFuncs directFuncs_consistent
    ((List.range' 0 (2 ^ 29)).map fun i => .insert (UInt64.ofNat i) 0)
  obtain ⟨t₀, created', sound⟩ := newFull_spec directFuncs
  obtain rfl : t₀ = new := Option.some.inj (created'.symm.trans created)
  obtain ⟨n, slots, sound', _⟩ := runTable_sound sound ran
  have length := mapEffects_inserts (2 ^ 29) (show 0 + 2 ^ 29 ≤ 2 ^ 64 by omega) (fun entry (member : entry ∈ ([] : MapEntries)) => absurd member List.not_mem_nil)
  rw [length] at nnodes
  have few := sound'.few
  rw [nnodes] at few
  exact absurd few (by simp)

end Xpl.Collections
