import Xpl.Keyfile.Consistency
import Xpl.Library.Checked

/-! Loading and changing a key file: the lists and the tables agree throughout. -/

set_option autoImplicit false

namespace Xpl.Keyfile
open Xpl.Library

namespace KeyFile

/-! ## Loading -/

/-- No pointer dangles and no assertion fails; a line may be refused, and if it is not, the key file holds. -/
abbrev Keeps (parsed : Parsed) : Prop := Meets (fun _ => False) (Meets (fun _ => True) (Holds True)) parsed

variable {file : KeyFile} {setting : Setting}

theorem Holds.buffer (h : file.Holds True) (parseBuffer : Bytes) : { file with parseBuffer }.Holds True := ⟨h.outlined, h.groups⟩

theorem Holds.current (h : file.Holds True) : ∃ group held, file.currentGroup = some group ∧ (group, held) ∈ file.groups := by
  obtain ⟨group, inside, current⟩ := h.outlined.current trivial
  obtain ⟨entry, inside, rfl⟩ := List.mem_map.mp inside
  obtain ⟨held, there, -⟩ := mem_outline (show (entry.1, entry.2) ∈ file.outline from ‹entry ∈ file.outline›)
  exact ⟨entry.1, held, current, there⟩

theorem Holds.parseComment (h : file.Holds True) (line : Bytes) : Keeps (file.parseComment line) := by
  unfold KeyFile.parseComment
  split
  · exact h
  · obtain ⟨group, held, current, inside⟩ := h.current
    have after := @Holds.change True file group h (fun held =>
        { held with keyValuePairs := (file.fresh, ⟨none, cString line⟩) :: held.keyValuePairs }) _ (Nat.le_succ _) (fun _ => rfl)
      fun other _ holds => @Group.Holds.insertComment _ _ holds [] other.keyValuePairs (cString line) rfl
    rw [current] at after ⊢
    dsimp only
    rw [record_of_mem h.distinct inside]
    exact after

theorem Holds.parseGroup (h : file.Holds True) (line : Bytes) : Keeps (file.parseGroup line) := by
  unfold KeyFile.parseGroup
  dsimp only
  split
  · exact trivial
  · exact h.addGroup _

theorem Holds.addKey_keeps (h : file.Holds True) {group : Address} {held : Group} (inside : (group, held) ∈ file.groups)
    (named : held.name.isSome) (key value : Bytes) : Keeps ((file.addKey group key value).map .ok) := by
  obtain ⟨file', added, holds⟩ := h.addKey inside named key value
  rw [added]
  exact holds

theorem Holds.parseKeyValuePair (h : file.Holds True) (line : Bytes) : Keeps (file.parseKeyValuePair setting line) := by
  unfold KeyFile.parseKeyValuePair
  obtain ⟨group, held, current, inside⟩ := h.current
  rw [current]
  dsimp only
  rw [record_of_mem h.distinct inside]
  dsimp only [bind, Except.bind]
  by_cases unnamed : held.name = none
  · rw [if_pos unnamed]
    exact trivial
  · rw [if_neg unnamed]
    have added := h.addKey_keeps inside (Option.isSome_iff_ne_none.mpr unnamed) (keyOfLine line) (cString (valueOfLine line))
    apply Meets.ite
    · intro _
      exact trivial
    intro _
    apply Meets.ite
    · intro _
      exact trivial
    intro _
    cases keyGetLocale (keyOfLine line) with
    | none => exact added
    | some locale => exact Meets.ite (fun _ => added) fun _ => h

theorem Holds.parseLine (h : file.Holds True) (line : Bytes) : Keeps (file.parseLine setting line) := by
  apply Meets.ite fun _ => h.parseComment line
  intro _
  apply Meets.ite fun _ => h.parseGroup _
  intro _
  exact Meets.ite (fun _ => h.parseKeyValuePair _) fun _ => trivial

theorem Holds.flushParseBuffer (h : file.Holds True) : Keeps (file.flushParseBuffer setting) :=
  Meets.ite (fun _ => h) fun _ => (h.buffer []).parseLine _

theorem Holds.endLine (h : file.Holds True) : Keeps (file.endLine setting) := by
  have trimmed : (if file.parseBuffer.getLast? = some carriageReturn then
      { file with parseBuffer := file.parseBuffer.dropLast } else file).Holds True := by
    split
    · exact h.buffer _
    · exact h
  exact Meets.ite (fun _ => trimmed.parseComment []) fun _ => trimmed.flushParseBuffer

theorem Keeps.andThen {parsed : Parsed} (keeps : Keeps parsed) {next : KeyFile → Parsed}
    (goes_on : ∀ file : KeyFile, file.Holds True → Keeps (next file)) : Keeps (parsed.andThen next) := by
  match parsed with
  | .error halt => exact keeps
  | .ok (.error error) => exact trivial
  | .ok (.ok file) => exact goes_on file keeps

theorem Holds.parseData (h : file.Holds True) (data : Bytes) : Keeps (file.parseData setting data) := by
  induction data generalizing file with
  | nil => exact h
  | cons c rest ih =>
    apply Meets.ite
    · intro _
      exact Keeps.andThen h.endLine fun file holds => ih holds
    · intro _
      exact ih (h.buffer _)

theorem Holds.parseChunks (h : file.Holds True) (chunks : List Bytes) : Keeps (file.parseChunks setting chunks) := by
  induction chunks generalizing file with
  | nil => exact h.flushParseBuffer
  | cons chunk chunks ih => exact Keeps.andThen (h.parseData chunk) fun file holds => ih holds

theorem load_keeps (setting : Setting) (chunks : List Bytes) (keepComments keepTranslations : Bool) :
    Keeps (new.load setting chunks keepComments keepTranslations) := by
  have holds : Holds True { init 2 with listSeparator := 59, keepComments, keepTranslations } :=
    ⟨(holds_init True 2).outlined, (holds_init True 2).groups⟩
  exact holds.parseChunks chunks

end KeyFile

/-! ## Calls -/

/-- `xkey_file_set_value`, `_remove_key`, `_remove_group` and `_set_comment`; the last without a comment is `_remove_comment`. -/
inductive KeyFileCall where
  | setValue (groupName key value : Bytes)
  | removeKey (groupName key : Bytes)
  | removeGroup (groupName : Bytes)
  | setComment (groupName key comment : Option Bytes)

namespace KeyFile

def call (setting : Setting) (file : KeyFile) : KeyFileCall → Except Halt (KeyFile × Outcome)
  | .setValue groupName key value => (file.setValue setting groupName key value).map fun file => (file, succeeded)
  | .removeKey groupName key => file.removeKey groupName key
  | .removeGroup groupName => file.removeGroup groupName
  | .setComment groupName key comment => file.setComment groupName key comment

def run (setting : Setting) (file : KeyFile) : List KeyFileCall → Except Halt (KeyFile × List Outcome)
  | [] => .ok (file, [])
  | call :: calls =>
    match file.call setting call with
    | .error halt => .error halt
    | .ok (file, outcome) => (run setting file calls).map fun (file, outcomes) => (file, outcome :: outcomes)

def Once (file : KeyFile) (groupName key : Bytes) : Prop :=
  ∀ held ∈ file.groups, held.2.name = some groupName → held.2.occurrences key ≤ 1

def IsCurrentHead (file : KeyFile) (groupName : Bytes) : Prop :=
  ∃ group, file.lookupGroup groupName = some group ∧ file.currentGroup = some group ∧ file.groups.head?.map Prod.fst = some group

/-- The two calls that part the lists from the tables are not made. -/
def Sound (file : KeyFile) : KeyFileCall → Prop
  | .removeKey groupName key => file.Once groupName key
  | .removeGroup groupName => ¬file.IsCurrentHead groupName
  | _ => True

def AllSound (setting : Setting) (file : KeyFile) : List KeyFileCall → Prop
  | [] => True
  | call :: calls => file.Sound call ∧ ∀ file' outcome, file.call setting call = .ok (file', outcome) → AllSound setting file' calls

variable {file : KeyFile} {setting : Setting}

theorem Holds.call (h : file.Holds True) {call : KeyFileCall} (sound : file.Sound call) :
    ∃ file' outcome, file.call setting call = .ok (file', outcome) ∧ file'.Holds True := by
  cases call with
  | setValue groupName key value =>
    obtain ⟨file', set, holds⟩ := h.setValue setting groupName key value
    refine ⟨file', succeeded, ?_, holds⟩
    unfold KeyFile.call
    dsimp only
    rw [set]
    rfl
  | removeKey groupName key => exact h.removeKey sound
  | removeGroup groupName => exact h.removeGroup fun _ group found both => sound ⟨group, found, both⟩
  | setComment groupName key comment => exact h.setComment groupName key comment

theorem Holds.run (h : file.Holds True) {calls : List KeyFileCall} (sound : file.AllSound setting calls) :
    ∃ file' outcomes, file.run setting calls = .ok (file', outcomes) ∧ file'.Holds True := by
  induction calls generalizing file with
  | nil => exact ⟨file, [], rfl, h⟩
  | cons call calls ih =>
    obtain ⟨file₁, outcome, called, holds⟩ := h.call sound.1
    obtain ⟨file', outcomes, ran, after⟩ := ih holds (sound.2 file₁ outcome called)
    refine ⟨file', outcome :: outcomes, ?_, after⟩
    rw [KeyFile.run, called]
    dsimp only
    rw [ran]
    rfl

/-! ## Agreement -/

/-- What is stored twice agrees. -/
structure Consistent (file : KeyFile) : Prop where
  groupHash : ∀ groupName address, file.lookupGroup groupName = some address ↔
    ∃ held, (address, held) ∈ file.groups ∧ held.name = some groupName
  lookupMap : ∀ held ∈ file.groups, ∀ key, (held.2.lookupKeyValuePair key).isSome ↔
    ∃ pair ∈ held.2.keyValuePairs, pair.2.key = some key
  lookedUp : ∀ held ∈ file.groups, ∀ key address, held.2.lookupKeyValuePair key = some address →
    ∃ pair, (address, pair) ∈ held.2.keyValuePairs ∧ pair.key = some key
  startGroup : file.startGroup = (file.groups.reverse.find? (·.2.name.isSome)).map Prod.fst
  currentGroup : ∃ address, file.currentGroup = some address ∧ address ∈ file.groups.map Prod.fst

theorem Holds.consistent (h : file.Holds True) : file.Consistent where
  groupHash := by
    intro groupName address
    constructor
    · intro found
      obtain ⟨held, inside, named, -⟩ := h.lookupGroup found
      exact ⟨held, inside, named⟩
    · rintro ⟨held, inside, named⟩
      have there : (address, held.name) ∈ file.outline := List.mem_map.mpr ⟨_, inside, rfl⟩
      obtain ⟨other, found⟩ := Option.isSome_iff_exists.mp (h.outlined.index.isSome.mpr ⟨_, there, named⟩)
      obtain ⟨held', inside', named'⟩ := h.outlined.index.mem found
      have same := address_of_unique h.outlined.unique there inside' named named'
      exact found.trans (congrArg some same.symm)
  lookupMap := fun held inside key => (h.groups held inside).index.isSome
  lookedUp := fun held inside key address found => (h.groups held inside).index.mem found
  startGroup := by
    rw [h.outlined.start, firstNamed, outline, ← List.map_reverse, List.find?_map, Option.map_map]
    rfl
  currentGroup := by
    obtain ⟨group, held, current, inside⟩ := h.current
    exact ⟨group, current, List.mem_map.mpr ⟨_, inside, rfl⟩⟩

/-! ## A removed key -/

def withoutKey (file : KeyFile) (groupName key : Bytes) : KeyFile :=
  { file with
    groups := file.groups.map fun held =>
      if held.2.name = some groupName then
        (held.1, { held.2 with keyValuePairs := held.2.keyValuePairs.filter fun pair => pair.2.key ≠ some key })
      else held }

/-- The key is not listed, not found, and not written. -/
structure Absent (file : KeyFile) (groupName key : Bytes) : Prop where
  keys : ∃ keys, file.getKeys groupName = .ok (.ok keys) ∧ key ∉ keys
  has : file.hasKey groupName key = .ok (.ok false)
  data : file.toData = (file.withoutKey groupName key).toData

variable {groupName key : Bytes}

theorem Absent.of_gone (h : file.Holds True) {group : Address} {held : Group} (inside : (group, held) ∈ file.groups)
    (named : held.name = some groupName) (gone : ∀ pair ∈ held.keyValuePairs, pair.2.key ≠ some key) :
    file.Absent groupName key := by
  have found := (h.consistent.groupHash groupName group).mpr ⟨held, inside, named⟩
  have unfound : held.lookupKeyValuePair key = none := by
    rw [← Option.not_isSome_iff_eq_none, (h.groups _ inside).index.isSome]
    rintro ⟨pair, there, keyed⟩
    exact gone pair there keyed
  refine ⟨⟨held.keyValuePairs.reverse.filterMap (·.2.key), ?_, fun given => ?_⟩, ?_, congrArg toData ?_⟩
  · unfold getKeys
    rw [found]
    dsimp only
    rw [record_of_mem h.distinct inside]
    rfl
  · obtain ⟨pair, there, keyed⟩ := List.mem_filterMap.mp given
    exact gone pair (List.mem_reverse.mp there) keyed
  · unfold hasKey
    rw [found]
    dsimp only
    rw [record_of_mem h.distinct inside]
    dsimp only [bind, Except.bind]
    rw [unfound]
    rfl
  · have same : file.groups.map (fun held =>
        if held.2.name = some groupName then
          (held.1, { held.2 with keyValuePairs := held.2.keyValuePairs.filter fun pair => pair.2.key ≠ some key })
        else held) = file.groups := by
      rw [List.map_congr_left (g := id), List.map_id]
      intro other present
      by_cases here : other.2.name = some groupName
      · have address : other.1 = group := Option.some.inj
          (((h.consistent.groupHash groupName other.1).mpr ⟨other.2, present, here⟩).symm.trans found)
        have same : other.2 = held := same_of_mem h.distinct (address ▸ present) inside
        have untouched : other.2.keyValuePairs.filter (fun pair => pair.2.key ≠ some key) = other.2.keyValuePairs := by
          apply List.filter_eq_self.mpr
          intro pair there
          exact decide_eq_true (gone pair (same ▸ there))
        rw [if_pos here, untouched]
        rfl
      · rw [if_neg here]
        rfl
    unfold withoutKey
    rw [same]

theorem Holds.removeKey_succeeded (h : file.Holds True) {file' : KeyFile}
    (removed : file.removeKey groupName key = .ok (file', succeeded)) :
    ∃ group held pair old, (group, held) ∈ file.groups ∧ held.name = some groupName ∧
      (pair, old) ∈ held.keyValuePairs ∧ old.key = some key ∧
      file'.groupHash = file.groupHash ∧
      file'.groups = updateRecord file.groups group fun held =>
        { held with
          keyValuePairs := removeRecord held.keyValuePairs pair
          lookupMap := held.lookupMap.map fun index => (old.key.map index.erase).getD index } := by
  unfold KeyFile.removeKey at removed
  cases found : file.lookupGroup groupName with
  | none =>
    rw [found] at removed
    cases removed
  | some group =>
    obtain ⟨held, inside, named, recorded⟩ := h.lookupGroup found
    have holds := h.groups _ inside
    rw [found] at removed
    dsimp only at removed
    rw [recorded] at removed
    dsimp only [bind, Except.bind] at removed
    cases looked : held.lookupKeyValuePair key with
    | none =>
      rw [looked] at removed
      cases removed
    | some pair =>
      obtain ⟨old, there, keyed⟩ := holds.index.mem looked
      rw [looked] at removed
      dsimp only at removed
      rw [record_of_mem holds.distinct there] at removed
      cases removed
      exact ⟨group, held, pair, old, inside, named, there, keyed, rfl, rfl⟩

theorem Holds.absent_iff (h : file.Holds True) {file' : KeyFile} (removed : file.removeKey groupName key = .ok (file', succeeded)) :
    file'.Absent groupName key ↔ file.Once groupName key := by
  obtain ⟨group, held, pair, old, inside, named, there, keyed, hash, groups⟩ := h.removeKey_succeeded removed
  have holds := h.groups _ inside
  have changed : (group, ({ held with
      keyValuePairs := removeRecord held.keyValuePairs pair
      lookupMap := held.lookupMap.map fun index => (old.key.map index.erase).getD index } : Group)) ∈ file'.groups := by
    rw [groups]
    exact updateRecord_self inside
  have gone_iff : ∀ entry, entry ∈ removeRecord held.keyValuePairs pair ↔ entry ∈ held.keyValuePairs ∧ entry.1 ≠ pair := by
    intro entry
    rw [removeRecord_eq_filter holds.distinct, List.mem_filter, decide_eq_true_eq]
  constructor
  · intro absent other present same_name
    obtain ⟨keys, listed, unlisted⟩ := absent.keys
    -- no other group has the name
    have here : other.1 = group := by
      have one := (h.consistent.groupHash groupName other.1).mpr ⟨other.2, present, same_name⟩
      have two := (h.consistent.groupHash groupName group).mpr ⟨held, inside, named⟩
      exact Option.some.inj (one.symm.trans two)
    have same : other.2 = held := same_of_mem h.distinct (here ▸ present) inside
    rw [same]
    apply once_of_occurs holds.distinct
    intro entry entered entry_key
    by_contra apart
    apply unlisted
    unfold getKeys at listed
    have found : file'.lookupGroup groupName = some group := by
      rw [KeyFile.lookupGroup, hash]
      exact (h.consistent.groupHash groupName group).mpr ⟨held, inside, named⟩
    have distinct : (file'.groups.map Prod.fst).Nodup := by
      rw [groups, updateRecord_addresses]
      exact h.distinct
    rw [found] at listed
    dsimp only at listed
    rw [record_of_mem distinct changed] at listed
    cases listed
    exact List.mem_filterMap.mpr ⟨entry, List.mem_reverse.mpr ((gone_iff entry).mpr ⟨entered, apart⟩), entry_key⟩
  · intro once
    obtain ⟨file'', outcome, again, after⟩ := h.removeKey once
    cases removed.symm.trans again
    apply Absent.of_gone after changed named
    intro entry entered same_key
    obtain ⟨entered, apart⟩ := (gone_iff entry).mp entered
    exact apart (congrArg Prod.fst (occurs_once (once _ inside named) entered there same_key keyed))

/-- After loading any data that is accepted, and any calls but the two kinds that part the lists from the tables, the two
agree; and a key that is then removed is gone exactly if it stood in its group once. -/
theorem run_consistent (setting : Setting) (chunks : List Bytes) (keepComments keepTranslations : Bool)
    (loaded : new.load setting chunks keepComments keepTranslations = .ok (.ok file)) (calls : List KeyFileCall)
    (sound : file.AllSound setting calls) :
    ∃ file' outcomes, file.run setting calls = .ok (file', outcomes) ∧ file'.Consistent ∧
      ∀ groupName key file'', file'.removeKey groupName key = .ok (file'', succeeded) →
        (file''.Absent groupName key ↔ file'.Once groupName key) := by
  have holds : file.Holds True := by
    have keeps := load_keeps setting chunks keepComments keepTranslations
    rw [loaded] at keeps
    exact keeps
  obtain ⟨file', outcomes, ran, after⟩ := holds.run sound
  exact ⟨file', outcomes, ran, after.consistent, fun _ _ _ removed => after.absent_iff removed⟩

/-- A surrounding that knows the ASCII letters and digits, and no language. -/
def asciiSetting : Setting where
  isalnum c := decide (48 ≤ c ∧ c ≤ 57 ∨ 65 ≤ c ∧ c ≤ 90 ∨ 97 ≤ c ∧ c ≤ 122)
  languageNames := []

/-- `[g]`, `a=1`, `a=2` and `[h]`. -/
def twoGroups : Bytes := [91, 103, 93, 10, 97, 61, 49, 10, 97, 61, 50, 10, 91, 104, 93, 10]

def twoGroupsFile : KeyFile :=
  match new.load asciiSetting [twoGroups] false false with
  | .ok (.ok file) => file
  | _ => new

theorem run_consistent_twoGroups : ∃ file' outcomes,
    twoGroupsFile.run asciiSetting [.setValue [104] [98] [49], .removeKey [104] [98], .removeGroup [103]] = .ok (file', outcomes) ∧
      file'.Consistent := by
  have sound : twoGroupsFile.AllSound asciiSetting [.setValue [104] [98] [49], .removeKey [104] [98], .removeGroup [103]] := by
    refine ⟨trivial, fun file₁ _ first => ?_⟩
    cases first
    refine ⟨by unfold Sound Once; decide, fun file₂ _ second => ?_⟩
    cases second
    refine ⟨?_, fun _ _ _ => trivial⟩
    rintro ⟨group, found, current, head⟩
    cases found
    cases current
  obtain ⟨file', outcomes, ran, consistent, -⟩ := run_consistent asciiSetting [twoGroups] false false rfl _ sound
  exact ⟨file', outcomes, ran, consistent⟩

/-- A key that the data repeats is still listed after its removal, and removing the only group leaves the current group
dangling. -/
theorem lists_and_tables_part :
    (∃ file file', new.load asciiSetting [[91, 103, 93, 10, 97, 61, 49, 10, 97, 61, 50, 10]] false false = .ok (.ok file) ∧
      file.removeKey [103] [97] = .ok (file', succeeded) ∧ ¬file'.Absent [103] [97]) ∧
    ∃ file file', new.load asciiSetting [[91, 103, 93, 10]] false false = .ok (.ok file) ∧
      file.removeGroup [103] = .ok (file', succeeded) ∧ ¬file'.Consistent := by
  constructor
  · refine ⟨_, _, rfl, rfl, fun absent => ?_⟩
    obtain ⟨keys, listed, unlisted⟩ := absent.keys
    cases listed
    exact unlisted List.mem_cons_self
  · refine ⟨_, _, rfl, rfl, fun consistent => ?_⟩
    obtain ⟨address, current, inside⟩ := consistent.currentGroup
    cases current
    exact absurd inside (by decide)

end KeyFile

end Xpl.Keyfile
