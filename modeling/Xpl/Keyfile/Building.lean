import Xpl.Keyfile.Runs
import Xpl.Keyfile.Values

/-! What a key file says: its groups and their pairs, in the order of the file. The getters depend on nothing else. -/

set_option autoImplicit false

namespace Xpl.Keyfile
open Xpl.Library

def Group.pairs (group : Group) : List (Bytes × Bytes) :=
  group.keyValuePairs.reverse.filterMap fun held => held.2.key.map fun key => (key, held.2.value)

/-- Groups with their pairs. -/
abbrev Contents := List (Bytes × List (Bytes × Bytes))

namespace KeyFile

def contents (file : KeyFile) : Contents :=
  file.groups.reverse.filterMap fun held => held.2.name.map fun name => (name, held.2.pairs)

variable {live : Prop} {file : KeyFile} {groupName key : Bytes} {pairs : List (Bytes × Bytes)}

theorem mem_contents : (groupName, pairs) ∈ file.contents ↔
    ∃ held ∈ file.groups, held.2.name = some groupName ∧ held.2.pairs = pairs := by
  unfold contents
  rw [List.mem_filterMap]
  constructor
  · rintro ⟨held, inside, named⟩
    obtain ⟨name, has_name, same⟩ := Option.map_eq_some_iff.mp named
    cases same
    exact ⟨held, List.mem_reverse.mp inside, has_name, rfl⟩
  · rintro ⟨held, inside, named, rfl⟩
    exact ⟨held, List.mem_reverse.mpr inside, by rw [named]; rfl⟩

theorem Holds.lookup_of_mem (h : file.Holds live) {address : Address} {held : Group} (inside : (address, held) ∈ file.groups)
    (named : held.name = some groupName) : file.lookupGroup groupName = some address := by
  have there : (address, held.name) ∈ file.outline := List.mem_map.mpr ⟨_, inside, rfl⟩
  obtain ⟨other, found⟩ := Option.isSome_iff_exists.mp (h.outlined.index.isSome.mpr ⟨_, there, named⟩)
  obtain ⟨held', inside', named'⟩ := h.outlined.index.mem found
  exact found.trans (congrArg some (address_of_unique h.outlined.unique there inside' named named').symm)

theorem Holds.lookup_none (h : file.Holds live) : file.lookupGroup groupName = none ↔ groupName ∉ file.contents.map Prod.fst := by
  rw [← Option.not_isSome_iff_eq_none, h.outlined.index.isSome]
  apply not_congr
  constructor
  · rintro ⟨⟨address, name⟩, inside, rfl⟩
    obtain ⟨held, there, named⟩ := mem_outline inside
    exact List.mem_map.mpr ⟨_, mem_contents.mpr ⟨_, there, named, rfl⟩, rfl⟩
  · intro listed
    obtain ⟨⟨name, pairs⟩, inside, rfl⟩ := List.mem_map.mp listed
    obtain ⟨held, there, named, -⟩ := mem_contents.mp inside
    exact ⟨(held.1, held.2.name), List.mem_map.mpr ⟨held, there, rfl⟩, named⟩

/-! ## Getters -/

theorem Holds.getGroups_eq (h : file.Holds live) : file.getGroups = some (file.contents.map fun group => some group.1) := by
  obtain ⟨named, top, shape, all⟩ := h.outlined.top
  obtain ⟨groups, rest, split, same, last⟩ := List.map_eq_append_iff.mp shape
  obtain ⟨topGroup, rfl, top_same⟩ := List.map_eq_singleton_iff.mp last
  have unnamed : topGroup.2.name = none := congrArg Prod.snd top_same
  have all_named : ∀ held ∈ groups.reverse, held.2.name.isSome := by
    intro held inside
    apply all (held.1, held.2.name)
    rw [← same]
    exact List.mem_map_of_mem (List.mem_reverse.mp inside)
  unfold getGroups contents
  rw [split, List.reverse_append, List.reverse_singleton, List.singleton_append]
  dsimp only
  rw [if_pos unnamed, List.filterMap_cons, unnamed, Option.map_none]
  generalize groups.reverse = ordered at all_named
  congr 1
  induction ordered with
  | nil => rfl
  | cons held rest ih =>
    obtain ⟨name, named⟩ := Option.isSome_iff_exists.mp (all_named held List.mem_cons_self)
    rw [List.map_cons, ih fun other inside => all_named other (List.mem_cons_of_mem _ inside), List.filterMap_cons, named]
    rfl

theorem Holds.getKeys_eq (h : file.Holds live) (inside : (groupName, pairs) ∈ file.contents) :
    file.getKeys groupName = .ok (.ok (pairs.map Prod.fst)) := by
  obtain ⟨held, there, named, rfl⟩ := mem_contents.mp inside
  unfold getKeys
  rw [h.lookup_of_mem there named]
  dsimp only
  rw [record_of_mem h.distinct there]
  have same : held.2.pairs.map Prod.fst = held.2.keyValuePairs.reverse.filterMap (·.2.key) := by
    unfold Group.pairs
    rw [List.map_filterMap]
    congr 1
    funext other
    rw [Option.map_map]
    exact Option.map_id'
  rw [same]
  rfl

end KeyFile

/-! Key files that are built from nothing by the setters. -/

inductive Edit where
  | setString (groupName key string : Bytes)
  | setStringList (groupName key : Bytes) (list : List Bytes)
  | setInteger (groupName key : Bytes) (value : Int32)
  | setBoolean (groupName key : Bytes) (value : Bool)
  | removeKey (groupName key : Bytes)
  | removeGroup (groupName : Bytes)

/-- The strings of a call are C strings. -/
def Edit.IsPlain : Edit → Prop
  | .setString groupName key string => 0 ∉ groupName ∧ 0 ∉ key ∧ 0 ∉ string
  | .setStringList groupName key list => 0 ∉ groupName ∧ 0 ∉ key ∧ ∀ string ∈ list, 0 ∉ string
  | .setInteger groupName key _ | .setBoolean groupName key _ | .removeKey groupName key => 0 ∉ groupName ∧ 0 ∉ key
  | .removeGroup groupName => 0 ∉ groupName

namespace KeyFile

def edit (setting : Setting) (file : KeyFile) : Edit → Except Halt KeyFile
  | .setString groupName key string => file.setString setting groupName key string
  | .setStringList groupName key list => file.setStringList setting groupName key list
  | .setInteger groupName key value => file.setInteger setting groupName key value
  | .setBoolean groupName key value => file.setBoolean setting groupName key value
  | .removeKey groupName key => (file.removeKey groupName key).map (·.1)
  | .removeGroup groupName => (file.removeGroup groupName).map (·.1)

def build (setting : Setting) : KeyFile → List Edit → Except Halt KeyFile
  | file, [] => .ok file
  | file, edit :: edits =>
    match file.edit setting edit with
    | .error halt => .error halt
    | .ok file => build setting file edits

end KeyFile

/-! ## Values -/

/-- A value stays on its line: it holds no zero, no newline and no carriage return. -/
def IsPlainValue (value : Bytes) : Prop := ∀ c ∈ value, c ≠ 0 ∧ c ≠ newline ∧ c ≠ carriageReturn

theorem isPlainValue_append {one two : Bytes} (first : IsPlainValue one) (second : IsPlainValue two) : IsPlainValue (one ++ two) := by
  intro c inside
  rcases List.mem_append.mp inside with inside | inside
  · exact first c inside
  · exact second c inside

theorem isPlainValue_escape {c : UInt8} (nonzero : c ≠ 0) (inner : c ≠ newline) (last : c ≠ carriageReturn) :
    IsPlainValue [c] ∧ IsPlainValue [backslash, c] := by
  have slash : backslash ≠ 0 ∧ backslash ≠ newline ∧ backslash ≠ carriageReturn := by decide
  constructor
  · intro other inside
    cases List.mem_singleton.mp inside
    exact ⟨nonzero, inner, last⟩
  · intro other inside
    rcases List.mem_cons.mp inside with rfl | inside
    · exact slash
    · cases List.mem_singleton.mp inside
      exact ⟨nonzero, inner, last⟩

theorem parseStringAsValue_plain (separator : Option UInt8) (leading : Bool) {string : Bytes} (plain : 0 ∉ string) :
    IsPlainValue (parseStringAsValue separator leading string) := by
  induction string generalizing leading with
  | nil => exact nofun
  | cons c rest ih =>
    have rest_plain : 0 ∉ rest := fun inside => plain (List.mem_cons_of_mem _ inside)
    have nonzero : c ≠ 0 := fun zero => plain (zero ▸ List.mem_cons_self)
    have letter : ∀ e : UInt8, e ≠ 0 → e ≠ newline → e ≠ carriageReturn → IsPlainValue [backslash, e] :=
      fun e nonzero inner last => (isPlainValue_escape nonzero inner last).2
    have blank : ∀ e : UInt8, e ≠ 0 → e ≠ newline → e ≠ carriageReturn → c = space ∨ c = tab →
        IsPlainValue (if leading = true then [backslash, e] else [c]) := by
      intro e nonzero_e inner last here
      have kept : c ≠ newline ∧ c ≠ carriageReturn := by
        rcases here with rfl | rfl <;> decide
      split
      · exact letter e nonzero_e inner last
      · exact (isPlainValue_escape nonzero kept.1 kept.2).1
    rw [parseStringAsValue]
    split
    · exact isPlainValue_append (blank 115 (by decide) (by decide) (by decide) (.inl ‹_›)) (ih _ rest_plain)
    split
    · exact isPlainValue_append (blank 116 (by decide) (by decide) (by decide) (.inr ‹_›)) (ih _ rest_plain)
    split
    · exact isPlainValue_append (letter 110 (by decide) (by decide) (by decide)) (ih _ rest_plain)
    split
    · exact isPlainValue_append (letter 114 (by decide) (by decide) (by decide)) (ih _ rest_plain)
    split
    · exact isPlainValue_append (letter backslash (by decide) (by decide) (by decide)) (ih _ rest_plain)
    have others : IsPlainValue [c] ∧ IsPlainValue [backslash, c] := isPlainValue_escape nonzero ‹_› ‹_›
    split
    · exact isPlainValue_append others.2 (ih _ rest_plain)
    · exact isPlainValue_append others.1 (ih _ rest_plain)

theorem decimal_plain (n : Nat) : IsPlainValue (decimal n) := by
  intro c inside
  obtain ⟨digit, given, rfl⟩ := List.mem_map.mp inside
  have is_digit := Nat.isDigit_of_mem_toDigits (by decide) (by decide) given
  have range : 48 ≤ digit.toNat ∧ digit.toNat ≤ 57 := by
    simp only [Char.isDigit, Bool.and_eq_true, decide_eq_true_eq] at is_digit
    exact ⟨is_digit.1, is_digit.2⟩
  have value : (UInt8.ofNat digit.toNat).toNat = digit.toNat := toNat_byte (by omega)
  refine ⟨fun same => ?_, fun same => ?_, fun same => ?_⟩ <;>
  · have equal := congrArg UInt8.toNat same
    rw [value] at equal
    exact absurd (equal ▸ range) (by decide)

theorem parseIntegerAsValue_plain (value : Int32) : IsPlainValue (parseIntegerAsValue value) := by
  unfold parseIntegerAsValue
  split
  · exact isPlainValue_append (isPlainValue_escape (by decide) (by decide) (by decide)).1 (decimal_plain _)
  · exact decimal_plain _

theorem parseBooleanAsValue_plain (value : Bool) : IsPlainValue (parseBooleanAsValue value) := by
  cases value with
  | true => simp [IsPlainValue, parseBooleanAsValue, newline, carriageReturn]
  | false => simp [IsPlainValue, parseBooleanAsValue, newline, carriageReturn]

theorem list_plain {list : List Bytes} (plain : ∀ string ∈ list, 0 ∉ string) :
    IsPlainValue (list.flatMap fun string => parseStringAsValue (some 59) true string ++ [59]) := by
  intro c inside
  obtain ⟨string, given, inside⟩ := List.mem_flatMap.mp inside
  have separator : IsPlainValue [59] := (isPlainValue_escape (by decide) (by decide) (by decide)).1
  exact isPlainValue_append (parseStringAsValue_plain (some 59) true (plain string given)) separator c inside

/-! ## What is built -/

def IsSetPair (setting : Setting) (pair : KeyValuePair) : Prop :=
  ∃ key, pair.key = some key ∧ isKeyName setting key key.length ∧ 0 ∉ key ∧ IsPlainValue pair.value

/-- A group as the setters make them: no comments, and every key once. -/
structure Group.Tidy (setting : Setting) (group : Group) : Prop where
  comment : group.comment = none
  name : ∀ name, group.name = some name → isGroupName name
  above : group.name = none → group.keyValuePairs = []
  pairs : ∀ pair ∈ group.keyValuePairs, IsSetPair setting pair.2
  unique : (group.keyValuePairs.filterMap (·.2.key)).Nodup

section Tidy

variable {setting : Setting} {group : Group} {limit address : Address} {key value : Bytes}

theorem Group.tidy_empty {name : Bytes} (acceptable : isGroupName name) : (⟨some name, none, [], some ∅⟩ : Group).Tidy setting where
  comment := rfl
  name := by
    intro other same
    cases same
    exact acceptable
  above := nofun
  pairs := nofun
  unique := List.nodup_nil

theorem Group.Tidy.addKeyValuePair (h : group.Tidy setting) (holds : group.Holds limit) (named : group.name.isSome)
    (missing : group.lookupKeyValuePair key = none) (acceptable : isKeyName setting key key.length) (plain : 0 ∉ key)
    (plain_value : IsPlainValue value) (address : Address) : (group.addKeyValuePair address key value).Tidy setting where
  comment := h.comment
  name := h.name
  above := by
    intro unnamed
    rw [Group.addKeyValuePair] at unnamed
    rw [unnamed] at named
    cases named
  pairs := by
    intro pair inside
    rcases List.mem_cons.mp inside with rfl | inside
    · exact ⟨key, rfl, acceptable, plain, plain_value⟩
    · exact h.pairs pair inside
  unique := by
    have entered : (group.addKeyValuePair address key value).keyValuePairs.filterMap (·.2.key) =
        key :: group.keyValuePairs.filterMap (·.2.key) := rfl
    rw [entered, List.nodup_cons]
    refine ⟨fun given => ?_, h.unique⟩
    obtain ⟨pair, inside, keyed⟩ := List.mem_filterMap.mp given
    have found := holds.index.isSome.mpr ⟨pair, inside, keyed⟩
    rw [missing] at found
    cases found

theorem keys_updateRecord (records : List (Address × KeyValuePair)) :
    (updateRecord records address ({ · with value })).filterMap (·.2.key) = records.filterMap (·.2.key) := by
  unfold updateRecord
  rw [List.filterMap_map]
  congr 1
  funext held
  rw [Function.comp_apply]
  split <;> rfl

theorem Group.Tidy.setValue (h : group.Tidy setting) (plain_value : IsPlainValue value) (pair : Address) :
    ({ group with keyValuePairs := updateRecord group.keyValuePairs pair ({ · with value }) } : Group).Tidy setting where
  comment := h.comment
  name := h.name
  above := by
    intro unnamed
    rw [h.above unnamed]
    rfl
  pairs := by
    intro other (changed : other ∈ updateRecord group.keyValuePairs pair ({ · with value }))
    rcases mem_updateRecord changed with ⟨inside, -⟩ | ⟨held, inside, rfl⟩
    · exact h.pairs other inside
    · obtain ⟨key, keyed, acceptable, plain, -⟩ := h.pairs _ inside
      exact ⟨key, keyed, acceptable, plain, plain_value⟩
  unique := by
    rw [keys_updateRecord]
    exact h.unique

theorem Group.Tidy.removeKey (h : group.Tidy setting) (pair : Address) (lookupMap : Option Index) :
    ({ group with keyValuePairs := removeRecord group.keyValuePairs pair, lookupMap } : Group).Tidy setting where
  comment := h.comment
  name := h.name
  above := by
    intro unnamed
    rw [h.above unnamed]
    rfl
  pairs := fun other inside => h.pairs other (removeRecord_sublist.subset inside)
  unique := h.unique.sublist (removeRecord_sublist.filterMap _)

theorem Group.Tidy.occurrences (h : group.Tidy setting) (key : Bytes) : group.occurrences key ≤ 1 := by
  have counted : group.occurrences key = (group.keyValuePairs.filterMap (·.2.key)).count key := by
    rw [Group.occurrences, List.count, List.countP_filterMap]
    congr 1
    funext held
    cases held.2.key with
    | none => simp
    | some other => by_cases same : other = key <;> simp [same]
  rw [counted]
  exact List.nodup_iff_count_le_one.mp h.unique key

end Tidy

/-- A key file as the setters make it. The group that is the current one may be gone. -/
structure KeyFile.Built (setting : Setting) (file : KeyFile) : Prop where
  holds : file.Holds False
  separator : file.listSeparator = 59
  groups : ∀ held ∈ file.groups, held.2.Tidy setting

namespace KeyFile
variable {file' : KeyFile}
variable {setting : Setting} {file : KeyFile} {groupName key value : Bytes}

theorem Holds.setValue_keeps {live : Prop} (h : file.Holds live)
    (set : file.setValue setting groupName key value = .ok file') {kept : Group → Prop}
    (enter : isGroupName groupName → kept ⟨some groupName, none, [], some ∅⟩)
    (add : isKeyName setting key key.length → ∀ group limit address, kept group → group.Holds limit → group.name.isSome →
      group.lookupKeyValuePair key = none → kept (group.addKeyValuePair address key value))
    (put : ∀ group pair, kept group → kept { group with keyValuePairs := updateRecord group.keyValuePairs pair ({ · with value }) })
    (groups : ∀ held ∈ file.groups, kept held.2) : ∀ held ∈ file'.groups, kept held.2 := by
  -- a key is added to one group, which is kept before
  have adds : ∀ (file : KeyFile) (address : Address) (old : Group), (file.groups.map Prod.fst).Nodup →
      (address, old) ∈ file.groups → (∀ held ∈ file.groups, kept held.2) →
      kept (old.addKeyValuePair file.fresh key value) → ∀ file', file.addKey address key value = .ok file' →
      ∀ held ∈ file'.groups, kept held.2 := by
    intro file address old distinct inside groups keeps file' added held entered
    unfold KeyFile.addKey at added
    rw [record_of_mem distinct inside] at added
    cases added
    dsimp only at entered
    rcases mem_updateRecord entered with ⟨there, -⟩ | ⟨other, there, rfl⟩
    · exact groups held there
    · cases same_of_mem distinct inside there
      exact keeps
  unfold KeyFile.setValue at set
  by_cases refused : (!isGroupName groupName || !isKeyName setting key key.length) = true
  · rw [if_pos refused] at set
    cases set
    exact groups
  · rw [if_neg refused] at set
    have names : isGroupName groupName ∧ isKeyName setting key key.length := by simpa using refused
    cases found : file.lookupGroup groupName with
    | none =>
      have head : (file.addGroup groupName).groups = (file.fresh, ⟨some groupName, none, [], some ∅⟩) :: file.groups := by
        unfold KeyFile.addGroup
        rw [found, if_neg (by simp [names.1])]
      have inside : (file.fresh, (⟨some groupName, none, [], some ∅⟩ : Group)) ∈ (file.addGroup groupName).groups := by
        rw [head]
        exact List.mem_cons_self
      rw [found] at set
      dsimp only at set
      rw [head] at set
      apply adds _ _ _ (h.addGroup groupName).distinct inside _ _ file' set
      · rw [head]
        exact List.forall_mem_cons.mpr ⟨enter names.1, groups⟩
      · exact add names.2 _ 0 _ (enter names.1) (Group.holds_empty groupName none 0) rfl rfl
    | some group =>
      obtain ⟨old, inside, named, recorded⟩ := h.lookupGroup found
      rw [found] at set
      dsimp only at set
      rw [recorded] at set
      dsimp only [bind, Except.bind] at set
      cases keyed : old.lookupKeyValuePair key with
      | none =>
        rw [keyed] at set
        exact adds file group old h.distinct inside groups (add names.2 old file.fresh _ (groups _ inside) (h.groups _ inside)
          (Option.isSome_iff_exists.mpr ⟨_, named⟩) keyed) file' set
      | some pair =>
        obtain ⟨before, there, -⟩ := (h.groups _ inside).index.mem keyed
        rw [keyed] at set
        dsimp only at set
        rw [record_of_mem (h.groups _ inside).distinct there] at set
        cases set
        intro held entered
        dsimp only at entered
        rcases mem_updateRecord entered with ⟨there, -⟩ | ⟨other, there, rfl⟩
        · exact groups held there
        · exact put other pair (groups _ there)

theorem addGroup_separator : (file.addGroup groupName).listSeparator = file.listSeparator := by
  unfold addGroup
  split
  · rfl
  · split <;> rfl

theorem addKey_separator {address : Address} (added : file.addKey address key value = .ok file') :
    file'.listSeparator = file.listSeparator := by
  unfold addKey at added
  cases recorded : record file.groups address with
  | error halt =>
    rw [recorded] at added
    cases added
  | ok held =>
    rw [recorded] at added
    cases added
    rfl

theorem setValue_separator (set : file.setValue setting groupName key value = .ok file') :
    file'.listSeparator = file.listSeparator := by
  unfold setValue at set
  split at set
  · cases set
    rfl
  split at set
  · dsimp only at set
    split at set
    · cases set
    · exact (addKey_separator set).trans addGroup_separator
  · rename_i group _
    cases recorded : record file.groups group with
    | error halt =>
      rw [recorded] at set
      cases set
    | ok held =>
      rw [recorded] at set
      dsimp only [bind, Except.bind] at set
      split at set
      · exact addKey_separator set
      · rename_i pair _
        cases there : record held.keyValuePairs pair with
        | error halt =>
          rw [there] at set
          cases set
        | ok old =>
          rw [there] at set
          cases set
          rfl

theorem Built.setValue (h : file.Built setting) (plain : 0 ∉ key) (plain_value : IsPlainValue value) :
    ∃ file', file.setValue setting groupName key value = .ok file' ∧ file'.Built setting := by
  obtain ⟨file', set, holds⟩ := h.holds.setValue setting groupName key value
  refine ⟨file', set, holds, (setValue_separator set).trans h.separator, ?_⟩
  apply h.holds.setValue_keeps set Group.tidy_empty _ _ h.groups
  · intro acceptable group limit address tidy holds named missing
    exact tidy.addKeyValuePair holds named missing acceptable plain plain_value address
  · intro group pair tidy
    exact tidy.setValue plain_value pair

theorem Built.removeKey (h : file.Built setting) :
    ∃ file' outcome, file.removeKey groupName key = .ok (file', outcome) ∧ file'.Built setting := by
  have once : ∀ held ∈ file.groups, held.2.name = some groupName → held.2.occurrences key ≤ 1 :=
    fun held inside _ => (h.groups held inside).occurrences key
  obtain ⟨file', outcome, removed, holds⟩ := h.holds.removeKey once
  refine ⟨file', outcome, removed, ?_⟩
  have done := removed
  unfold KeyFile.removeKey at done
  cases found : file.lookupGroup groupName with
  | none =>
    rw [found] at done
    cases done
    exact h
  | some group =>
    obtain ⟨held, inside, named, recorded⟩ := h.holds.lookupGroup found
    rw [found] at done
    dsimp only at done
    rw [recorded] at done
    dsimp only [bind, Except.bind] at done
    cases keyed : held.lookupKeyValuePair key with
    | none =>
      rw [keyed] at done
      cases done
      exact h
    | some pair =>
      obtain ⟨old, there, -⟩ := (h.holds.groups _ inside).index.mem keyed
      rw [keyed] at done
      dsimp only at done
      rw [record_of_mem (h.holds.groups _ inside).distinct there] at done
      cases done
      refine ⟨holds, h.separator, fun other entered => ?_⟩
      dsimp only at entered
      rcases mem_updateRecord entered with ⟨kept, -⟩ | ⟨before, kept, rfl⟩
      · exact h.groups other kept
      · exact (h.groups _ kept).removeKey pair _

theorem removeGroupNode_keeps {group : Address} (removed : file.removeGroupNode group = .ok file') :
    file'.listSeparator = file.listSeparator ∧ ∀ held ∈ file'.groups, held ∈ file.groups := by
  unfold removeGroupNode at removed
  cases recorded : record file.groups group with
  | error halt =>
    rw [recorded] at removed
    cases removed
  | ok held =>
    rw [recorded] at removed
    dsimp only [bind, Except.bind] at removed
    cases named : removeName file.groupHash held.name with
    | error halt =>
      rw [named] at removed
      cases removed
    | ok groupHash =>
      rw [named] at removed
      cases removed
      exact ⟨rfl, fun _ inside => removeRecord_sublist.subset inside⟩

theorem Built.removeGroup (h : file.Built setting) :
    ∃ file' outcome, file.removeGroup groupName = .ok (file', outcome) ∧ file'.Built setting := by
  obtain ⟨file', outcome, removed, holds⟩ := @Holds.removeGroup False file groupName h.holds nofun
  refine ⟨file', outcome, removed, ?_⟩
  unfold KeyFile.removeGroup at removed
  cases found : file.lookupGroupNode groupName with
  | none =>
    rw [found] at removed
    cases removed
    exact h
  | some group =>
    rw [found] at removed
    dsimp only at removed
    cases done : file.removeGroupNode group with
    | error halt =>
      rw [done] at removed
      cases removed
    | ok after =>
      rw [done] at removed
      cases removed
      obtain ⟨separator, kept⟩ := removeGroupNode_keeps done
      exact ⟨holds, separator.trans h.separator, fun held inside => h.groups held (kept held inside)⟩

theorem Built.edit (h : file.Built setting) {edit : Edit} (plain : edit.IsPlain) :
    ∃ file', file.edit setting edit = .ok file' ∧ file'.Built setting := by
  cases edit with
  | setString groupName key string => exact h.setValue plain.2.1 (parseStringAsValue_plain none true plain.2.2)
  | setStringList groupName key list =>
    unfold KeyFile.edit setStringList
    rw [h.separator]
    exact h.setValue plain.2.1 (list_plain plain.2.2)
  | setInteger groupName key value => exact h.setValue plain.2 (parseIntegerAsValue_plain value)
  | setBoolean groupName key value => exact h.setValue plain.2 (parseBooleanAsValue_plain value)
  | removeKey groupName key =>
    obtain ⟨file', outcome, removed, built⟩ := @Built.removeKey setting file groupName key h
    refine ⟨file', ?_, built⟩
    unfold KeyFile.edit
    dsimp only
    rw [removed]
    rfl
  | removeGroup groupName =>
    obtain ⟨file', outcome, removed, built⟩ := @Built.removeGroup setting file groupName h
    refine ⟨file', ?_, built⟩
    unfold KeyFile.edit
    dsimp only
    rw [removed]
    rfl

theorem Built.build (h : file.Built setting) {edits : List Edit} (plain : ∀ edit ∈ edits, edit.IsPlain) :
    ∃ file', file.build setting edits = .ok file' ∧ file'.Built setting := by
  induction edits generalizing file with
  | nil => exact ⟨file, rfl, h⟩
  | cons edit edits ih =>
    obtain ⟨first, others⟩ := List.forall_mem_cons.mp plain
    obtain ⟨file₁, edited, built⟩ := h.edit first
    obtain ⟨file', done, after⟩ := ih built others
    refine ⟨file', ?_, after⟩
    rw [KeyFile.build, edited]
    exact done

end KeyFile

end Xpl.Keyfile
