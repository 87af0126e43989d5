import Xpl.Keyfile.KeyFile

/-! What holds of a key file at all times: its lists and its tables agree. -/

set_option autoImplicit false

namespace Xpl.Keyfile
open Xpl.Library

/-! ## Tables -/

theorem lookup_insert (index : Index) (name : Bytes) (address : Address) :
    (fun other => (index.insert name address).lookup other) = Function.update (fun other => index.lookup other) name (some address) := by
  funext other
  by_cases same : other = name
  · subst same
    rw [AList.lookup_insert, Function.update_self]
  · rw [AList.lookup_insert_ne same, Function.update_of_ne same]

theorem lookup_erase (index : Index) (name : Bytes) :
    (fun other => (index.erase name).lookup other) = Function.update (fun other => index.lookup other) name none := by
  funext other
  by_cases same : other = name
  · subst same
    rw [AList.lookup_erase, Function.update_self]
  · rw [AList.lookup_erase_ne same, Function.update_of_ne same]

theorem record_of_mem {α : Type} {records : List (Address × α)} {address : Address} {held : α}
    (distinct : (records.map Prod.fst).Nodup) (present : (address, held) ∈ records) : record records address = .ok held := by
  unfold record
  rw [lookup_of_mem distinct present]

/-! ## A group -/

structure Group.Holds (group : Group) (limit : Address) : Prop where
  distinct : (group.keyValuePairs.map Prod.fst).Nodup
  below : ∀ held ∈ group.keyValuePairs, held.1 < limit
  mapped : group.lookupMap.isSome = group.name.isSome
  index : IsIndex KeyValuePair.key group.lookupKeyValuePair group.keyValuePairs

variable {group : Group} {limit later : Address}

def Group.occurrences (group : Group) (key : Bytes) : Nat := group.keyValuePairs.countP fun held => held.2.key = some key

theorem occurs_once {key : Bytes} (once : group.occurrences key ≤ 1) {one two : Address × KeyValuePair}
    (first : one ∈ group.keyValuePairs) (second : two ∈ group.keyValuePairs) (keyed : one.2.key = some key)
    (same : two.2.key = some key) : one = two := by
  rw [Group.occurrences, List.countP_eq_length_filter] at once
  have one_there : one ∈ group.keyValuePairs.filter fun held => held.2.key = some key :=
    List.mem_filter.mpr ⟨first, decide_eq_true keyed⟩
  have two_there : two ∈ group.keyValuePairs.filter fun held => held.2.key = some key :=
    List.mem_filter.mpr ⟨second, decide_eq_true same⟩
  match found : group.keyValuePairs.filter fun held => held.2.key = some key with
  | [] =>
    rw [found] at one_there
    cases one_there
  | [only] =>
    rw [found] at one_there two_there
    exact (List.mem_singleton.mp one_there).trans (List.mem_singleton.mp two_there).symm
  | _ :: _ :: rest =>
    rw [found] at once
    exact absurd once (by simp)

theorem once_of_occurs {key : Bytes} (distinct : (group.keyValuePairs.map Prod.fst).Nodup) {address : Address}
    (only : ∀ entry ∈ group.keyValuePairs, entry.2.key = some key → entry.1 = address) : group.occurrences key ≤ 1 := by
  rw [Group.occurrences, List.countP_eq_length_filter]
  have all : ∀ entry ∈ group.keyValuePairs.filter (fun held => held.2.key = some key), entry.1 = address := by
    intro entry inside
    obtain ⟨inside, keyed⟩ := List.mem_filter.mp inside
    exact only entry inside (of_decide_eq_true keyed)
  have apart := distinct.sublist (List.Sublist.map Prod.fst (List.filter_sublist (p := fun held => held.2.key = some key)))
  match found : group.keyValuePairs.filter fun held => held.2.key = some key with
  | [] =>
    rw [found]
    exact Nat.zero_le _
  | [only] =>
    rw [found]
    exact Nat.le_refl _
  | one :: two :: rest =>
    rw [found] at all apart
    have same : one.1 = two.1 := (all one List.mem_cons_self).trans (all two (List.mem_cons_of_mem _ List.mem_cons_self)).symm
    exact absurd (same ▸ List.mem_cons_self) (List.nodup_cons.mp apart).1

theorem Group.Holds.mono (h : group.Holds limit) (grows : limit ≤ later) : group.Holds later where
  distinct := h.distinct
  below := fun held present => Nat.lt_of_lt_of_le (h.below held present) grows
  mapped := h.mapped
  index := h.index

theorem Group.holds_empty (name : Bytes) (comment : Option KeyValuePair) (limit : Address) :
    (⟨some name, comment, [], some ∅⟩ : Group).Holds limit where
  distinct := List.nodup_nil
  below := nofun
  mapped := rfl
  index := fun _ => rfl

theorem Group.Holds.addKeyValuePair (h : group.Holds limit) (named : group.name.isSome) (key value : Bytes) :
    (group.addKeyValuePair limit key value).Holds (limit + 1) where
  distinct := by
    apply List.nodup_cons.mpr
    refine ⟨fun given => ?_, h.distinct⟩
    obtain ⟨held, present, same⟩ := List.mem_map.mp given
    exact absurd (h.below held present) (same ▸ Nat.lt_irrefl _)
  below := by
    intro held present
    rcases List.mem_cons.mp present with rfl | present
    · exact Nat.lt_succ_self _
    · exact Nat.lt_succ_of_lt (h.below held present)
  mapped := by
    unfold Group.addKeyValuePair
    rw [Option.isSome_map]
    exact h.mapped
  index := by
    obtain ⟨index, mapped⟩ := Option.isSome_iff_exists.mp (h.mapped.trans named)
    have before : group.lookupKeyValuePair = fun other => index.lookup other := by
      funext other
      simp [Group.lookupKeyValuePair, mapped]
    have after : (group.addKeyValuePair limit key value).lookupKeyValuePair =
        Function.update group.lookupKeyValuePair key (some limit) := by
      rw [before, ← lookup_insert]
      funext other
      simp [Group.lookupKeyValuePair, Group.addKeyValuePair, mapped]
    rw [after]
    exact h.index.prepend rfl limit

/-- The pairs may change as long as the ones with a key stay where they are. -/
theorem Group.Holds.of_keyed (h : group.Holds limit) {keyValuePairs : List (Address × KeyValuePair)}
    (distinct : (keyValuePairs.map Prod.fst).Nodup) (below : ∀ held ∈ keyValuePairs, held.1 < later)
    (same : (keyValuePairs.filter fun held => held.2.key.isSome).map (fun held => (held.1, held.2.key)) =
      (group.keyValuePairs.filter fun held => held.2.key.isSome).map fun held => (held.1, held.2.key)) :
    ({ group with keyValuePairs } : Group).Holds later where
  distinct := distinct
  below := below
  mapped := h.mapped
  index := h.index.of_keyed same

theorem Group.Holds.setValue (h : group.Holds limit) (pair : Address) (value : Bytes) :
    ({ group with keyValuePairs := updateRecord group.keyValuePairs pair ({ · with value }) } : Group).Holds limit where
  distinct := by
    rw [updateRecord_addresses]
    exact h.distinct
  below := by
    intro entry (changed : entry ∈ updateRecord group.keyValuePairs pair ({ · with value }))
    rcases mem_updateRecord changed with ⟨inside, -⟩ | ⟨held, inside, rfl⟩
    · exact h.below entry inside
    · exact h.below (pair, held) inside
  mapped := h.mapped
  index := h.index.update (fun _ => rfl : ∀ held : KeyValuePair, ({ held with value } : KeyValuePair).key = held.key)

theorem Group.Holds.removeKey (h : group.Holds limit) {pair : Address} {held : KeyValuePair} {key : Bytes}
    (present : (pair, held) ∈ group.keyValuePairs) (keyed : held.key = some key)
    (once : ∀ entry ∈ group.keyValuePairs, entry.2.key = some key → entry.1 = pair) :
    ({ group with
      keyValuePairs := removeRecord group.keyValuePairs pair
      lookupMap := group.lookupMap.map fun index => (held.key.map index.erase).getD index } : Group).Holds limit where
  distinct := h.distinct.sublist (removeRecord_sublist.map _)
  below := fun entry inside => h.below entry (removeRecord_sublist.subset inside)
  mapped := by
    rw [Option.isSome_map]
    exact h.mapped
  index := by
    have after : Group.lookupKeyValuePair { group with
        keyValuePairs := removeRecord group.keyValuePairs pair
        lookupMap := group.lookupMap.map fun index => (held.key.map index.erase).getD index } =
        Function.update group.lookupKeyValuePair key none := by
      rw [keyed]
      cases mapped : group.lookupMap with
      | none =>
        funext other
        simp [Group.lookupKeyValuePair, mapped, Function.update_apply]
      | some index =>
        have before : group.lookupKeyValuePair = fun other => index.lookup other := by
          funext other
          simp [Group.lookupKeyValuePair, mapped]
        rw [before, ← lookup_erase]
        rfl
    rw [after]
    exact h.index.remove h.distinct present keyed once

theorem Group.Holds.insertComment (h : group.Holds limit) {before after : List (Address × KeyValuePair)} (value : Bytes)
    (split : group.keyValuePairs = before ++ after) :
    ({ group with keyValuePairs := before ++ (limit, ⟨none, value⟩) :: after } : Group).Holds (limit + 1) := by
  have moved : (before ++ (limit, ⟨none, value⟩) :: after).Perm ((limit, ⟨none, value⟩) :: group.keyValuePairs) :=
    split ▸ List.perm_middle
  apply h.of_keyed
  · apply (moved.map Prod.fst).nodup_iff.mpr
    apply List.nodup_cons.mpr
    refine ⟨fun given => ?_, h.distinct⟩
    obtain ⟨held, present, same⟩ := List.mem_map.mp given
    exact absurd (h.below held present) (same ▸ Nat.lt_irrefl _)
  · intro held present
    rcases List.mem_cons.mp (moved.mem_iff.mp present) with rfl | present
    · exact Nat.lt_succ_self _
    · exact Nat.lt_succ_of_lt (h.below held present)
  · rw [split, List.filter_append, List.filter_append, List.filter_cons_of_neg (by simp)]

theorem Group.Holds.dropComments (h : group.Holds limit) {before dropped after : List (Address × KeyValuePair)}
    (split : group.keyValuePairs = before ++ (dropped ++ after)) (comments : ∀ held ∈ dropped, held.2.key = none) :
    ({ group with keyValuePairs := before ++ after } : Group).Holds limit := by
  have fewer : (before ++ after).Sublist group.keyValuePairs := by
    rw [split]
    exact (List.Sublist.refl before).append (List.sublist_append_right dropped after)
  have none_keyed : dropped.filter (fun held => held.2.key.isSome) = [] := by
    apply List.filter_eq_nil_iff.mpr
    intro held inside
    rw [comments held inside]
    exact Bool.false_ne_true
  apply h.of_keyed (h.distinct.sublist (fewer.map _)) (fun held inside => h.below held (fewer.subset inside))
  rw [split, List.filter_append, List.filter_append, List.filter_append, none_keyed, List.nil_append]

/-- Above the first group there are comments only. -/
theorem Group.Holds.unkeyed (h : group.Holds limit) (unnamed : group.name = none) :
    ∀ held ∈ group.keyValuePairs, held.2.key = none := by
  intro held inside
  have unmapped : group.lookupMap = none := by
    have mapped := h.mapped
    rw [unnamed] at mapped
    exact Option.not_isSome_iff_eq_none.mp (by simp [mapped])
  cases keyed : held.2.key with
  | none => rfl
  | some key =>
    have found := h.index.isSome.mpr ⟨held, inside, keyed⟩
    rw [Group.lookupKeyValuePair, unmapped] at found
    cases found

theorem replaceComments_split {key : Bytes} {comment records records' : List (Address × KeyValuePair)}
    (replaced : KeyFile.replaceComments key comment records = some records') :
    ∃ before dropped after, records = before ++ (dropped ++ after) ∧ (∀ held ∈ dropped, held.2.key = none) ∧
      records' = before ++ (comment ++ after) := by
  induction records generalizing records' with
  | nil => cases replaced
  | cons held rest ih =>
    unfold KeyFile.replaceComments at replaced
    split at replaced
    · cases replaced
      refine ⟨[held], rest.takeWhile fun held => held.2.key = none, rest.dropWhile fun held => held.2.key = none, ?_, ?_, rfl⟩
      · rw [List.takeWhile_append_dropWhile]
        rfl
      · intro other inside
        simpa using List.mem_takeWhile_imp inside
    · obtain ⟨rest', replaced', rfl⟩ := Option.map_eq_some_iff.mp replaced
      obtain ⟨before, dropped, after, rfl, comments, rfl⟩ := ih replaced'
      exact ⟨held :: before, dropped, after, rfl, comments, rfl⟩

/-- A comment takes the place of others. -/
theorem Group.Holds.replace (h : group.Holds limit) {before dropped after : List (Address × KeyValuePair)} (comment : Option Bytes)
    (split : group.keyValuePairs = before ++ (dropped ++ after)) (comments : ∀ held ∈ dropped, held.2.key = none) :
    ({ group with
      keyValuePairs := before ++ ((comment.toList.map fun comment =>
        (limit, (⟨none, KeyFile.parseCommentAsValue comment⟩ : KeyValuePair))) ++ after) } : Group).Holds (limit + 1) := by
  have dropped := h.dropComments split comments
  cases comment with
  | none => exact dropped.mono (Nat.le_succ _)
  | some comment => exact dropped.insertComment (KeyFile.parseCommentAsValue comment) rfl

/-! ## The list of groups -/

/-- What the key file's own pointers depend on: the addresses and the names of the groups. -/
def KeyFile.outline (file : KeyFile) : List (Address × Option Bytes) := file.groups.map fun held => (held.1, held.2.name)

def firstNamed (outline : List (Address × Option Bytes)) : Option Address :=
  (outline.reverse.find? (·.2.isSome)).map Prod.fst

/-- The pointers and the list agree; the current group is in the list if it is known to be alive. -/
structure Outlined (outline : List (Address × Option Bytes)) (index : Bytes → Option Address)
    (start current : Option Address) (limit : Address) (live : Prop) : Prop where
  distinct : (outline.map Prod.fst).Nodup
  below : ∀ entry ∈ outline, entry.1 < limit
  index : IsIndex id index outline
  unique : (outline.filterMap Prod.snd).Nodup
  top : ∃ named top, outline = named ++ [(top, none)] ∧ ∀ entry ∈ named, entry.2.isSome
  start : start = firstNamed outline
  current : live → ∃ address ∈ outline.map Prod.fst, current = some address

section Outlines

variable {outline : List (Address × Option Bytes)} {index : Bytes → Option Address} {start current : Option Address}
  {address : Address} {name : Bytes} {live : Prop}

theorem address_of_unique (unique : (outline.filterMap Prod.snd).Nodup) {one two : Address × Option Bytes} (first : one ∈ outline)
    (second : two ∈ outline) (named : one.2 = some name) (same : two.2 = some name) : one.1 = two.1 := by
  induction outline with
  | nil => cases first
  | cons head rest ih =>
    -- a second entry with the head's name would repeat it
    have apart : ∀ entry ∈ rest, entry.2 = some name → head.2 ≠ some name := by
      intro entry inside again here
      rw [List.filterMap_cons, here] at unique
      exact (List.nodup_cons.mp unique).1 (List.mem_filterMap.mpr ⟨entry, inside, again⟩)
    have distinct : (rest.filterMap Prod.snd).Nodup := unique.sublist ((List.sublist_cons_self head rest).filterMap _)
    rcases List.mem_cons.mp first with rfl | one_inside
    · rcases List.mem_cons.mp second with rfl | two_inside
      · rfl
      · exact absurd named (apart two two_inside same)
    · rcases List.mem_cons.mp second with rfl | two_inside
      · exact absurd same (apart one one_inside named)
      · exact ih distinct one_inside two_inside

/-- The search for the first named group passes over a group that it does not end at. -/
theorem firstNamed_skip (elsewhere : firstNamed outline ≠ some address) :
    firstNamed outline = (outline.reverse.find? fun entry => entry.1 ≠ address ∧ entry.2.isSome).map Prod.fst := by
  unfold firstNamed at *
  cases first : outline.reverse.find? (·.2.isSome) with
  | none =>
    have nowhere : outline.reverse.find? (fun entry => decide (entry.1 ≠ address ∧ entry.2.isSome)) = none := by
      apply List.find?_eq_none.mpr
      intro entry inside both
      exact List.find?_eq_none.mp first entry inside (of_decide_eq_true both).2
    rw [nowhere]
  | some entry =>
    rw [first] at elsewhere
    obtain ⟨named, before, after, split, skipped⟩ := List.find?_eq_some_iff_append.mp first
    have apart : entry.1 ≠ address := fun same => elsewhere (congrArg some same)
    have found : outline.reverse.find? (fun entry => decide (entry.1 ≠ address ∧ entry.2.isSome)) = some entry := by
      apply List.find?_eq_some_iff_append.mpr
      refine ⟨decide_eq_true ⟨apart, named⟩, before, after, split, fun other inside => ?_⟩
      have unnamed : other.2.isSome = false := by simpa using skipped other inside
      simp [unnamed]
    rw [found]

theorem Outlined.mono (h : Outlined outline index start current limit live) (grows : limit ≤ later) :
    Outlined outline index start current later live :=
  { h with below := fun entry inside => Nat.lt_of_lt_of_le (h.below entry inside) grows }

theorem Outlined.enter (h : Outlined outline index start current limit live) (found : index name = some address) :
    Outlined outline index start (some address) limit live := by
  obtain ⟨held, inside, -⟩ := h.index.mem found
  exact { h with current := fun _ => ⟨address, List.mem_map_of_mem inside, rfl⟩ }

theorem Outlined.add (h : Outlined outline index start current limit live) (missing : index name = none) :
    Outlined ((limit, some name) :: outline) (Function.update index name (some limit)) (start.or (some limit)) (some limit)
      (limit + 1) live where
  distinct := by
    apply List.nodup_cons.mpr
    refine ⟨fun given => ?_, h.distinct⟩
    obtain ⟨entry, inside, same⟩ := List.mem_map.mp given
    exact absurd (h.below entry inside) (same ▸ Nat.lt_irrefl _)
  below := by
    intro entry inside
    rcases List.mem_cons.mp inside with rfl | inside
    · exact Nat.lt_succ_self _
    · exact Nat.lt_succ_of_lt (h.below entry inside)
  index := h.index.prepend rfl limit
  unique := by
    apply List.nodup_cons.mpr
    refine ⟨fun given => ?_, h.unique⟩
    obtain ⟨entry, inside, named⟩ := List.mem_filterMap.mp given
    have found := h.index.isSome.mpr ⟨entry, inside, named⟩
    rw [missing] at found
    cases found
  top := by
    obtain ⟨named, top, rfl, all⟩ := h.top
    exact ⟨(limit, some name) :: named, top, rfl, List.forall_mem_cons.mpr ⟨rfl, all⟩⟩
  start := by
    unfold firstNamed
    rw [List.reverse_cons, List.find?_append, h.start, firstNamed]
    cases outline.reverse.find? (·.2.isSome) with
    | none => rfl
    | some entry => rfl
  current := fun _ => ⟨limit, List.mem_cons_self, rfl⟩

/-- A group goes. Were it both the current group and the head of the list, the pointer would stay on it. -/
theorem Outlined.remove (h : Outlined outline index start current limit live) (found : index name = some address)
    (elsewhere : live → ¬(current = some address ∧ outline.head?.map Prod.fst = some address)) :
    Outlined (removeRecord outline address) (Function.update index name none)
      (if start = some address then (outline.reverse.find? fun entry => entry.1 ≠ address ∧ entry.2.isSome).map Prod.fst else start)
      (if current = some address then outline.head?.map Prod.fst else current) limit live where
  distinct := h.distinct.sublist (removeRecord_sublist.map _)
  below := fun entry inside => h.below entry (removeRecord_sublist.subset inside)
  index := by
    obtain ⟨held, inside, named⟩ := h.index.mem found
    apply h.index.remove h.distinct inside named
    exact fun entry other same => address_of_unique h.unique other inside same named
  unique := h.unique.sublist (removeRecord_sublist.filterMap _)
  top := by
    obtain ⟨held, inside, named⟩ := h.index.mem found
    obtain ⟨names, top, rfl, all⟩ := h.top
    rw [removeRecord_eq_filter h.distinct, List.filter_append]
    have apart : top ≠ address := by
      rintro rfl
      have same := same_of_mem h.distinct inside (List.mem_append_right names List.mem_cons_self)
      subst same
      cases named
    refine ⟨names.filter fun entry => entry.1 ≠ address, top, ?_, fun entry inside => all entry (List.mem_of_mem_filter inside)⟩
    rw [List.filter_cons_of_pos (by simpa using apart), List.filter_nil]
  start := by
    have without : firstNamed (removeRecord outline address) =
        (outline.reverse.find? fun entry => entry.1 ≠ address ∧ entry.2.isSome).map Prod.fst := by
      rw [removeRecord_eq_filter h.distinct, firstNamed, ← List.filter_reverse, List.find?_filter]
      simp only [decide_eq_true_eq]
    rw [without]
    by_cases first : start = some address
    · rw [if_pos first]
    · rw [if_neg first, h.start]
      rw [h.start] at first
      exact firstNamed_skip first
  current := by
    intro alive
    rw [removeRecord_eq_filter h.distinct]
    by_cases here : current = some address
    · rw [if_pos here]
      cases outline with
      | nil =>
        obtain ⟨held, inside, -⟩ := h.index.mem found
        cases inside
      | cons head rest =>
        have apart : head.1 ≠ address := fun same => elsewhere alive ⟨here, congrArg some same⟩
        refine ⟨head.1, ?_, rfl⟩
        rw [List.filter_cons_of_pos (by simpa using apart)]
        exact List.mem_cons_self
    · rw [if_neg here]
      obtain ⟨other, inside, rfl⟩ := h.current alive
      obtain ⟨entry, there, rfl⟩ := List.mem_map.mp inside
      have apart : entry.1 ≠ address := fun same => here (congrArg some same)
      exact ⟨entry.1, List.mem_map_of_mem (List.mem_filter.mpr ⟨there, decide_eq_true apart⟩), rfl⟩

end Outlines

/-! ## A key file -/

structure KeyFile.Holds (live : Prop) (file : KeyFile) : Prop where
  outlined : Outlined file.outline file.lookupGroup file.startGroup file.currentGroup file.fresh live
  groups : ∀ held ∈ file.groups, held.2.Holds file.fresh

namespace KeyFile

theorem holds_init (live : Prop) (fresh : Address) : (init fresh).Holds live where
  outlined := {
    distinct := List.nodup_singleton _
    below := by
      intro entry inside
      cases List.mem_singleton.mp inside
      exact Nat.lt_succ_self _
    index := fun _ => rfl
    unique := List.nodup_nil
    top := ⟨[], fresh, rfl, nofun⟩
    start := rfl
    current := fun _ => ⟨fresh, List.mem_cons_self, rfl⟩ }
  groups := by
    intro held inside
    cases List.mem_singleton.mp inside
    exact ⟨List.nodup_nil, nofun, rfl, fun _ => rfl⟩

variable {live : Prop} {file : KeyFile} {address : Address} {held : Group} {groupName key value : Bytes}

theorem Holds.distinct (h : file.Holds live) : (file.groups.map Prod.fst).Nodup := by
  have distinct := h.outlined.distinct
  rw [outline, List.map_map] at distinct
  exact distinct

theorem mem_outline {name : Option Bytes} (inside : (address, name) ∈ file.outline) :
    ∃ held, (address, held) ∈ file.groups ∧ held.name = name := by
  obtain ⟨⟨_, held⟩, there, same⟩ := List.mem_map.mp inside
  cases same
  exact ⟨held, there, rfl⟩

theorem Holds.lookupGroup (h : file.Holds live) (found : file.lookupGroup groupName = some address) :
    ∃ held, (address, held) ∈ file.groups ∧ held.name = some groupName ∧ record file.groups address = .ok held := by
  obtain ⟨name, inside, named⟩ := h.outlined.index.mem found
  obtain ⟨held, there, rfl⟩ := mem_outline inside
  exact ⟨held, there, named, record_of_mem h.distinct there⟩

theorem Holds.change (h : file.Holds live) {change : Group → Group} {fresh : Address} (later : file.fresh ≤ fresh)
    (same : ∀ held, (change held).name = held.name)
    (keeps : ∀ held, (address, held) ∈ file.groups → held.Holds file.fresh → (change held).Holds fresh) :
    { file with groups := updateRecord file.groups address change, fresh }.Holds live where
  outlined := by
    have outline : KeyFile.outline { file with groups := updateRecord file.groups address change, fresh } = file.outline := by
      unfold KeyFile.outline updateRecord
      rw [List.map_map]
      apply List.map_congr_left
      intro entry _
      by_cases here : entry.1 = address
      · simp [here, same]
      · simp [here]
    rw [outline]
    exact h.outlined.mono later
  groups := by
    intro entry changed
    rcases mem_updateRecord changed with ⟨inside, -⟩ | ⟨held, inside, rfl⟩
    · exact (h.groups entry inside).mono later
    · exact keeps held inside (h.groups _ inside)

theorem Holds.addGroup (h : file.Holds live) (groupName : Bytes) : (file.addGroup groupName).Holds live := by
  unfold KeyFile.addGroup
  split
  · exact h
  · cases found : file.lookupGroup groupName with
    | some group => exact ⟨h.outlined.enter found, h.groups⟩
    | none =>
      refine ⟨?_, ?_⟩
      · have index : KeyFile.lookupGroup { file with
            groups := (file.fresh, ⟨some groupName, none, [], some ∅⟩) :: file.groups
            groupHash := some ((file.groupHash.getD ∅).insert groupName file.fresh)
            startGroup := file.startGroup.or (some file.fresh)
            currentGroup := some file.fresh
            fresh := file.fresh + 1 } = Function.update file.lookupGroup groupName (some file.fresh) := by
          have before : file.lookupGroup = fun other => (file.groupHash.getD ∅).lookup other := by
            funext other
            unfold KeyFile.lookupGroup
            cases file.groupHash with
            | none => rfl
            | some index => rfl
          rw [before, ← lookup_insert]
          rfl
        rw [index]
        exact h.outlined.add found
      · intro entry inside
        rcases List.mem_cons.mp inside with rfl | inside
        · exact Group.holds_empty _ _ _
        · exact (h.groups entry inside).mono (Nat.le_succ _)

theorem Holds.addKey (h : file.Holds live) (inside : (address, held) ∈ file.groups) (named : held.name.isSome) (key value : Bytes) :
    ∃ file', file.addKey address key value = .ok file' ∧ file'.Holds live := by
  unfold KeyFile.addKey
  rw [record_of_mem h.distinct inside]
  refine ⟨_, rfl, h.change (Nat.le_succ _) (fun _ => rfl) fun other there holds => ?_⟩
  cases same_of_mem h.distinct inside there
  exact holds.addKeyValuePair named key value

theorem Holds.setValue (h : file.Holds live) (setting : Setting) (groupName key value : Bytes) :
    ∃ file', file.setValue setting groupName key value = .ok file' ∧ file'.Holds live := by
  unfold KeyFile.setValue
  split
  · exact ⟨file, rfl, h⟩
  · rename_i names
    cases found : file.lookupGroup groupName with
    | none =>
      have added := h.addGroup groupName
      have head : (file.addGroup groupName).groups = (file.fresh, ⟨some groupName, none, [], some ∅⟩) :: file.groups := by
        unfold KeyFile.addGroup
        rw [found, if_neg (by simp_all)]
      have inside : (file.fresh, (⟨some groupName, none, [], some ∅⟩ : Group)) ∈ (file.addGroup groupName).groups := by
        rw [head]
        exact List.mem_cons_self
      obtain ⟨file', done, holds⟩ := added.addKey inside rfl key value
      refine ⟨file', ?_, holds⟩
      dsimp only
      rw [head]
      exact done
    | some group =>
      obtain ⟨held, inside, named, found'⟩ := h.lookupGroup found
      dsimp only
      rw [found']
      dsimp only [bind, Except.bind]
      cases keyed : held.lookupKeyValuePair key with
      | none => exact h.addKey inside (Option.isSome_iff_exists.mpr ⟨_, named⟩) key value
      | some pair =>
        have holds := h.groups _ inside
        obtain ⟨old, there, -⟩ := holds.index.mem keyed
        dsimp only
        rw [record_of_mem holds.distinct there]
        exact ⟨_, rfl, h.change (Nat.le_refl _) (fun _ => rfl) fun other _ holds => holds.setValue pair value⟩

theorem Holds.removeKey (h : file.Holds live)
    (once : ∀ held ∈ file.groups, held.2.name = some groupName → held.2.occurrences key ≤ 1) :
    ∃ file' outcome, file.removeKey groupName key = .ok (file', outcome) ∧ file'.Holds live := by
  unfold KeyFile.removeKey
  cases found : file.lookupGroup groupName with
  | none => exact ⟨file, _, rfl, h⟩
  | some group =>
    obtain ⟨held, inside, named, found'⟩ := h.lookupGroup found
    dsimp only
    rw [found']
    dsimp only [bind, Except.bind]
    cases keyed : held.lookupKeyValuePair key with
    | none => exact ⟨file, _, rfl, h⟩
    | some pair =>
      have holds := h.groups _ inside
      obtain ⟨gone, there, has⟩ := holds.index.mem keyed
      dsimp only
      rw [record_of_mem holds.distinct there]
      refine ⟨_, _, rfl, h.change (Nat.le_refl _) (fun _ => rfl) fun other present holds => ?_⟩
      cases same_of_mem h.distinct inside present
      exact holds.removeKey there has fun entry present same =>
        congrArg Prod.fst (occurs_once (once _ inside named) present there same has)

theorem outline_removeRecord (file : KeyFile) (group : Address) :
    (removeRecord file.groups group).map (fun held => (held.1, held.2.name)) = removeRecord file.outline group := by
  unfold outline removeRecord
  rw [List.eraseP_map]
  rfl

theorem Holds.removeGroup (h : file.Holds live)
    (elsewhere : live → ∀ group, file.lookupGroup groupName = some group →
      ¬(file.currentGroup = some group ∧ file.groups.head?.map Prod.fst = some group)) :
    ∃ file' outcome, file.removeGroup groupName = .ok (file', outcome) ∧ file'.Holds live := by
  unfold KeyFile.removeGroup lookupGroupNode
  cases found : file.lookupGroup groupName with
  | none => exact ⟨file, _, rfl, h⟩
  | some group =>
    obtain ⟨held, inside, named, found'⟩ := h.lookupGroup found
    rw [Option.filter_some, if_pos (decide_eq_true (List.mem_map_of_mem inside))]
    dsimp only
    unfold removeGroupNode
    rw [found']
    dsimp only [bind, Except.bind]
    rw [named]
    cases hashed : file.groupHash with
    | none =>
      rw [KeyFile.lookupGroup, hashed] at found
      cases found
    | some index =>
      have before : file.lookupGroup = fun other => index.lookup other := by
        funext other
        rw [KeyFile.lookupGroup, hashed]
        rfl
      have head : file.outline.head?.map Prod.fst = file.groups.head?.map Prod.fst := by
        unfold outline
        rw [List.head?_map, Option.map_map]
        rfl
      have next : (file.outline.reverse.find? fun entry => entry.1 ≠ group ∧ entry.2.isSome).map Prod.fst = file.nextStartGroup group := by
        unfold outline nextStartGroup
        rw [← List.map_reverse, List.find?_map, Option.map_map]
        rfl
      refine ⟨_, _, rfl, ?_, fun entry present => h.groups entry (removeRecord_sublist.subset present)⟩
      have removed := h.outlined.remove found fun alive => head ▸ elsewhere alive group found
      rw [head, next, before, ← lookup_erase, ← outline_removeRecord] at removed
      exact removed

theorem Holds.setKeyComment (h : file.Holds live) (groupName key : Bytes) (comment : Option Bytes) :
    ∃ file' outcome, file.setKeyComment groupName key comment = .ok (file', outcome) ∧ file'.Holds live := by
  unfold KeyFile.setKeyComment
  cases found : file.lookupGroup groupName with
  | none => exact ⟨file, _, rfl, h⟩
  | some group =>
    obtain ⟨held, inside, named, found'⟩ := h.lookupGroup found
    dsimp only
    rw [found']
    dsimp only [bind, Except.bind]
    cases replaced : replaceComments key (file.commentNode comment) held.keyValuePairs with
    | none => exact ⟨file, _, rfl, h⟩
    | some keyValuePairs =>
      obtain ⟨before, dropped, after, split, comments, rfl⟩ := replaceComments_split replaced
      refine ⟨_, _, rfl, h.change (Nat.le_succ _) (fun _ => rfl) fun other present holds => ?_⟩
      cases same_of_mem h.distinct inside present
      exact holds.replace comment split comments

theorem Holds.setGroupComment (h : file.Holds live) (groupName : Bytes) (comment : Option Bytes) :
    ∃ file' outcome, file.setGroupComment groupName comment = .ok (file', outcome) ∧ file'.Holds live := by
  unfold KeyFile.setGroupComment
  split
  · exact ⟨file, _, rfl, h⟩
  · cases found : file.lookupGroup groupName with
    | none => exact ⟨file, _, rfl, h⟩
    | some group =>
      obtain ⟨held, inside, named, found'⟩ := h.lookupGroup found
      dsimp only
      rw [found']
      exact ⟨_, _, rfl, h.change (Nat.le_refl _) (fun _ => rfl) fun other _ holds =>
        ⟨holds.distinct, holds.below, holds.mapped, holds.index⟩⟩

theorem Holds.setTopComment (h : file.Holds live) (comment : Option Bytes) :
    ∃ file' outcome, file.setTopComment comment = .ok (file', outcome) ∧ file'.Holds live := by
  unfold KeyFile.setTopComment
  obtain ⟨named, top, shape, -⟩ := h.outlined.top
  cases last : file.groups.getLast? with
  | none =>
    have empty := List.getLast?_eq_none_iff.mp last
    rw [outline, empty] at shape
    exact absurd shape (by simp)
  | some entry =>
    obtain ⟨groups, split⟩ : ∃ groups, file.groups = groups ++ [entry] := by
      obtain ⟨nonempty, last⟩ := List.getLast?_eq_some_iff.mp last
      exact ⟨_, last⟩
    have unnamed : entry.2.name = none := by
      rw [outline, split, List.map_append] at shape
      have same := List.head_eq_of_cons_eq (List.append_inj' shape rfl).2
      exact congrArg Prod.snd same
    refine ⟨_, _, rfl, h.change (Nat.le_succ _) (fun _ => rfl) fun other present holds => ?_⟩
    have there : (entry.1, entry.2) ∈ file.groups := by
      rw [split]
      exact List.mem_append_right _ List.mem_cons_self
    cases same_of_mem h.distinct there present
    have all : entry.2.keyValuePairs = [] ++ (entry.2.keyValuePairs ++ []) := (List.append_nil _).symm
    have replaced := holds.replace comment all (holds.unkeyed unnamed)
    rw [List.nil_append, List.append_nil] at replaced
    exact replaced

theorem Holds.setComment (h : file.Holds live) (groupName key comment : Option Bytes) :
    ∃ file' outcome, file.setComment groupName key comment = .ok (file', outcome) ∧ file'.Holds live := by
  cases groupName with
  | none => exact h.setTopComment comment
  | some groupName =>
    cases key with
    | none => exact h.setGroupComment groupName comment
    | some key => exact h.setKeyComment groupName key comment

end KeyFile

end Xpl.Keyfile
