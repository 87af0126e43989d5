import Mathlib.Data.List.Forall2
import Xpl.Schema.Lookup

/-! The strings and values that the lookups return, and the enumeration. -/

set_option autoImplicit false

namespace Xpl.Schema
open Xpl.Library Xpl.Collections
variable {entries : List Entry}

theorem bytesOf_drop (words : List Word) (k : Nat) : (bytesOf words).drop (4 * k) = bytesOf (words.drop k) := by
  induction words generalizing k with
  | nil => simp [bytesOf]
  | cons word words ih =>
    rcases k with _ | k
    · rfl
    · rw [List.drop_succ_cons, ← ih k, Nat.mul_succ, Nat.add_comm, ← List.drop_drop]
      rfl

section Entries

variable {entries : List Entry} {p : Nat} {entry : Entry}

theorem EntryAt.bytes (at_entry : EntryAt entries p entry) :
    ∃ after, (bytesOf (mapOf entries)).drop (4 * (p + 1)) = formatted entry.isAlias entry.nick ++ after := by
  obtain ⟨after, rest⟩ := at_entry.stands.drop
  refine ⟨bytesOf (framed after), ?_⟩
  have behind : (mapOf entries).drop (p + 1) = frameOf entry.isAlias entry.nick ++ framed after := by
    rw [← List.drop_drop]
    change ((framed (entries.map Entry.record)).drop p).drop 1 = _
    rw [rest]
    rfl
  rw [bytesOf_drop, behind, bytesOf_append, bytesOf_frameOf]

theorem cString_at (at_entry : EntryAt entries p entry) :
    cString (mapOf entries) (4 * (p + 1) + 1) = .ok entry.nick.bytes := by
  obtain ⟨after, bytes⟩ := at_entry.bytes
  obtain ⟨rest, shape⟩ := formatted_eq entry.isAlias entry.nick
  have behind : (bytesOf (mapOf entries)).drop (4 * (p + 1) + 1) = entry.nick.bytes ++ 0 :: (rest ++ after) := by
    rw [← List.drop_drop, bytes, shape]
    simp
  unfold cString
  rw [behind, if_pos (by simp), takeWhile_nick]

/-! ## Enumeration -/

theorem markerFrom_behind (isAlias : Bool) (nick : Nick) (after : Bytes) {k count : Nat} (later : k ≠ 0 ∨ isAlias = true)
    (inside : k < 4 * nick.words) (enough : (formatted isAlias nick).length - k ≤ count) :
    markerFrom ((formatted isAlias nick ++ after).drop k) count = .ok (4 * nick.words - 1 - k) := by
  have length := length_formatted isAlias nick
  have found : (((formatted isAlias nick ++ after).drop k).take count).idxOf? 0xff = some (4 * nick.words - 1 - k) := by
    have at_index : ∀ j < 4 * nick.words - k, (((formatted isAlias nick ++ after).drop k).take count)[j]? =
        (formatted isAlias nick)[k + j]? := by
      intro j near
      rw [List.getElem?_take, if_pos (by omega), List.getElem?_drop, List.getElem?_append_left (by omega)]
    have last := at_index (4 * nick.words - 1 - k) (by omega)
    rw [formatted_getElem?, if_neg (by omega), if_neg (by have := nick.words_bounds; omega), if_neg (by omega),
      if_pos (by omega)] at last
    obtain ⟨reached, ends⟩ := List.getElem?_eq_some_iff.mp last
    refine List.idxOf?_eq_some_iff.mpr ⟨reached, ends, fun j before marked => ?_⟩
    have held := at_index j (by omega)
    rw [List.getElem?_eq_getElem (by omega), marked] at held
    by_cases first : k + j = 0
    · have kind := later.resolve_left (by omega)
      rw [first, kind] at held
      exact absurd held (by simp [formatted, marker])
    · have ended := formatted_marked first held.symm (.inl rfl)
      omega
  unfold markerFrom
  rw [found]

theorem markerFrom_marker (nick : Nick) (after : Bytes) {count : Nat} (positive : 0 < count) :
    markerFrom (formatted false nick ++ after) count = .ok 0 := by
  obtain ⟨rest, shape⟩ := formatted_eq false nick
  obtain ⟨n, rfl⟩ : ∃ n, count = n + 1 := ⟨count - 1, by omega⟩
  unfold markerFrom
  rw [shape, List.cons_append, List.take_succ_cons, List.idxOf?_cons, if_pos (by decide)]

end Entries

def itemStrings (entries : List Entry) : List Bytes := (entries.filter (!·.isAlias)).map (·.nick.bytes)

theorem enumerateFrom_end (strinfo : List Word) {stop ptr : Nat} (reached : stop ≤ ptr) :
    enumerateFrom strinfo stop ptr = .ok [] := by
  rw [enumerateFrom, if_neg (by omega)]

theorem enumerateFrom_step {strinfo : List Word} {stop ptr distance : Nat} {added : List Bytes} (inside : ptr < stop)
    (adds : addedAt strinfo ptr = .ok added) (found : markerFrom ((bytesOf strinfo).drop ptr) (stop - ptr) = .ok distance) :
    enumerateFrom strinfo stop ptr = (enumerateFrom strinfo stop (ptr + distance + 5)).map (added ++ ·) := by
  rw [enumerateFrom, if_pos inside, adds, found]

theorem enumerateFrom_entry {p : Nat} {entry : Entry} (at_entry : EntryAt entries p entry) :
    enumerateFrom (mapOf entries) (4 * (mapOf entries).length) (4 * (p + 1)) =
      (enumerateFrom (mapOf entries) (4 * (mapOf entries).length) (4 * (p + 1 + entry.nick.words + 1))).map
        (itemStrings [entry] ++ ·) := by
  have bounds := entry.nick.words_bounds
  have length := length_formatted entry.isAlias entry.nick
  obtain ⟨after, bytes⟩ := at_entry.bytes
  have whole : 4 * (p + 1) + 4 * entry.nick.words ≤ 4 * (mapOf entries).length := by
    have cut := congrArg List.length bytes
    rw [List.length_drop, length_bytesOf, List.length_append, length] at cut
    omega
  have byte : ∀ i < 4 * entry.nick.words, (bytesOf (mapOf entries))[4 * (p + 1) + i]? =
      (formatted entry.isAlias entry.nick)[i]? := by
    intro i inside
    rw [← List.getElem?_drop, bytes, List.getElem?_append_left (by omega)]
  have behind : ∀ k, k ≠ 0 ∨ entry.isAlias = true → k < 4 * entry.nick.words →
      markerFrom ((bytesOf (mapOf entries)).drop (4 * (p + 1) + k)) (4 * (mapOf entries).length - (4 * (p + 1) + k)) =
        .ok (4 * entry.nick.words - 1 - k) := by
    intro k later inside
    rw [← List.drop_drop, bytes]
    exact markerFrom_behind _ _ _ later inside (by omega)
  have first := byte 0 (by omega)
  rw [Nat.add_zero, formatted_getElem?, if_pos rfl] at first
  cases kind : entry.isAlias with
  | true =>
    have adds : addedAt (mapOf entries) (4 * (p + 1)) = .ok [] := by
      rw [addedAt, first, kind]
      rfl
    rw [enumerateFrom_step (by omega) adds (behind 0 (.inr kind) (by omega)),
      show 4 * (p + 1) + (4 * entry.nick.words - 1 - 0) + 5 = 4 * (p + 1 + entry.nick.words + 1) by omega]
    simp [itemStrings, kind]
  | false =>
    have adds : addedAt (mapOf entries) (4 * (p + 1)) = .ok [entry.nick.bytes] := by
      rw [addedAt, first, kind]
      rw [cString_at at_entry]
      rfl
    have found : markerFrom ((bytesOf (mapOf entries)).drop (4 * (p + 1))) (4 * (mapOf entries).length - 4 * (p + 1)) = .ok 0 := by
      rw [bytes, kind]
      exact markerFrom_marker _ _ (by omega)
    -- the search from the marker finds the marker, and the pointer lands inside the string
    have inner : addedAt (mapOf entries) (4 * (p + 1) + 0 + 5) = .ok [] := by
      obtain ⟨fifth, held⟩ : ∃ fifth, (formatted entry.isAlias entry.nick)[5]? = some fifth :=
        ⟨_, List.getElem?_eq_getElem (by omega)⟩
      have unmarked : fifth ≠ 0xff := by
        intro marked
        have ended := formatted_marked (by decide) held (.inl marked)
        omega
      rw [addedAt, Nat.add_zero, byte 5 (by omega), held]
      exact if_neg unmarked
    rw [enumerateFrom_step (by omega) adds found,
      enumerateFrom_step (by omega) inner (behind 5 (.inl (by decide)) (by omega)),
      show 4 * (p + 1) + 0 + 5 + (4 * entry.nick.words - 1 - 5) + 5 = 4 * (p + 1 + entry.nick.words + 1) by omega]
    cases enumerateFrom (mapOf entries) (4 * (mapOf entries).length) (4 * (p + 1 + entry.nick.words + 1)) with
    | error stop => rfl
    | ok others => simp [itemStrings, kind, Except.map]

theorem length_mapOf_append (before : List Entry) (entry : Entry) (after : List Entry) :
    (mapOf (before ++ entry :: after)).length = (mapOf before).length + 1 + entry.nick.words + (mapOf after).length := by
  simp only [mapOf, List.map_append, List.map_cons, framed_append, Entry.record, framed, List.length_append, List.length_cons,
    length_frameOf]
  omega

theorem enumerateFrom_rest (before after : List Entry) :
    enumerateFrom (mapOf (before ++ after)) (4 * (mapOf (before ++ after)).length) (4 * ((mapOf before).length + 1)) =
      .ok (itemStrings after) := by
  induction after generalizing before with
  | nil =>
    rw [List.append_nil]
    exact enumerateFrom_end _ (by omega)
  | cons entry after ih =>
    have rest := ih (before ++ [entry])
    have moved : (mapOf (before ++ [entry])).length = (mapOf before).length + 1 + entry.nick.words := length_mapOf_append before entry []
    rw [List.append_assoc, List.singleton_append, moved] at rest
    rw [enumerateFrom_entry ⟨before, after, rfl, rfl⟩, rest]
    unfold itemStrings
    simp [Except.map, List.filter_cons]
    split <;> simp [*]

theorem strinfoEnumerate_ok (small : (mapOf entries).length < 2 ^ 30) :
    strinfoEnumerate (mapOf entries) (mapOf entries).length = .ok (itemStrings entries) := by
  unfold strinfoEnumerate
  rw [Nat.mod_eq_of_lt (by omega)]
  exact enumerateFrom_rest [] entries

/-! A map answers every lookup as the list of its items and aliases does. -/

/-! ## Entries under distinct names -/

section Links

variable {α : Type} {R : Entry → α → Prop} {entries : List Entry} {links : List (Bytes × α)}

/-- The entries of a list, and what is known of each under its name. -/
def Linked (R : Entry → α → Prop) : List Entry → List (Bytes × α) → Prop :=
  List.Forall₂ fun entry link => entry.nick.bytes = link.1 ∧ R entry link.2

theorem Linked.lookup (linked : Linked R entries links) (distinct : (entries.map (·.nick.bytes)).Nodup) {entry : Entry}
    (given : entry ∈ entries) : ∃ known, links.lookup entry.nick.bytes = some known ∧ R entry known := by
  induction linked with
  | nil => cases given
  | @cons first link entries links same _ ih =>
    rw [List.map_cons, List.nodup_cons] at distinct
    obtain ⟨name, known⟩ := link
    rcases List.mem_cons.mp given with rfl | later
    · refine ⟨known, ?_, same.2⟩
      rw [same.1]
      exact List.lookup_cons_self
    · obtain ⟨found, looked, related⟩ := ih distinct.2 later
      have other : (entry.nick.bytes == name) = false := by
        rw [beq_eq_false_iff_ne]
        intro equal
        exact distinct.1 (List.mem_map.mpr ⟨entry, later, equal.trans same.1.symm⟩)
      refine ⟨found, ?_, related⟩
      rw [List.lookup_cons, other]
      exact looked

theorem Linked.lookup_none (linked : Linked R entries links) {name : Bytes} (missing : ∀ entry ∈ entries, entry.nick.bytes ≠ name) :
    links.lookup name = none := by
  induction linked with
  | nil => rfl
  | @cons first link entries links same _ ih =>
    have other : (name == link.1) = false := by
      rw [beq_eq_false_iff_ne, ← same.1]
      exact (missing first List.mem_cons_self).symm
    rw [List.lookup_cons, other]
    exact ih fun entry given => missing entry (List.mem_cons_of_mem _ given)

theorem Linked.names (linked : Linked R entries links) : entries.map (·.nick.bytes) = links.map (·.1) := by
  induction linked with
  | nil => rfl
  | cons same _ ih => rw [List.map_cons, List.map_cons, same.1, ih]

end Links

theorem Linked.find_value {items : List (Bytes × UInt32)}
    (linked : Linked (fun entry value => entry.value = value) entries items) (value : UInt32) :
    (items.find? (·.2 = value)).map (·.1) = (entries.find? (·.value = value)).map (·.nick.bytes) := by
  induction linked with
  | nil => rfl
  | @cons entry item entries items same _ ih =>
    rw [List.find?_cons, List.find?_cons, ← same.2]
    by_cases equal : entry.value = value
    · rw [decide_eq_true equal]
      exact congrArg some same.1.symm
    · rw [decide_eq_false equal]
      exact ih

/-- The entries and the items and aliases that they stand for. -/
structure StandsFor (entries : List Entry) (items : List (Bytes × UInt32)) (aliases : List (Bytes × Bytes)) : Prop where
  distinct : (entries.map (·.nick.bytes)).Nodup
  items : Linked (fun entry value => entry.value = value) (entries.filter (!·.isAlias)) items
  aliases : Linked (fun entry target => ∃ p item, EntryAt entries p item ∧ item.isAlias = false ∧
    item.nick.bytes = target ∧ entry.value = UInt32.ofNat p) (entries.filter (·.isAlias)) aliases

section Lookups

variable {entries : List Entry} {items : List (Bytes × UInt32)} {aliases : List (Bytes × Bytes)}
  (h : StandsFor entries items aliases)
include h

theorem StandsFor.distinct_filter (kind : Entry → Bool) : ((entries.filter kind).map (·.nick.bytes)).Nodup :=
  h.distinct.sublist (List.filter_sublist.map _)

theorem StandsFor.itemStrings : itemStrings entries = items.map (·.1) := h.items.names

variable (small : (mapOf entries).length ≤ 2 ^ 31)
include small

omit h in
theorem toXint_of_entry {p : Nat} {entry : Entry} (at_entry : EntryAt entries p entry) : toXint p = p :=
  if_pos (Nat.lt_of_lt_of_le at_entry.lt small)

omit h small in
theorem wordAt_entry {p : Nat} {entry : Entry} (at_entry : EntryAt entries p entry) :
    wordAt (mapOf entries) p = .ok (toLe entry.value) := by
  have held : (mapOf entries)[p]? = some (toLe entry.value) := at_entry.stands.getElem?_free
  rw [wordAt, held]

theorem StandsFor.enumFromString (stack : Nat → UInt8) (nick : Nick) :
    strinfoEnumFromString stack (mapOf entries) (mapOf entries).length nick.bytes = .ok (items.lookup nick.bytes) := by
  unfold strinfoEnumFromString
  obtain ⟨p, entry, found, at_entry, kind, rfl⟩ | ⟨missing, nowhere⟩ := strinfoFindString_ok stack false nick
  · have given : entry ∈ entries.filter (!·.isAlias) := List.mem_filter.mpr ⟨at_entry.mem, by simp [kind]⟩
    obtain ⟨value, looked, same⟩ := h.items.lookup (h.distinct_filter _) given
    rw [found, toXint_of_entry small at_entry, looked]
    change (if (p : Int) < 0 then .ok none else (wordAt (mapOf entries) p).bind fun word => .ok (some (fromLe word))) = _
    rw [if_neg (by omega), wordAt_entry at_entry]
    change Except.ok (some (fromLe (toLe entry.value))) = _
    rw [fromLe_toLe, same]
  · rw [missing, h.items.lookup_none]
    · rfl
    · intro entry given same
      obtain ⟨mem, kind⟩ := List.mem_filter.mp given
      exact nowhere entry mem ⟨by simpa using kind, Nick.ext same⟩

theorem StandsFor.isStringValid (stack : Nat → UInt8) (nick : Nick) :
    strinfoIsStringValid stack (mapOf entries) (mapOf entries).length nick.bytes =
      .ok (decide (nick.bytes ∈ items.map (·.1))) := by
  unfold strinfoIsStringValid
  rw [← h.itemStrings]
  obtain ⟨p, entry, found, at_entry, kind, rfl⟩ | ⟨missing, nowhere⟩ := strinfoFindString_ok stack false nick
  · have given : entry.nick.bytes ∈ Schema.itemStrings entries :=
      List.mem_map.mpr ⟨entry, List.mem_filter.mpr ⟨at_entry.mem, by simp [kind]⟩, rfl⟩
    rw [found, toXint_of_entry small at_entry, decide_eq_true given]
    change Except.ok (decide ((p : Int) ≠ -1)) = _
    rw [decide_eq_true (by omega)]
  · have absent : nick.bytes ∉ Schema.itemStrings entries := by
      intro given
      obtain ⟨entry, mem, same⟩ := List.mem_map.mp given
      obtain ⟨mem, kind⟩ := List.mem_filter.mp mem
      exact nowhere entry mem ⟨by simpa using kind, Nick.ext same⟩
    rw [missing, decide_eq_false absent]
    rfl

theorem StandsFor.stringFromEnum (value : UInt32) :
    strinfoStringFromEnum (mapOf entries) (mapOf entries).length value =
      .ok ((items.find? (·.2 = value)).map (·.1)) := by
  unfold strinfoStringFromEnum strinfoFindInteger
  rw [h.items.find_value, List.find?_filter]
  obtain ⟨p, entry, found, at_entry, ⟨valued, kind⟩, first⟩ | ⟨missing, nowhere⟩ :=
    @findIntegerFrom_ok entries value 0 (fun p below => absurd below (Nat.not_lt_zero p))
  · obtain ⟨before, after, rfl, rfl⟩ := id at_entry
    have find : (before ++ entry :: after).find? (fun other => decide ((!other.isAlias) = true ∧ decide (other.value = value) = true)) = some entry := by
      refine List.find?_eq_some_iff_append.mpr ⟨by simp [valued, kind], before, after, rfl, fun other given => ?_⟩
      obtain ⟨q, at_other⟩ := entryAt_of_mem given
      have earlier := first q at_other.lt other at_other.before.1
      by_contra both
      exact earlier (by simpa [and_comm] using both)
    rw [found, toXint_of_entry small at_entry, find]
    change (if ((mapOf before).length : Int) < 0 then .ok none
      else (cString (mapOf (before ++ entry :: after)) (4 * ((mapOf before).length + 1) + 1)).map some) = _
    rw [if_neg (by omega), cString_at at_entry]
    rfl
  · have find : entries.find? (fun other => decide ((!other.isAlias) = true ∧ decide (other.value = value) = true)) = none := by
      refine List.find?_eq_none.mpr fun other given both => ?_
      obtain ⟨q, at_other⟩ := entryAt_of_mem given
      exact nowhere q other at_other (by simpa [and_comm] using both)
    rw [missing, find]
    rfl

theorem StandsFor.stringFromAlias (stack : Nat → UInt8) (nick : Nick) :
    strinfoStringFromAlias stack (mapOf entries) (mapOf entries).length nick.bytes = .ok (aliases.lookup nick.bytes) := by
  unfold strinfoStringFromAlias
  obtain ⟨p, entry, found, at_entry, kind, rfl⟩ | ⟨missing, nowhere⟩ := strinfoFindString_ok stack true nick
  · have given : entry ∈ entries.filter (·.isAlias) := List.mem_filter.mpr ⟨at_entry.mem, by simp [kind]⟩
    obtain ⟨target, looked, q, item, at_item, -, named, same⟩ := h.aliases.lookup (h.distinct_filter _) given
    have below := Nat.lt_of_lt_of_le at_item.lt small
    have next : (fromLe (toLe entry.value) + 1).toNat = q + 1 := by
      rw [fromLe_toLe, same, UInt32.toNat_add, UInt32.toNat_ofNat', Nat.mod_eq_of_lt (show q < 2 ^ 32 by omega)]
      exact Nat.mod_eq_of_lt (by change q + 1 < _; omega)
    rw [found, toXint_of_entry small at_entry, looked]
    change (if (p : Int) < 0 then .ok none else (wordAt (mapOf entries) p).bind fun word =>
      (cString (mapOf entries) (4 * (fromLe word + 1).toNat + 1)).map some) = _
    rw [if_neg (by omega), wordAt_entry at_entry]
    change (cString (mapOf entries) (4 * (fromLe (toLe entry.value) + 1).toNat + 1)).map some = _
    rw [next, cString_at at_item, named]
    rfl
  · rw [missing, h.aliases.lookup_none]
    · rfl
    · intro entry given same
      obtain ⟨mem, kind⟩ := List.mem_filter.mp given
      exact nowhere entry mem ⟨by simpa using kind, Nick.ext same⟩

end Lookups

end Xpl.Schema
