import Xpl.Schema.Strinfo

/-! What the lookups find in a map of entries. -/

set_option autoImplicit false

namespace Xpl.Schema
open Xpl.Library Xpl.Collections
variable {p : Nat}

structure Entry where
  value : UInt32
  isAlias : Bool
  nick : Nick

def Entry.record (entry : Entry) : Word × List Word := (toLe entry.value, frameOf entry.isAlias entry.nick)

def mapOf (entries : List Entry) : List Word := framed (entries.map Entry.record)

theorem frames_of_entries (entries : List Entry) :
    ∀ record ∈ entries.map Entry.record, IsFrame opensString closesString record.2 := by
  intro record given
  obtain ⟨entry, -, rfl⟩ := List.mem_map.mp given
  exact isFrame_frameOf entry.isAlias entry.nick

def EntryAt (entries : List Entry) (p : Nat) (entry : Entry) : Prop :=
  ∃ before after, entries = before ++ entry :: after ∧ p = (mapOf before).length

variable {entries : List Entry} {entry : Entry}

theorem EntryAt.stands (at_entry : EntryAt entries p entry) :
    StandsAt (entries.map Entry.record) p entry.record := by
  obtain ⟨before, after, rfl, rfl⟩ := at_entry
  exact ⟨before.map Entry.record, after.map Entry.record, by simp, rfl⟩

theorem entryAt_of_stands {record : Word × List Word}
    (stands : StandsAt (entries.map Entry.record) p record) : ∃ entry, EntryAt entries p entry ∧ entry.record = record := by
  obtain ⟨before, after, split, rfl⟩ := stands
  obtain ⟨before, rest, rfl, rfl, tail⟩ := List.map_eq_append_iff.mp split
  obtain ⟨entry, after, rfl, rfl, rfl⟩ := List.map_eq_cons_iff.mp tail
  exact ⟨entry, ⟨before, after, rfl, rfl⟩, rfl⟩

theorem EntryAt.mem (at_entry : EntryAt entries p entry) : entry ∈ entries := by
  obtain ⟨before, after, rfl, -⟩ := at_entry
  simp

theorem entryAt_of_mem (given : entry ∈ entries) : ∃ p, EntryAt entries p entry := by
  obtain ⟨before, after, split⟩ := List.append_of_mem given
  exact ⟨(mapOf before).length, before, after, split, rfl⟩

theorem EntryAt.lt (at_entry : EntryAt entries p entry) :
    p < (mapOf entries).length :=
  (List.getElem?_eq_some_iff.mp at_entry.stands.getElem?_free).1

/-! ## Scanning -/

theorem matching_ok {array words : List Word} (fits : words.length ≤ array.length) :
    ∃ j, matching array words = .ok j ∧ j ≤ words.length ∧ words.take j <+: array ∧
      (j = words.length ∨ ¬words <+: array) := by
  induction words generalizing array with
  | nil => exact ⟨0, by simp [matching], Nat.le_refl 0, List.nil_prefix, .inl rfl⟩
  | cons word words ih =>
    cases array with
    | nil => exact absurd fits (by simp)
    | cons held array =>
      unfold matching
      by_cases same : held = word
      · obtain ⟨j, matched, bounded, begins, ended⟩ := ih (Nat.le_of_succ_le_succ fits)
        refine ⟨j + 1, by rw [if_pos same, matched]; rfl, Nat.succ_le_succ bounded, ?_, ?_⟩
        · rw [List.take_succ_cons, same]
          exact List.cons_prefix_cons.mpr ⟨rfl, begins⟩
        · rcases ended with all | differs
          · exact .inl (by rw [all]; rfl)
          · exact .inr fun occurs => differs (List.cons_prefix_cons.mp occurs).2
      · refine ⟨0, if_neg same, Nat.zero_le _, List.nil_prefix, .inr fun occurs => same ?_⟩
        exact (List.cons_prefix_cons.mp occurs).1.symm

/-- No match begins among the words that a partial match skips, since only the first word of a frame opens. -/
theorem no_match_skipped {array words : List Word} (is_frame : IsFrame opensString closesString words) {i j k : Nat}
    (bounded : j ≤ words.length) (partly : words.take j <+: array.drop i) (later : i < k) (skipped : k < i + j) :
    ¬words <+: array.drop k := by
  intro occurs
  obtain ⟨first, at_zero, opened⟩ := is_frame.getElem_zero
  have there := getElem?_of_prefix occurs at_zero
  rw [List.getElem?_drop, Nat.add_zero] at there
  have inside : k - i < words.length := by omega
  have taken : (words.take j)[k - i]? = some words[k - i] := by
    rw [List.getElem?_take, if_pos (by omega), List.getElem?_eq_getElem inside]
  have held := getElem?_of_prefix partly taken
  rw [List.getElem?_drop, Nat.add_sub_of_le (Nat.le_of_lt later), there, Option.some_inj] at held
  have opens_later := (is_frame.opens (List.getElem?_eq_getElem inside)).mp (held ▸ opened)
  omega

section Scanning

variable {strinfo words : List Word}

/-- The search in the first words of an array finds the first match that ends among them. -/
theorem scanFrom_within (is_frame : IsFrame opensString closesString words) {length : Nat} (inside : length ≤ strinfo.length)
    (fits : words.length ≤ length) {i : Nat} (before : ∀ k < i, ¬words <+: strinfo.drop k) :
    (∃ k, scanFrom strinfo length words i = .ok (toXint k) ∧ words <+: strinfo.drop k ∧ k + words.length ≤ length ∧
        ∀ k' < k, ¬words <+: strinfo.drop k') ∨
      (scanFrom strinfo length words i = .ok (-1) ∧ ∀ k, words <+: strinfo.drop k → length < k + words.length) := by
  rw [scanFrom]
  by_cases room : i ≤ length - words.length
  · obtain ⟨j, matched, bounded, partly, ended⟩ := @matching_ok (strinfo.drop i) words (by rw [List.length_drop]; omega)
    rw [if_pos room, matched]
    dsimp only
    by_cases all : j = words.length
    · rw [if_pos all]
      rw [all, List.take_length] at partly
      exact .inl ⟨i, rfl, partly, by omega, before⟩
    · rw [if_neg all]
      apply scanFrom_within is_frame inside fits
      intro k reached
      rcases Nat.lt_trichotomy k i with earlier | rfl | later
      · exact before k earlier
      · exact ended.resolve_left all
      · refine no_match_skipped is_frame bounded partly later ?_
        split at reached <;> omega
  · rw [if_neg room]
    refine .inr ⟨rfl, fun k occurs => ?_⟩
    by_contra within
    exact before k (by omega) occurs
termination_by length + 1 - i
decreasing_by split <;> omega

theorem strinfoScan_within (is_frame : IsFrame opensString closesString words) {length : Nat} (inside : length ≤ strinfo.length) :
    (∃ k, strinfoScan strinfo length words = .ok (toXint k) ∧ words <+: strinfo.drop k ∧ k + words.length ≤ length ∧
        ∀ k' < k, ¬words <+: strinfo.drop k') ∨
      (strinfoScan strinfo length words = .ok (-1) ∧ ∀ k, words <+: strinfo.drop k → length < k + words.length) := by
  unfold strinfoScan
  by_cases shorter : length < words.length
  · rw [if_pos shorter]
    exact .inr ⟨rfl, fun k _ => by omega⟩
  · rw [if_neg shorter]
    exact scanFrom_within is_frame inside (by omega) (fun k earlier => absurd earlier (Nat.not_lt_zero k))

end Scanning

section Map
variable {p : Nat}
variable {entries : List Entry}

theorem occurs_entry_iff {isAlias : Bool} {nick : Nick} :
    frameOf isAlias nick <+: ((mapOf entries).drop 1).drop p ↔
      ∃ entry, EntryAt entries p entry ∧ entry.isAlias = isAlias ∧ entry.nick = nick := by
  rw [List.drop_drop, Nat.add_comm]
  apply (occurs_iff (frames_of_entries entries) (isFrame_frameOf isAlias nick)).trans
  constructor
  · rintro ⟨free, stands⟩
    obtain ⟨entry, at_entry, same⟩ := entryAt_of_stands stands
    have inj := frameOf_inj (congrArg Prod.snd same)
    exact ⟨entry, at_entry, inj.1, inj.2⟩
  · rintro ⟨entry, at_entry, rfl, rfl⟩
    exact ⟨_, at_entry.stands⟩

/-- The index of the first entry with this string and of this kind, or −1 where none ends among the words searched. -/
theorem strinfoFindString_within (stack : Nat → UInt8) (isAlias : Bool) (nick : Nick) {length : Nat}
    (inside : length ≤ (mapOf entries).length) :
    (∃ p entry, strinfoFindString stack (mapOf entries) length nick.bytes isAlias = .ok (toXint p) ∧
      EntryAt entries p entry ∧ entry.isAlias = isAlias ∧ entry.nick = nick ∧ p + 1 + nick.words ≤ length ∧
      ∀ q other, EntryAt entries q other → other.isAlias = isAlias → other.nick = nick → p ≤ q) ∨
    (strinfoFindString stack (mapOf entries) length nick.bytes isAlias = .ok (-1) ∧
      ∀ p entry, EntryAt entries p entry → entry.isAlias = isAlias → entry.nick = nick → length < p + 1 + nick.words) := by
  have frame := length_frameOf isAlias nick
  unfold strinfoFindString
  by_cases empty : length = 0
  · rw [if_pos empty]
    exact .inr ⟨rfl, fun p entry _ _ _ => by omega⟩
  · rw [if_neg empty, stringToWords_eq]
    have shorter : length - 1 ≤ ((mapOf entries).drop 1).length := by
      rw [List.length_drop]
      omega
    rcases strinfoScan_within (isFrame_frameOf isAlias nick) shorter with
      ⟨p, found, occurs, within, first⟩ | ⟨missing, nowhere⟩
    · obtain ⟨entry, at_entry, kind, named⟩ := occurs_entry_iff.mp occurs
      refine .inl ⟨p, entry, found, at_entry, kind, named, by omega, ?_⟩
      intro q other at_other kind' named'
      by_contra earlier
      exact first q (by omega) (occurs_entry_iff.mpr ⟨other, at_other, kind', named'⟩)
    · refine .inr ⟨missing, ?_⟩
      intro p entry at_entry kind named
      have behind := nowhere p (occurs_entry_iff.mpr ⟨entry, at_entry, kind, named⟩)
      omega

theorem EntryAt.end_le {entry : Entry} (at_entry : EntryAt entries p entry) :
    p + 1 + entry.nick.words ≤ (mapOf entries).length := by
  have occurs := occurs_entry_iff.mpr ⟨entry, at_entry, rfl, rfl⟩
  have reached := occurs.length_le
  have bounds := entry.nick.words_bounds
  rw [length_frameOf, List.length_drop, List.length_drop] at reached
  omega

theorem strinfoFindString_ok (stack : Nat → UInt8) (isAlias : Bool) (nick : Nick) :
    (∃ p entry, strinfoFindString stack (mapOf entries) (mapOf entries).length nick.bytes isAlias = .ok (toXint p) ∧
      EntryAt entries p entry ∧ entry.isAlias = isAlias ∧ entry.nick = nick) ∨
    (strinfoFindString stack (mapOf entries) (mapOf entries).length nick.bytes isAlias = .ok (-1) ∧
      ∀ entry ∈ entries, ¬(entry.isAlias = isAlias ∧ entry.nick = nick)) := by
  obtain ⟨p, entry, found, at_entry, kind, named, -, -⟩ | ⟨missing, nowhere⟩ :=
    strinfoFindString_within stack isAlias nick (Nat.le_refl (mapOf entries).length)
  · exact .inl ⟨p, entry, found, at_entry, kind, named⟩
  · refine .inr ⟨missing, fun entry given same => ?_⟩
    obtain ⟨p, at_entry⟩ := entryAt_of_mem given
    have behind := nowhere p entry at_entry same.1 same.2
    have inside := at_entry.end_le
    rw [same.2] at inside
    omega

/-! ## Integers -/

theorem EntryAt.marked {entry : Entry} (at_entry : EntryAt entries p entry) :
    ∃ word, (mapOf entries)[p + 1]? = some word ∧ word.b0 = marker entry.isAlias := by
  have is_frame := isFrame_frameOf entry.isAlias entry.nick
  obtain ⟨word, first, -⟩ := is_frame.getElem_zero
  refine ⟨word, (at_entry.stands.getElem?_frame (List.getElem?_eq_some_iff.mp first).1).trans first, ?_⟩
  have byte := (toWords_getElem? first).1
  rw [formatted_getElem?, if_pos rfl, Option.some_inj] at byte
  exact byte.symm

theorem isInteger_ok {i : Nat} (inside : i < (mapOf entries).length) :
    ∃ found, isInteger (mapOf entries) i = .ok found ∧
      (found = true ↔ ∃ entry, EntryAt entries i entry ∧ entry.isAlias = false) := by
  have frames := frames_of_entries entries
  obtain ⟨before, read, behind⟩ : ∃ before, closedBefore (mapOf entries) i = .ok before ∧
      (before = true ↔ i = 0 ∨ ∃ word, (mapOf entries)[i - 1]? = some word ∧ closesString word) := by
    unfold closedBefore
    by_cases zero : i = 0
    · exact ⟨true, if_pos zero, iff_of_true rfl (.inl zero)⟩
    · have held := List.getElem?_eq_getElem (show i - 1 < (mapOf entries).length by omega)
      refine ⟨decide ((mapOf entries)[i - 1].b3 = 0xff), ?_, ?_⟩
      · rw [if_neg zero, wordAt, held]
        rfl
      · rw [decide_eq_true_iff, held, or_iff_right zero]
        simp [closesString]
  unfold isInteger
  rw [read]
  change ∃ found, (if before = true then (wordAt (mapOf entries) (i + 1)).map (fun word => decide (word.b0 = 0xff)) else .ok false) =
    .ok found ∧ _
  cases before with
  | false =>
    refine ⟨false, rfl, iff_of_false Bool.false_ne_true ?_⟩
    rintro ⟨entry, at_entry, -⟩
    exact Bool.false_ne_true (behind.mpr (at_entry.stands.closed_before frames))
  | true =>
    have closed := behind.mp rfl
    obtain ⟨next, follows⟩ : ∃ next, (mapOf entries)[i + 1]? = some next :=
      ⟨_, List.getElem?_eq_getElem (next_inside frames inside closed)⟩
    refine ⟨decide (next.b0 = 0xff), ?_, ?_⟩
    · rw [if_pos rfl, wordAt, follows]
      rfl
    · rw [decide_eq_true_iff]
      constructor
      · intro opened
        obtain ⟨record, stands⟩ := free_of_between frames closed follows (.inl opened)
        obtain ⟨entry, at_entry, -⟩ := entryAt_of_stands stands
        obtain ⟨word, first, marked⟩ := at_entry.marked
        cases first.symm.trans follows
        refine ⟨entry, at_entry, ?_⟩
        cases kind : entry.isAlias with
        | false => rfl
        | true =>
          rw [kind, opened] at marked
          exact absurd marked (by decide)
      · rintro ⟨entry, at_entry, kind⟩
        obtain ⟨word, first, marked⟩ := at_entry.marked
        cases first.symm.trans follows
        rw [marked, kind]
        rfl

theorem EntryAt.before {first : List Entry} {entry : Entry} {rest : List Entry}
    (at_entry : EntryAt first p entry) : EntryAt (first ++ rest) p entry ∧ p < (mapOf first).length := by
  refine ⟨?_, at_entry.lt⟩
  obtain ⟨before, after, rfl, rfl⟩ := at_entry
  exact ⟨before, after ++ rest, by simp, rfl⟩

theorem isValue_ok (value : UInt32) {i : Nat} (inside : i < (mapOf entries).length) :
    ∃ found, isValue (mapOf entries) value i = .ok found ∧
      (found = true ↔ ∃ entry, EntryAt entries i entry ∧ entry.value = value ∧ entry.isAlias = false) := by
  obtain ⟨held, there⟩ : ∃ held, (mapOf entries)[i]? = some held := ⟨_, List.getElem?_eq_getElem inside⟩
  obtain ⟨found, read, exactly⟩ := isInteger_ok inside
  have value_at : ∀ entry, EntryAt entries i entry → held = toLe entry.value := fun entry at_entry =>
    Option.some_inj.mp (there.symm.trans at_entry.stands.getElem?_free)
  unfold isValue
  rw [wordAt, there]
  change ∃ found, (if held = toLe value then isInteger (mapOf entries) i else .ok false) = .ok found ∧ _
  by_cases same : held = toLe value
  · refine ⟨found, by rw [if_pos same, read], exactly.trans ⟨?_, ?_⟩⟩
    · rintro ⟨entry, at_entry, kind⟩
      exact ⟨entry, at_entry, toLe_inj ((value_at entry at_entry).symm.trans same), kind⟩
    · rintro ⟨entry, at_entry, -, kind⟩
      exact ⟨entry, at_entry, kind⟩
  · refine ⟨false, if_neg same, iff_of_false Bool.false_ne_true ?_⟩
    rintro ⟨entry, at_entry, valued, -⟩
    exact same ((value_at entry at_entry).trans (congrArg toLe valued))

/-- The index of the first item with the value, or −1 where there is none. -/
theorem findIntegerFrom_ok (value : UInt32) (i : Nat)
    (earlier : ∀ p < i, ∀ entry, EntryAt entries p entry → ¬(entry.value = value ∧ entry.isAlias = false)) :
    (∃ p entry, findIntegerFrom (mapOf entries) (mapOf entries).length value i = .ok (toXint p) ∧ EntryAt entries p entry ∧
      (entry.value = value ∧ entry.isAlias = false) ∧
      ∀ q < p, ∀ entry, EntryAt entries q entry → ¬(entry.value = value ∧ entry.isAlias = false)) ∨
    (findIntegerFrom (mapOf entries) (mapOf entries).length value i = .ok (-1) ∧
      ∀ p entry, EntryAt entries p entry → ¬(entry.value = value ∧ entry.isAlias = false)) := by
  rw [findIntegerFrom]
  by_cases inside : i < (mapOf entries).length
  · obtain ⟨found, read, exactly⟩ := isValue_ok value inside
    rw [if_pos inside, read]
    cases found with
    | true =>
      obtain ⟨entry, at_entry, matches_value⟩ := exactly.mp rfl
      exact .inl ⟨i, entry, rfl, at_entry, matches_value, earlier⟩
    | false =>
      apply findIntegerFrom_ok
      intro p reached entry at_entry matches_value
      rcases Nat.lt_succ_iff_lt_or_eq.mp reached with below | rfl
      · exact earlier p below entry at_entry matches_value
      · exact Bool.false_ne_true (exactly.mpr ⟨entry, at_entry, matches_value⟩)
  · rw [if_neg inside]
    exact .inr ⟨rfl, fun p entry at_entry => earlier p (Nat.lt_of_lt_of_le at_entry.lt (Nat.le_of_not_lt inside)) entry at_entry⟩
termination_by (mapOf entries).length - i

end Map

end Xpl.Schema
