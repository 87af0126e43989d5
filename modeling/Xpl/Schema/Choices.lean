import Xpl.Schema.MapBuilding

/-! Which strings a map accepts. A string of more than 65 bytes has no words, and a search for no words succeeds at once
in every array but the empty one. -/

set_option autoImplicit false

namespace Xpl.Schema
open Xpl.Library Xpl.Collections
variable {entries : List Entry} {string : Bytes}

section

variable (stack : Nat → UInt8)

def strinfoBuilderContains (builder : List Word) (string : Bytes) : Except Stop Bool := do
  let index ← strinfoFindString stack builder (wordCount builder) string false
  if index ≠ -1 then .ok true
  else
    let index ← strinfoFindString stack builder (wordCount builder) string true
    .ok (decide (index ≠ -1))

inductive ChoiceValue where
  | string (text : Bytes)
  | container (children : List ChoiceValue)

mutual

def isValidChoices (strinfo : List Word) : ChoiceValue → Except Stop Bool
  | .string text => strinfoIsStringValid stack strinfo (wordCount strinfo) text
  | .container children => allValidChoices strinfo children

/-- The loop over the children of a container, which ends at the first that is not valid. -/
def allValidChoices (strinfo : List Word) : List ChoiceValue → Except Stop Bool
  | [] => .ok true
  | child :: children => do
    let valid ← isValidChoices strinfo child
    if valid then allValidChoices strinfo children else .ok false

end

/-- The kinds and strings that the calls append; an alias counts where the call returns `TRUE`. -/
def appendedBy (builder : List Word) : List StrinfoCall → Except Stop (List (Bool × Bytes))
  | [] => .ok []
  | .item string value :: calls => do
    let builder ← strinfoBuilderAppendItem stack builder string value
    let names ← appendedBy builder calls
    .ok ((false, string) :: names)
  | .aliasOf nick target :: calls => do
    let appended ← strinfoBuilderAppendAlias stack builder nick target
    let names ← appendedBy appended.2 calls
    .ok (if appended.1 then (true, nick) :: names else names)

end

mutual

def ChoiceValue.strings : ChoiceValue → List Bytes
  | .string text => [text]
  | .container children => stringsOf children

def stringsOf : List ChoiceValue → List Bytes
  | [] => []
  | child :: children => child.strings ++ stringsOf children

end

def Entry.name (entry : Entry) : Bool × Bytes := (entry.isAlias, entry.nick.bytes)

/-! ## What the calls leave -/

def AliasesPoint (entries : List Entry) : Prop :=
  ∀ entry ∈ entries, entry.isAlias = true →
    ∃ p item, EntryAt entries p item ∧ p + 1 < 2 ^ 32 ∧ entry.value = UInt32.ofNat p

theorem AliasesPoint.append (points : AliasesPoint entries) {added : Entry}
    (pointing : added.isAlias = true → ∃ p item, EntryAt entries p item ∧ p + 1 < 2 ^ 32 ∧ added.value = UInt32.ofNat p) :
    AliasesPoint (entries ++ [added]) := by
  intro entry given kind
  have known : ∃ p item, EntryAt entries p item ∧ p + 1 < 2 ^ 32 ∧ entry.value = UInt32.ofNat p := by
    rcases List.mem_append.mp given with earlier | last
    · exact points entry earlier kind
    · cases List.mem_singleton.mp last
      exact pointing kind
  obtain ⟨p, item, at_item, small, value⟩ := known
  exact ⟨p, item, at_item.before.1, small, value⟩

theorem wordCount_le (builder : List Word) : wordCount builder ≤ builder.length := Nat.mod_le _ _

theorem wordCount_lt (builder : List Word) : wordCount builder < 2 ^ 32 := Nat.mod_lt _ (by decide)

theorem toXint_ne {p : Nat} (small : p + 1 < 2 ^ 32) : toXint p ≠ -1 := by
  unfold toXint
  split <;> omega

theorem ofInt_toXint {p : Nat} (small : p < 2 ^ 32) : UInt32.ofInt (toXint p) = UInt32.ofNat p := by
  have word : (toXint p % 2 ^ 32).toNat = p := by
    unfold toXint
    split <;> omega
  rw [UInt32.ofInt, word]

theorem appendAlias_within (stack : Nat → UInt8) (entries : List Entry) (nick target : Nick) :
    (∃ p item, EntryAt entries p item ∧ p + 1 < 2 ^ 32 ∧
      strinfoBuilderAppendAlias stack (mapOf entries) nick.bytes target.bytes =
        .ok (true, mapOf (entries ++ [⟨UInt32.ofNat p, true, nick⟩]))) ∨
    strinfoBuilderAppendAlias stack (mapOf entries) nick.bytes target.bytes = .ok (false, mapOf entries) := by
  have count := wordCount_lt (mapOf entries)
  unfold strinfoBuilderAppendAlias
  rcases strinfoFindString_within stack false target (wordCount_le (mapOf entries)) with
    ⟨p, item, found, at_item, -, -, within, -⟩ | ⟨missing, -⟩
  · have bounds := target.words_bounds
    refine .inl ⟨p, item, at_item, by omega, ?_⟩
    rw [found, mapOf_append, ← ofInt_toXint (by omega)]
    change (if toXint p = -1 then .ok (false, mapOf entries) else (stringToWords stack nick.bytes true).bind fun words =>
      .ok (true, mapOf entries ++ [toLe (UInt32.ofInt (toXint p))] ++ words)) = _
    rw [if_neg (toXint_ne (by omega)), stringToWords_eq]
    rfl
  · rw [missing]
    exact .inr rfl

theorem build_entries (stack : Nat → UInt8) {calls : List StrinfoCall} (acceptable : ∀ call ∈ calls, call.Acceptable)
    {entries : List Entry} (points : AliasesPoint entries) :
    ∃ added, build stack (mapOf entries) calls = .ok (mapOf (entries ++ added)) ∧
      appendedBy stack (mapOf entries) calls = .ok (added.map Entry.name) ∧ AliasesPoint (entries ++ added) := by
  -- over the calls: an alias is added only where the map has its target, so what is there still points inside
  induction calls generalizing entries with
  | nil =>
    refine ⟨[], ?_⟩
    rw [List.append_nil]
    exact ⟨rfl, rfl, points⟩
  | cons call calls ih =>
    obtain ⟨first, others⟩ := List.forall_mem_cons.mp acceptable
    cases call with
    | item string value =>
      let entry : Entry := ⟨value, false, IsNick.nick first⟩
      have appended : strinfoBuilderAppendItem stack (mapOf entries) string value = .ok (mapOf (entries ++ [entry])) := by
        rw [mapOf_append]
        exact appendItem_ok stack (mapOf entries) (IsNick.nick first) value
      have extended : AliasesPoint (entries ++ [entry]) := points.append fun kind => absurd kind Bool.false_ne_true
      obtain ⟨added, built, named, pointing⟩ := ih others extended
      rw [List.append_assoc] at built pointing
      refine ⟨entry :: added, ?_, ?_, pointing⟩
      · rw [build, appended]
        exact built
      · rw [appendedBy, appended]
        change (appendedBy stack (mapOf (entries ++ [entry])) calls).bind _ = _
        rw [named]
        rfl
    | aliasOf nick target =>
      rcases appendAlias_within stack entries (IsNick.nick first.1) (IsNick.nick first.2) with
        ⟨p, item, at_item, small, appended⟩ | kept
      · let entry : Entry := ⟨UInt32.ofNat p, true, IsNick.nick first.1⟩
        have extended : AliasesPoint (entries ++ [entry]) := points.append fun _ => ⟨p, item, at_item, small, rfl⟩
        obtain ⟨added, built, named, pointing⟩ := ih others extended
        rw [List.append_assoc] at built pointing
        change strinfoBuilderAppendAlias stack (mapOf entries) nick target = .ok (true, mapOf (entries ++ [entry])) at appended
        refine ⟨entry :: added, ?_, ?_, pointing⟩
        · rw [build, appended]
          exact built
        · rw [appendedBy, appended]
          change (appendedBy stack (mapOf (entries ++ [entry])) calls).bind _ = _
          rw [named]
          rfl
      · change strinfoBuilderAppendAlias stack (mapOf entries) nick target = .ok (false, mapOf entries) at kept
        obtain ⟨added, built, named, pointing⟩ := ih others points
        refine ⟨added, ?_, ?_, pointing⟩
        · rw [build, kept]
          exact built
        · rw [appendedBy, kept]
          change (appendedBy stack (mapOf entries) calls).bind _ = _
          rw [named]
          rfl

/-! ## A string without words -/

theorem length_store {array stored source : Bytes} {offset : Nat} (did : store array offset source = .ok stored) :
    stored.length = array.length := by
  unfold store at did
  split at did
  · cases did
    simp only [List.length_append, List.length_take, List.length_drop]
    omega
  · cases did

theorem stores_fail {α : Type} {array source : Bytes} (long : array.length < 1 + source.length) (first last : Bytes) (offset : Nat)
    (result : Bytes → α) :
    ∃ stop, (do
      let words ← store array 0 first
      let words ← store words offset last
      let words ← store words 1 source
      .ok (result words)) = Except.error stop := by
  cases marked : store array 0 first with
  | error stop => exact ⟨stop, rfl⟩
  | ok words =>
    cases closed : store words offset last with
    | error stop =>
      refine ⟨stop, ?_⟩
      change (store words offset last).bind _ = _
      rw [closed]
      rfl
    | ok words' =>
      have room : ¬1 + source.length ≤ words'.length := by
        rw [length_store closed, length_store marked]
        omega
      refine ⟨.outside, ?_⟩
      change (store words offset last).bind _ = _
      rw [closed]
      change (store words' 1 source).bind _ = _
      rw [store, if_neg room]
      rfl

theorem stringToWords_long (stack : Nat → UInt8) (long : 65 < string.length) (isAlias : Bool) :
    stringToWords stack string isAlias = .ok [] ∨ ∃ stop, stringToWords stack string isAlias = .error stop := by
  unfold stringToWords
  by_cases many : maxWords < max 2 ((string.length + 6) / 4) % 2 ^ 32
  · exact .inl (if_pos many)
  · rw [if_neg many]
    right
    apply stores_fail
    rw [List.length_map, List.length_range, List.length_append, List.length_singleton]
    have room : maxWords = 17 := rfl
    omega

theorem findString_long (stack : Nat → UInt8) (long : 65 < string.length) (isAlias : Bool)
    (strinfo : List Word) {length : Nat} (filled : length ≠ 0) :
    strinfoFindString stack strinfo length string isAlias = .ok 0 ∨
      ∃ stop, strinfoFindString stack strinfo length string isAlias = .error stop := by
  unfold strinfoFindString
  rw [if_neg filled]
  rcases stringToWords_long stack long isAlias with none | ⟨stop, failed⟩
  · rw [none]
    change strinfoScan (strinfo.drop 1) (length - 1) [] = .ok 0 ∨ ∃ stop, strinfoScan (strinfo.drop 1) (length - 1) [] = .error stop
    rw [strinfoScan, List.length_nil, if_neg (Nat.not_lt_zero _), scanFrom, if_pos (Nat.zero_le _), matching]
    exact .inl rfl
  · rw [failed]
    exact .inr ⟨stop, rfl⟩

/-! ## Which strings the lookups find -/

/-- An entry of this kind and string is at the position, and it ends among the words that the counter counts. -/
def Within (entries : List Entry) (isAlias : Bool) (string : Bytes) (p : Nat) : Prop :=
  ∃ entry, EntryAt entries p entry ∧ entry.name = (isAlias, string) ∧ p + 1 + entry.nick.words ≤ wordCount (mapOf entries)

theorem Within.mem {isAlias : Bool} {p : Nat} (within : Within entries isAlias string p) :
    (isAlias, string) ∈ entries.map Entry.name := by
  obtain ⟨entry, at_entry, named, -⟩ := within
  exact List.mem_map.mpr ⟨entry, at_entry.mem, named⟩

section Short

variable {entries : List Entry} (stack : Nat → UInt8) (nick : Nick)

theorem findString_within (isAlias : Bool) :
    (∃ p, strinfoFindString stack (mapOf entries) (wordCount (mapOf entries)) nick.bytes isAlias = .ok (toXint p) ∧
      Within entries isAlias nick.bytes p ∧ p + 1 < 2 ^ 32 ∧ ∀ q, Within entries isAlias nick.bytes q → p ≤ q) ∨
    (strinfoFindString stack (mapOf entries) (wordCount (mapOf entries)) nick.bytes isAlias = .ok (-1) ∧
      ¬∃ p, Within entries isAlias nick.bytes p) := by
  have count := wordCount_lt (mapOf entries)
  rcases strinfoFindString_within stack isAlias nick (wordCount_le (mapOf entries)) with
    ⟨p, entry, found, at_entry, kind, named, within, first⟩ | ⟨missing, nowhere⟩
  · refine .inl ⟨p, found, ⟨entry, at_entry, ?_, ?_⟩, by omega, ?_⟩
    · rw [Entry.name, kind, named]
    · rw [named]
      exact within
    · rintro q ⟨other, at_other, same, -⟩
      exact first q other at_other (congrArg Prod.fst same) (Nick.ext (congrArg Prod.snd same))
  · refine .inr ⟨missing, ?_⟩
    rintro ⟨p, entry, at_entry, same, within⟩
    have named : entry.nick = nick := Nick.ext (congrArg Prod.snd same)
    have behind := nowhere p entry at_entry (congrArg Prod.fst same) named
    rw [named] at within
    omega

theorem isStringValid_within : ∃ found,
    strinfoIsStringValid stack (mapOf entries) (wordCount (mapOf entries)) nick.bytes = .ok found ∧
      (found = true ↔ ∃ p, Within entries false nick.bytes p) := by
  unfold strinfoIsStringValid
  rcases @findString_within entries stack nick false with ⟨p, index, within, small, -⟩ | ⟨index, nowhere⟩
  · rw [index]
    refine ⟨true, ?_, iff_of_true rfl ⟨p, within⟩⟩
    exact congrArg Except.ok (decide_eq_true (toXint_ne small))
  · rw [index]
    exact ⟨false, rfl, iff_of_false Bool.false_ne_true nowhere⟩

theorem contains_within : ∃ found, strinfoBuilderContains stack (mapOf entries) nick.bytes = .ok found ∧
    (found = true ↔ (∃ p, Within entries false nick.bytes p) ∨ ∃ p, Within entries true nick.bytes p) := by
  unfold strinfoBuilderContains
  rcases @findString_within entries stack nick false with ⟨p, index, within, small, -⟩ | ⟨index, nowhere⟩
  · rw [index]
    refine ⟨true, ?_, iff_of_true rfl (.inl ⟨p, within⟩)⟩
    exact if_pos (toXint_ne small)
  · rw [index]
    rcases @findString_within entries stack nick true with ⟨p, index', within, small, -⟩ | ⟨index', nowhere'⟩
    · rw [index']
      refine ⟨true, ?_, iff_of_true rfl (.inr ⟨p, within⟩)⟩
      exact congrArg Except.ok (decide_eq_true (toXint_ne small))
    · rw [index']
      exact ⟨false, rfl, iff_of_false Bool.false_ne_true (not_or.mpr ⟨nowhere, nowhere'⟩)⟩

/-- An alias is found where the index of its integer is no negative `xint_t`. -/
theorem stringFromAlias_within (points : AliasesPoint entries) : ∃ target,
    strinfoStringFromAlias stack (mapOf entries) (wordCount (mapOf entries)) nick.bytes = .ok target ∧
      (target.isSome = true ↔ ∃ p, Within entries true nick.bytes p ∧ p < 2 ^ 31) := by
  unfold strinfoStringFromAlias
  rcases @findString_within entries stack nick true with ⟨p, index, within, small, first⟩ | ⟨index, nowhere⟩
  · rw [index]
    change ∃ target, (if toXint p < 0 then .ok none else (wordAt (mapOf entries) (toXint p).toNat).bind fun word =>
      (cString (mapOf entries) (4 * (fromLe word + 1).toNat + 1)).map some) = .ok target ∧ _
    by_cases low : p < 2 ^ 31
    · obtain ⟨entry, at_entry, named, -⟩ := id within
      obtain ⟨q, item, at_item, below, value⟩ := points entry at_entry.mem (congrArg Prod.fst named)
      have next : (fromLe (toLe entry.value) + 1).toNat = q + 1 := by
        rw [fromLe_toLe, value, UInt32.toNat_add, UInt32.toNat_ofNat', Nat.mod_eq_of_lt (show q < 2 ^ 32 by omega)]
        exact Nat.mod_eq_of_lt below
      have same : toXint p = p := if_pos low
      rw [same, if_neg (by omega), Int.toNat_natCast, wordAt_entry at_entry]
      change ∃ target, (cString (mapOf entries) (4 * (fromLe (toLe entry.value) + 1).toNat + 1)).map some = .ok target ∧ _
      rw [next, cString_at at_item]
      exact ⟨some item.nick.bytes, rfl, iff_of_true rfl ⟨p, within, low⟩⟩
    · have negative : toXint p < 0 := by
        rw [toXint, if_neg low]
        omega
      rw [if_pos negative]
      refine ⟨none, rfl, iff_of_false Bool.false_ne_true ?_⟩
      rintro ⟨q, within', low'⟩
      have := first q within'
      omega
  · rw [index]
    refine ⟨none, rfl, iff_of_false Bool.false_ne_true ?_⟩
    rintro ⟨p, within, -⟩
    exact nowhere ⟨p, within⟩

end Short

/-! ## The choices -/

/-- What is valid is what was appended as an item, what is contained what was appended, and what has a target what was
appended as an alias. -/
def Enforced (stack : Nat → UInt8) (info : List Word) (appended : List (Bool × Bytes)) (string : Bytes) : Prop :=
  strinfoIsStringValid stack info (wordCount info) string = .ok (decide ((false, string) ∈ appended)) ∧
    strinfoBuilderContains stack info string = .ok (decide ((false, string) ∈ appended ∨ (true, string) ∈ appended)) ∧
    (strinfoStringFromAlias stack info (wordCount info) string).map Option.isSome = .ok (decide ((true, string) ∈ appended))

/-- The string fits in the words of a string or the array counts as empty, and the counters reach the string in each kind
in which it was appended: they have 32 bits, and the index of an alias 31. -/
def Reachable (entries : List Entry) (string : Bytes) : Prop :=
  (string.length ≤ 65 ∨ wordCount (mapOf entries) = 0) ∧
    ∀ isAlias, (isAlias, string) ∈ entries.map Entry.name → ∃ p, Within entries isAlias string p ∧ (isAlias = true → p < 2 ^ 31)

theorem found_iff {found : Bool} {P Q : Prop} [Decidable Q] (found_iff : found = true ↔ P) (sound : P → Q) :
    (Except.ok found : Except Stop Bool) = .ok (decide Q) ↔ (Q → P) := by
  rw [Except.ok.injEq, Bool.eq_iff_iff, decide_eq_true_iff, found_iff]
  exact ⟨fun same => same.mpr, fun complete => ⟨sound, complete⟩⟩

theorem enforced_short (stack : Nat → UInt8) (points : AliasesPoint entries) (nick : Nick) :
    Enforced stack (mapOf entries) (entries.map Entry.name) nick.bytes ↔ Reachable entries nick.bytes := by
  obtain ⟨valid, is_valid, valid_iff⟩ := @isStringValid_within entries stack nick
  obtain ⟨contained, contains, contained_iff⟩ := @contains_within entries stack nick
  obtain ⟨target, looked, target_iff⟩ := stringFromAlias_within stack nick points
  unfold Enforced
  rw [is_valid, contains, looked, Except.map, found_iff valid_iff fun some_at => some_at.choose_spec.mem, found_iff contained_iff,
    found_iff target_iff fun some_at => some_at.choose_spec.1.mem]
  · constructor
    · intro enforced
      refine ⟨.inl nick.short, ?_⟩
      intro isAlias given
      cases isAlias with
      | false =>
        obtain ⟨p, within⟩ := enforced.1 given
        exact ⟨p, within, fun kind => absurd kind Bool.false_ne_true⟩
      | true =>
        obtain ⟨p, within, low⟩ := enforced.2.2 given
        exact ⟨p, within, fun _ => low⟩
    · intro reachable
      refine ⟨?_, ?_, ?_⟩
      · intro given
        obtain ⟨p, within, -⟩ := reachable.2 false given
        exact ⟨p, within⟩
      · rintro (given | given)
        · obtain ⟨p, within, -⟩ := reachable.2 false given
          exact .inl ⟨p, within⟩
        · obtain ⟨p, within, -⟩ := reachable.2 true given
          exact .inr ⟨p, within⟩
      · intro given
        obtain ⟨p, within, low⟩ := reachable.2 true given
        exact ⟨p, within, low rfl⟩
  · exact Or.imp (fun some_at => some_at.choose_spec.mem) (fun some_at => some_at.choose_spec.mem)

theorem not_named_long {entries : List Entry} {string : Bytes} (long : 65 < string.length) (isAlias : Bool) :
    (isAlias, string) ∉ entries.map Entry.name := by
  intro given
  obtain ⟨entry, -, named⟩ := List.mem_map.mp given
  have short := entry.nick.short
  have same : entry.nick.bytes = string := congrArg Prod.snd named
  rw [same] at short
  omega

theorem enforced_long (stack : Nat → UInt8) (long : 65 < string.length) :
    Enforced stack (mapOf entries) (entries.map Entry.name) string ↔ Reachable entries string := by
  have absent := @not_named_long entries string long
  have reachable : Reachable entries string ↔ wordCount (mapOf entries) = 0 := by
    unfold Reachable
    rw [or_iff_right (by omega)]
    exact and_iff_left fun isAlias given => absurd given (absent isAlias)
  rw [reachable]
  unfold Enforced
  by_cases empty : wordCount (mapOf entries) = 0
  · have missing : ∀ isAlias, strinfoFindString stack (mapOf entries) 0 string isAlias = .ok (-1) := fun isAlias => if_pos rfl
    rw [decide_eq_false (absent false), decide_eq_false (not_or.mpr ⟨absent false, absent true⟩), decide_eq_false (absent true)]
    refine iff_of_true ⟨?_, ?_, ?_⟩ empty
    · rw [empty, strinfoIsStringValid, missing]
      rfl
    · rw [strinfoBuilderContains, empty, missing, missing]
      rfl
    · rw [empty, strinfoStringFromAlias, missing]
      rfl
  · refine iff_of_false ?_ empty
    rintro ⟨valid, -, -⟩
    rw [strinfoIsStringValid, decide_eq_false (absent false)] at valid
    rcases findString_long stack long false (mapOf entries) empty with found | ⟨stop, failed⟩
    · rw [found] at valid
      cases valid
    · rw [failed] at valid
      cases valid

theorem enforced_iff (stack : Nat → UInt8) (points : AliasesPoint entries)
    (valid : IsUtf8 string) : Enforced stack (mapOf entries) (entries.map Entry.name) string ↔ Reachable entries string := by
  by_cases short : string.length ≤ 65
  · exact enforced_short stack points (IsNick.nick ⟨valid, short⟩)
  · exact enforced_long stack (Nat.lt_of_not_le short)

section Values

variable (stack : Nat → UInt8) {info : List Word} {listed : Bytes → Prop} [DecidablePred listed]

mutual

theorem isValidChoices_ok : ∀ value : ChoiceValue,
    (∀ text ∈ value.strings, strinfoIsStringValid stack info (wordCount info) text = .ok (decide (listed text))) →
    isValidChoices stack info value = .ok (decide (∀ text ∈ value.strings, listed text))
  | .string text, right => by
    rw [isValidChoices, right text List.mem_cons_self]
    simp [ChoiceValue.strings]
  | .container children, right => by
    rw [isValidChoices, allValidChoices_ok children right]
    rfl

theorem allValidChoices_ok : ∀ children : List ChoiceValue,
    (∀ text ∈ stringsOf children, strinfoIsStringValid stack info (wordCount info) text = .ok (decide (listed text))) →
    allValidChoices stack info children = .ok (decide (∀ text ∈ stringsOf children, listed text))
  | [], _ => by simp [allValidChoices, stringsOf]
  | child :: children, right => by
    have first := isValidChoices_ok child fun text given => right text (List.mem_append_left _ given)
    have rest := allValidChoices_ok children fun text given => right text (List.mem_append_right _ given)
    rw [allValidChoices, first]
    change (if decide _ = true then allValidChoices stack info children else .ok false) = _
    rw [rest, stringsOf]
    by_cases all : ∀ text ∈ child.strings, listed text
    · rw [if_pos (decide_eq_true all)]
      congr 2
      rw [List.forall_mem_append, eq_iff_iff]
      exact (and_iff_right all).symm
    · rw [if_neg (by simpa using all), decide_eq_false]
      intro both
      exact all (List.forall_mem_append.mp both).1

end

end Values

/-- The choices of a map of UTF-8 strings that fit are enforced for exactly the strings that fit, or where the map is
empty, as far as the counters reach; and a value of such strings is valid when all of them are items. -/
theorem choices_enforced_iff (stack : Nat → UInt8) (calls : List StrinfoCall) (acceptable : ∀ call ∈ calls, call.Acceptable) :
    ∃ entries, build stack [] calls = .ok (mapOf entries) ∧
      appendedBy stack [] calls = .ok (entries.map Entry.name) ∧
      (∀ string, IsUtf8 string →
        (Enforced stack (mapOf entries) (entries.map Entry.name) string ↔ Reachable entries string)) ∧
      ∀ value : ChoiceValue, (∀ text ∈ value.strings, IsUtf8 text ∧ Reachable entries text) →
        isValidChoices stack (mapOf entries) value =
          .ok (decide (∀ text ∈ value.strings, (false, text) ∈ entries.map Entry.name)) := by
  obtain ⟨entries, built, named, points⟩ :=
    @build_entries stack calls acceptable [] fun entry given => absurd given List.not_mem_nil
  refine ⟨entries, built, named, fun string valid => enforced_iff stack points valid, ?_⟩
  intro value reachable
  apply isValidChoices_ok
  intro text given
  exact ((enforced_iff stack points (reachable text given).1).mpr (reachable text given).2).1

theorem isUtf8_letters : IsUtf8 (List.replicate 66 97) := by
  apply isUtf8_of_ascii
  intro b given
  rw [List.eq_of_mem_replicate given]
  decide

/-- The items "a" and "b" and the alias "c" of "b": what follows from their map for a string of 66 bytes. -/
theorem choices_enforced_iff_single :
    ∃ entries, build (fun _ => 0) [] [.item [97] 0, .item [98] 1, .aliasOf [99] [98]] = .ok (mapOf entries) ∧
      appendedBy (fun _ => 0) [] [.item [97] 0, .item [98] 1, .aliasOf [99] [98]] = .ok (entries.map Entry.name) ∧
      ¬Enforced (fun _ => 0) (mapOf entries) (entries.map Entry.name) (List.replicate 66 97) := by
  have letter : ∀ b : UInt8, b ∈ ([97, 98, 99] : Bytes) → IsNick [b] := by
    intro b given
    simp only [List.mem_cons, List.not_mem_nil, or_false] at given
    refine ⟨isUtf8_of_ascii ?_, ?_⟩
    · rcases given with rfl | rfl | rfl <;> simp
    · rcases given with rfl | rfl | rfl <;> simp
  obtain ⟨entries, built, named, enforced, -⟩ := choices_enforced_iff (fun _ => 0) [.item [97] 0, .item [98] 1, .aliasOf [99] [98]] (by
    simp only [List.forall_mem_cons, List.not_mem_nil, false_implies, implies_true, and_true]
    exact ⟨letter 97 (by decide), letter 98 (by decide), letter 99 (by decide), letter 98 (by decide)⟩)
  refine ⟨entries, built, named, (enforced _ isUtf8_letters).not.mpr ?_⟩
  have words : wordCount (mapOf entries) = 9 := by
    have length : Except.map wordCount (.ok (mapOf entries) : Except Stop (List Word)) = .ok 9 := by
      rw [← built]
      decide_cbv
    exact Except.ok.inj length
  rintro ⟨short | empty, -⟩
  · rw [List.length_replicate] at short
    omega
  · omega

/-- The map with the one choice "a" accepts a string of 66 bytes, as an item and as an alias. -/
theorem long_choice_accepted :
    IsUtf8 (List.replicate 66 97) ∧
    build (fun _ => 0) [] [.item [97] 0] = .ok [⟨0, 0, 0, 0⟩, ⟨0xff, 97, 0, 0⟩, ⟨0, 0, 0, 0xff⟩] ∧
      appendedBy (fun _ => 0) [] [.item [97] 0] = .ok [(false, [97])] ∧
      strinfoIsStringValid (fun _ => 0) [⟨0, 0, 0, 0⟩, ⟨0xff, 97, 0, 0⟩, ⟨0, 0, 0, 0xff⟩] 3 (List.replicate 66 97) = .ok true ∧
      strinfoBuilderContains (fun _ => 0) [⟨0, 0, 0, 0⟩, ⟨0xff, 97, 0, 0⟩, ⟨0, 0, 0, 0xff⟩] (List.replicate 66 97) = .ok true ∧
      (strinfoStringFromAlias (fun _ => 0) [⟨0, 0, 0, 0⟩, ⟨0xff, 97, 0, 0⟩, ⟨0, 0, 0, 0xff⟩] 3 (List.replicate 66 97)).map
        Option.isSome = .ok true ∧
      ¬Enforced (fun _ => 0) [⟨0, 0, 0, 0⟩, ⟨0xff, 97, 0, 0⟩, ⟨0, 0, 0, 0xff⟩] [(false, [97])] (List.replicate 66 97) := by
  have wordless : ∀ isAlias, stringToWords (fun _ => 0) (List.replicate 66 97) isAlias = .ok [] := by
    intro isAlias
    unfold stringToWords
    rfl
  have first : ∀ isAlias, strinfoFindString (fun _ => 0) [⟨0, 0, 0, 0⟩, ⟨0xff, 97, 0, 0⟩, ⟨0, 0, 0, 0xff⟩] 3
      (List.replicate 66 97) isAlias = .ok 0 := by
    intro isAlias
    change strinfoScan [⟨0xff, 97, 0, 0⟩, ⟨0, 0, 0, 0xff⟩] 2 [] = .ok 0
    rw [strinfoScan, List.length_nil, if_neg (by decide), scanFrom, if_pos (by decide), matching]
    rfl
  have accepted : strinfoIsStringValid (fun _ => 0) [⟨0, 0, 0, 0⟩, ⟨0xff, 97, 0, 0⟩, ⟨0, 0, 0, 0xff⟩] 3 (List.replicate 66 97) =
      .ok true := by
    rw [strinfoIsStringValid, first]
    rfl
  refine ⟨isUtf8_letters, by decide, by decide, accepted, ?_, ?_, ?_⟩
  · rw [strinfoBuilderContains, show wordCount _ = 3 from rfl, first]
    rfl
  · rw [strinfoStringFromAlias, first]
    decide
  · intro enforced
    have refused := enforced.1
    rw [show wordCount _ = 3 from rfl, accepted] at refused
    exact absurd refused (by decide)

end Xpl.Schema
