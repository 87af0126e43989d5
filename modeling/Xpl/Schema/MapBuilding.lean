import Mathlib.Data.List.Nodup
import Mathlib.Data.List.Permutation
import Xpl.Library.Unicode
import Xpl.Schema.StringMap

/-! Building a map, and decoding what was built. -/

set_option autoImplicit false

namespace Xpl.Schema
open Xpl.Library Xpl.Collections
variable {entries : List Entry}

/-! ## What the calls append -/

def StrinfoCall.name : StrinfoCall → Bytes
  | .item string _ => string
  | .aliasOf nick _ => nick

/-- The strings of a call are UTF-8 and fit in the words of a string. -/
def IsNick (string : Bytes) : Prop := IsUtf8 string ∧ string.length ≤ 65

def StrinfoCall.Acceptable : StrinfoCall → Prop
  | .item string _ => IsNick string
  | .aliasOf nick target => IsNick nick ∧ IsNick target

def itemsOf : List StrinfoCall → List (Bytes × UInt32)
  | [] => []
  | .item string value :: calls => (string, value) :: itemsOf calls
  | .aliasOf _ _ :: calls => itemsOf calls

def aliasesOf (known : List Bytes) : List StrinfoCall → List (Bytes × Bytes)
  | [] => []
  | .item string _ :: calls => aliasesOf (string :: known) calls
  | .aliasOf nick target :: calls =>
    if target ∈ known then (nick, target) :: aliasesOf known calls else aliasesOf known calls

theorem plain_of_isUtf8 {string : Bytes} (valid : IsUtf8 string) : ∀ b ∈ string, b ≠ 0 ∧ b ≠ 0xff ∧ b ≠ 0xfe := by
  obtain ⟨text, is_text, rfl⟩ := valid
  intro b held
  obtain ⟨c, given, within⟩ := List.mem_flatMap.mp held
  have range := utf8_byte (is_text c given).1 (is_text c given).2 within
  refine ⟨?_, ?_, ?_⟩ <;> rintro rfl
  · exact absurd range.1 (by decide)
  · exact absurd range.2 (by decide)
  · exact absurd range.2 (by decide)

def IsNick.nick {string : Bytes} (is_nick : IsNick string) : Nick where
  bytes := string
  plain := plain_of_isUtf8 is_nick.1
  short := is_nick.2

/-! ## One call -/

theorem mapOf_append (entries : List Entry) (value : UInt32) (isAlias : Bool) (nick : Nick) :
    mapOf (entries ++ [⟨value, isAlias, nick⟩]) = mapOf entries ++ [toLe value] ++ frameOf isAlias nick := by
  simp [mapOf, framed_append, framed, Entry.record]

theorem appendItem_ok (stack : Nat → UInt8) (builder : List Word) (nick : Nick) (value : UInt32) :
    strinfoBuilderAppendItem stack builder nick.bytes value = .ok (builder ++ [toLe value] ++ frameOf false nick) := by
  unfold strinfoBuilderAppendItem
  rw [stringToWords_eq]
  rfl

/-- The search never leaves the array, whatever the array holds. -/
theorem matching_total {array words : List Word} (fits : words.length ≤ array.length) : ∃ j, matching array words = .ok j := by
  obtain ⟨j, matched, -⟩ := matching_ok fits
  exact ⟨j, matched⟩

theorem scanFrom_total {strinfo words : List Word} {length : Nat} (inside : length ≤ strinfo.length) (fits : words.length ≤ length)
    (i : Nat) : ∃ index, scanFrom strinfo length words i = .ok index := by
  rw [scanFrom]
  by_cases room : i ≤ length - words.length
  · obtain ⟨j, matched⟩ := @matching_total (strinfo.drop i) words (by rw [List.length_drop]; omega)
    rw [if_pos room, matched]
    dsimp only
    by_cases all : j = words.length
    · exact ⟨_, if_pos all⟩
    · rw [if_neg all]
      exact scanFrom_total inside fits _
  · exact ⟨_, if_neg room⟩
termination_by length + 1 - i
decreasing_by split <;> omega

theorem findString_total (stack : Nat → UInt8) {strinfo : List Word} {length : Nat} (inside : length ≤ strinfo.length)
    (isAlias : Bool) (nick : Nick) : ∃ index, strinfoFindString stack strinfo length nick.bytes isAlias = .ok index := by
  unfold strinfoFindString
  by_cases empty : length = 0
  · exact ⟨_, if_pos empty⟩
  · rw [if_neg empty, stringToWords_eq]
    change ∃ index, strinfoScan (strinfo.drop 1) (length - 1) (frameOf isAlias nick) = .ok index
    unfold strinfoScan
    by_cases shorter : length - 1 < (frameOf isAlias nick).length
    · exact ⟨_, if_pos shorter⟩
    · rw [if_neg shorter]
      exact scanFrom_total (by rw [List.length_drop]; omega) (by omega) 0

theorem appendAlias_total (stack : Nat → UInt8) (builder : List Word) (nick target : Nick) :
    ∃ appended, strinfoBuilderAppendAlias stack builder nick.bytes target.bytes = .ok appended ∧
      builder.length ≤ appended.2.length := by
  obtain ⟨index, found⟩ := findString_total stack (Nat.mod_le builder.length (2 ^ 32)) false target
  unfold strinfoBuilderAppendAlias
  rw [wordCount, found]
  change ∃ appended, (if index = -1 then .ok (false, builder) else (stringToWords stack nick.bytes true).bind fun words =>
    .ok (true, builder ++ [toLe (UInt32.ofInt index)] ++ words)) = .ok appended ∧ _
  by_cases missing : index = -1
  · exact ⟨_, if_pos missing, Nat.le_refl _⟩
  · rw [if_neg missing, stringToWords_eq]
    exact ⟨_, rfl, by simp⟩

theorem appendAlias_ok (stack : Nat → UInt8) (small : (mapOf entries).length ≤ 2 ^ 31) (nick target : Nick) :
    (∃ p item, EntryAt entries p item ∧ item.isAlias = false ∧ item.nick = target ∧
      strinfoBuilderAppendAlias stack (mapOf entries) nick.bytes target.bytes =
        .ok (true, mapOf (entries ++ [⟨UInt32.ofNat p, true, nick⟩]))) ∨
    ((∀ entry ∈ entries, ¬(entry.isAlias = false ∧ entry.nick = target)) ∧
      strinfoBuilderAppendAlias stack (mapOf entries) nick.bytes target.bytes = .ok (false, mapOf entries)) := by
  have whole : wordCount (mapOf entries) = (mapOf entries).length := Nat.mod_eq_of_lt (by omega)
  unfold strinfoBuilderAppendAlias
  rw [whole]
  obtain ⟨p, item, found, at_item, kind, named⟩ | ⟨missing, nowhere⟩ := strinfoFindString_ok stack false target
  · refine .inl ⟨p, item, at_item, kind, named, ?_⟩
    have index : UInt32.ofInt (p : Int) = UInt32.ofNat p := by
      have below := Nat.lt_of_lt_of_le at_item.lt small
      have word : ((p : Int) % 2 ^ 32).toNat = p := by omega
      rw [UInt32.ofInt, word]
    rw [found, toXint_of_entry small at_item, mapOf_append]
    change (if (p : Int) = -1 then .ok (false, mapOf entries) else (stringToWords stack nick.bytes true).bind fun words =>
      .ok (true, mapOf entries ++ [toLe (UInt32.ofInt (p : Int))] ++ words)) = _
    rw [if_neg (by omega), stringToWords_eq, index]
    rfl
  · refine .inr ⟨nowhere, ?_⟩
    rw [missing]
    rfl

theorem distinct_append (distinct : (entries.map (·.nick.bytes)).Nodup) {entry : Entry}
    (fresh : entry.nick.bytes ∉ entries.map (·.nick.bytes)) : ((entries ++ [entry]).map (·.nick.bytes)).Nodup := by
  rw [List.map_append, List.map_singleton, ← List.concat_eq_append]
  exact distinct.concat fresh

theorem StandsFor.append_item {items : List (Bytes × UInt32)} {aliases : List (Bytes × Bytes)}
    (h : StandsFor entries items aliases) {nick : Nick} (fresh : nick.bytes ∉ entries.map (·.nick.bytes)) (value : UInt32) :
    StandsFor (entries ++ [⟨value, false, nick⟩]) (items ++ [(nick.bytes, value)]) aliases where
  distinct := distinct_append h.distinct fresh
  items := by
    rw [List.filter_append]
    exact List.rel_append h.items (.cons ⟨rfl, rfl⟩ .nil)
  aliases := by
    rw [List.filter_append, show [(⟨value, false, nick⟩ : Entry)].filter (·.isAlias) = [] from rfl, List.append_nil]
    exact h.aliases.imp fun entry link ⟨named, p, item, at_item, rest⟩ => ⟨named, p, item, at_item.before.1, rest⟩

theorem StandsFor.append_alias {items : List (Bytes × UInt32)} {aliases : List (Bytes × Bytes)}
    (h : StandsFor entries items aliases) {nick : Nick} (fresh : nick.bytes ∉ entries.map (·.nick.bytes)) {p : Nat} {item : Entry}
    (at_item : EntryAt entries p item) (kind : item.isAlias = false) :
    StandsFor (entries ++ [⟨UInt32.ofNat p, true, nick⟩]) items (aliases ++ [(nick.bytes, item.nick.bytes)]) where
  distinct := distinct_append h.distinct fresh
  items := by
    rw [List.filter_append, show [(⟨UInt32.ofNat p, true, nick⟩ : Entry)].filter (!·.isAlias) = [] from rfl, List.append_nil]
    exact h.items
  aliases := by
    rw [List.filter_append]
    refine List.rel_append ?_ (.cons ⟨rfl, p, item, at_item.before.1, kind, rfl, rfl⟩ .nil)
    exact h.aliases.imp fun entry link ⟨named, q, other, at_other, rest⟩ => ⟨named, q, other, at_other.before.1, rest⟩

/-! ## All calls -/

theorem build_total (stack : Nat → UInt8) (builder : List Word) {calls : List StrinfoCall}
    (acceptable : ∀ call ∈ calls, call.Acceptable) : ∃ info, build stack builder calls = .ok info ∧ builder.length ≤ info.length := by
  induction calls generalizing builder with
  | nil => exact ⟨builder, rfl, Nat.le_refl _⟩
  | cons call calls ih =>
    obtain ⟨first, others⟩ := List.forall_mem_cons.mp acceptable
    cases call with
    | item string value =>
      obtain ⟨info, built, longer⟩ := ih (builder ++ [toLe value] ++ frameOf false (IsNick.nick first)) others
      refine ⟨info, ?_, by simp at longer; omega⟩
      rw [build, show string = (IsNick.nick first).bytes from rfl, appendItem_ok]
      exact built
    | aliasOf nick target =>
      obtain ⟨appended, done, longer⟩ := appendAlias_total stack builder (IsNick.nick first.1) (IsNick.nick first.2)
      obtain ⟨info, built, longest⟩ := ih appended.2 others
      refine ⟨info, ?_, Nat.le_trans longer longest⟩
      change (strinfoBuilderAppendAlias stack builder (IsNick.nick first.1).bytes (IsNick.nick first.2).bytes).bind _ = _
      rw [done]
      exact built

theorem build_standsFor (stack : Nat → UInt8) {entries : List Entry} {items : List (Bytes × UInt32)}
    {aliases : List (Bytes × Bytes)} (h : StandsFor entries items aliases) {known : List Bytes}
    (known_iff : ∀ string, string ∈ known ↔ string ∈ items.map (·.1)) {calls : List StrinfoCall}
    (acceptable : ∀ call ∈ calls, call.Acceptable)
    (distinct : (entries.map (·.nick.bytes) ++ calls.map StrinfoCall.name).Nodup) {info : List Word}
    (built : build stack (mapOf entries) calls = .ok info) (small : info.length ≤ 2 ^ 31) :
    ∃ entries', info = mapOf entries' ∧ StandsFor entries' (items ++ itemsOf calls) (aliases ++ aliasesOf known calls) := by
  induction calls generalizing entries items aliases known with
  | nil =>
    cases built
    exact ⟨entries, rfl, by simpa [itemsOf, aliasesOf] using h⟩
  | cons call calls ih =>
    obtain ⟨first, others⟩ := List.forall_mem_cons.mp acceptable
    have fresh : call.name ∉ entries.map (·.nick.bytes) := by
      intro given
      exact (List.nodup_append.mp distinct).2.2 _ given _ (List.mem_cons_self) rfl
    cases call with
    | item string value =>
      have extended := h.append_item (show (IsNick.nick first).bytes ∉ entries.map (·.nick.bytes) from fresh) value
      rw [build, show string = (IsNick.nick first).bytes from rfl, appendItem_ok, ← mapOf_append] at built
      obtain ⟨entries', rfl, stands⟩ := @ih _ _ _ extended (string :: known) (fun other => by
        rw [List.mem_cons, known_iff, List.map_append, List.mem_append, List.map_singleton, List.mem_singleton, or_comm]
        rfl) others (by
          rw [List.map_append, List.append_assoc]
          exact distinct) built
      refine ⟨entries', rfl, ?_⟩
      rw [List.append_assoc] at stands
      exact stands
    | aliasOf nick target =>
      have before : (mapOf entries).length ≤ 2 ^ 31 := by
        obtain ⟨again, rebuilt, longer⟩ := build_total stack (mapOf entries) acceptable
        cases rebuilt.symm.trans built
        omega
      obtain ⟨p, item, at_item, kind, named, appended⟩ | ⟨nowhere, kept⟩ :=
        appendAlias_ok stack before (IsNick.nick first.1) (IsNick.nick first.2)
      · have extended := h.append_alias (show (IsNick.nick first.1).bytes ∉ entries.map (·.nick.bytes) from fresh) at_item kind
        have there : target ∈ known := by
          rw [known_iff, ← h.itemStrings]
          exact List.mem_map.mpr ⟨item, List.mem_filter.mpr ⟨at_item.mem, by simp [kind]⟩, congrArg Nick.bytes named⟩
        change (strinfoBuilderAppendAlias stack (mapOf entries) (IsNick.nick first.1).bytes (IsNick.nick first.2).bytes).bind _ = _ at built
        rw [appended] at built
        obtain ⟨entries', rfl, stands⟩ := ih extended known_iff others (by
          rw [List.map_append, List.append_assoc]
          exact distinct) built
        refine ⟨entries', rfl, ?_⟩
        rw [List.append_assoc, named] at stands
        rw [itemsOf, aliasesOf, if_pos there]
        exact stands
      · have absent : target ∉ known := by
          rw [known_iff, ← h.itemStrings]
          intro given
          obtain ⟨entry, mem, same⟩ := List.mem_map.mp given
          obtain ⟨mem, kind⟩ := List.mem_filter.mp mem
          exact nowhere entry mem ⟨by simpa using kind, Nick.ext same⟩
        change (strinfoBuilderAppendAlias stack (mapOf entries) (IsNick.nick first.1).bytes (IsNick.nick first.2).bytes).bind _ = _ at built
        rw [kept] at built
        rw [itemsOf, aliasesOf, if_neg absent]
        refine ih h known_iff others ?_ built
        exact distinct.sublist (List.Sublist.append_left (List.sublist_cons_self _ _) _)

theorem standsFor_nil : StandsFor [] [] [] := ⟨List.nodup_nil, .nil, .nil⟩

/-- What was appended under distinct strings is found again: the values of the items, the first item of a value, and the
targets of the aliases whose target was an item, in an array of at most 2^31 words; and the items in their order, in
an array of fewer than 2^30. -/
theorem map_decodes (stack : Nat → UInt8) (calls : List StrinfoCall) (acceptable : ∀ call ∈ calls, call.Acceptable)
    (distinct : (calls.map StrinfoCall.name).Nodup) :
    ∃ info, build stack [] calls = .ok info ∧
      (info.length ≤ 2 ^ 31 →
        (∀ string, IsNick string →
          strinfoEnumFromString stack info info.length string = .ok ((itemsOf calls).lookup string) ∧
          strinfoIsStringValid stack info info.length string = .ok (decide (string ∈ (itemsOf calls).map (·.1))) ∧
          strinfoStringFromAlias stack info info.length string = .ok ((aliasesOf [] calls).lookup string)) ∧
        ∀ value, strinfoStringFromEnum info info.length value = .ok (((itemsOf calls).find? (·.2 = value)).map (·.1))) ∧
      (info.length < 2 ^ 30 → strinfoEnumerate info info.length = .ok ((itemsOf calls).map (·.1))) := by
  obtain ⟨info, built, -⟩ := build_total stack [] acceptable
  refine ⟨info, built, fun small => ?_, fun smaller => ?_⟩
  · obtain ⟨entries, rfl, h⟩ := @build_standsFor stack _ _ _ standsFor_nil [] (by simp) _ acceptable distinct _ built small
    refine ⟨fun string is_nick => ⟨?_, ?_, ?_⟩, fun value => h.stringFromEnum small value⟩
    · exact h.enumFromString small stack is_nick.nick
    · exact h.isStringValid small stack is_nick.nick
    · exact h.stringFromAlias small stack is_nick.nick
  · obtain ⟨entries, rfl, h⟩ := @build_standsFor stack _ _ _ standsFor_nil [] (by simp) _ acceptable distinct _ built (by omega)
    rw [strinfoEnumerate_ok smaller, h.itemStrings]
    rfl

/-- The map of the format's description: foo is 1, bar is 2, and baz is another name for bar. -/
theorem map_decodes_sample : ∃ info, build (fun _ => 0xAA) [] [.item [102, 111, 111] 1, .item [98, 97, 114] 2,
      .aliasOf [98, 97, 122] [98, 97, 114]] = .ok info ∧
    strinfoStringFromEnum info info.length 2 = .ok (some [98, 97, 114]) ∧
    strinfoStringFromAlias (fun _ => 0xAA) info info.length [98, 97, 122] = .ok (some [98, 97, 114]) ∧
    strinfoEnumerate info info.length = .ok [[102, 111, 111], [98, 97, 114]] := by
  have foo : IsNick [102, 111, 111] := ⟨isUtf8_of_ascii (by simp), by decide⟩
  have bar : IsNick [98, 97, 114] := ⟨isUtf8_of_ascii (by simp), by decide⟩
  have baz : IsNick [98, 97, 122] := ⟨isUtf8_of_ascii (by simp), by decide⟩
  obtain ⟨info, built, decodes, enumerates⟩ := map_decodes (fun _ => 0xAA) [.item [102, 111, 111] 1, .item [98, 97, 114] 2,
    .aliasOf [98, 97, 122] [98, 97, 114]] (by
      simp only [List.forall_mem_cons, List.not_mem_nil, false_implies, implies_true, and_true]
      exact ⟨foo, bar, baz, bar⟩) (by decide)
  have words : info.length = 9 := by
    have length : Except.map List.length (.ok info : Except Stop (List Word)) = .ok 9 := by
      rw [← built]
      decide_cbv
    exact Except.ok.inj length
  have small : info.length ≤ 2 ^ 31 := by omega
  exact ⟨info, built, (decodes small).2 2, ((decodes small).1 _ baz).2.2, enumerates (by omega)⟩

/-! The counters of a map have 32 bits. From 2^30 words on their number of bytes wraps, and an index from 2^31 on is
negative; both are met by maps of many short strings. -/

/-- The low digits of a number to the base 16, the lowest first. -/
def digits : Nat → Nat → Bytes
  | 0, _ => []
  | width + 1, k => UInt8.ofNat (0x30 + k % 16) :: digits width (k / 16)

theorem length_digits (width k : Nat) : (digits width k).length = width := by
  induction width generalizing k with
  | zero => rfl
  | succ width ih => rw [digits, List.length_cons, ih]

theorem digits_ascii (width k : Nat) : ∀ b ∈ digits width k, 0 < b.toNat ∧ b.toNat < 0x80 := by
  induction width generalizing k with
  | zero => simp [digits]
  | succ width ih =>
    refine List.forall_mem_cons.mpr ⟨?_, ih (k / 16)⟩
    rw [toNat_byte (by omega)]
    omega

theorem digits_inj {width k k' : Nat} (small : k < 16 ^ width) (small' : k' < 16 ^ width)
    (same : digits width k = digits width k') : k = k' := by
  induction width generalizing k k' with
  | zero =>
    omega
  | succ width ih =>
    rw [digits, digits, List.cons.injEq] at same
    have last := congrArg UInt8.toNat same.1
    rw [toNat_byte (by omega), toNat_byte (by omega)] at last
    have rest := ih (by omega) (by omega) same.2
    omega

theorem isNick_digits (k : Nat) : IsNick (digits 8 k) :=
  ⟨isUtf8_of_ascii (digits_ascii 8 k), by rw [length_digits]; decide⟩

def numbered (k : Nat) : StrinfoCall := .item (digits 8 k) 0

def numberedEntry (k : Nat) : Entry := ⟨0, false, (isNick_digits k).nick⟩

def many (n : Nat) : List StrinfoCall := (List.range n).map numbered

theorem words_numbered (k : Nat) : (numberedEntry k).nick.words = 3 := by
  change max 2 (((digits 8 k).length + 6) / 4) = 3
  rw [length_digits]
  rfl

theorem length_numbered (numbers : List Nat) : (mapOf (numbers.map numberedEntry)).length = 4 * numbers.length := by
  induction numbers with
  | nil => rfl
  | cons k numbers ih =>
    have first := length_mapOf_append [] (numberedEntry k) (numbers.map numberedEntry)
    rw [List.nil_append, words_numbered, ih] at first
    rw [List.map_cons, first, List.length_cons]
    change 0 + 1 + 3 + 4 * numbers.length = _
    omega

theorem build_numbered (stack : Nat → UInt8) (entries : List Entry) (numbers : List Nat) :
    build stack (mapOf entries) (numbers.map numbered) = .ok (mapOf (entries ++ numbers.map numberedEntry)) := by
  induction numbers generalizing entries with
  | nil => rw [List.map_nil, List.map_nil, List.append_nil, build]
  | cons k numbers ih =>
    have rest := ih (entries ++ [numberedEntry k])
    rw [List.append_assoc, List.singleton_append] at rest
    have appended : strinfoBuilderAppendItem stack (mapOf entries) (digits 8 k) 0 = .ok (mapOf (entries ++ [numberedEntry k])) := by
      rw [numberedEntry, mapOf_append]
      exact appendItem_ok stack (mapOf entries) (isNick_digits k).nick 0
    rw [List.map_cons, numbered, build, appended, List.map_cons]
    exact rest

theorem build_many (stack : Nat → UInt8) (n : Nat) :
    build stack [] (many n) = .ok (mapOf ((List.range n).map numberedEntry)) := build_numbered stack [] (List.range n)

theorem length_many (n : Nat) : (mapOf ((List.range n).map numberedEntry)).length = 4 * n := by
  rw [length_numbered, List.length_range]

theorem mem_many {n k : Nat} (small : k < n) : .item (digits 8 k) 0 ∈ many n :=
  List.mem_map.mpr ⟨k, List.mem_range.mpr small, rfl⟩

theorem many_acceptable (n : Nat) : ∀ call ∈ many n, call.Acceptable := by
  intro call given
  obtain ⟨k, -, rfl⟩ := List.mem_map.mp given
  exact isNick_digits k

theorem many_distinct {n : Nat} (small : n ≤ 16 ^ 8) : ((many n).map StrinfoCall.name).Nodup := by
  rw [many, List.map_map]
  refine List.Nodup.map_on (fun k given k' given' same => ?_) List.nodup_range
  rw [List.mem_range] at given given'
  exact digits_inj (by omega) (by omega) same

theorem last_item_missing (stack : Nat → UInt8) :
    strinfoEnumFromString stack (mapOf ((List.range (2 ^ 29 + 1)).map numberedEntry))
      (mapOf ((List.range (2 ^ 29 + 1)).map numberedEntry)).length (digits 8 (2 ^ 29)) = .ok none := by
  unfold strinfoEnumFromString
  obtain ⟨p, entry, found, ⟨before, after, split, rfl⟩, -, named⟩ | ⟨missing, -⟩ :=
    @strinfoFindString_ok ((List.range (2 ^ 29 + 1)).map numberedEntry) stack false (isNick_digits (2 ^ 29)).nick
  · -- the entry is the last one, and 2^31 words stand before it
    have last : before.length = 2 ^ 29 := by
      have held : ((List.range (2 ^ 29 + 1)).map numberedEntry)[before.length]? = some entry := by
        rw [split]
        simp
      rw [List.getElem?_map] at held
      obtain ⟨k, at_index, rfl⟩ := Option.map_eq_some_iff.mp held
      obtain ⟨inside, same⟩ := List.getElem?_eq_some_iff.mp at_index
      rw [List.length_range] at inside
      rw [List.getElem_range] at same
      subst same
      exact digits_inj (by omega) (by decide) (congrArg Nick.bytes named)
    have start : (mapOf before).length = 2 ^ 31 := by
      have front : before = (List.range (2 ^ 29)).map numberedEntry := by
        have taken := congrArg (List.take before.length) split
        rw [List.take_left, last, ← List.map_take, List.take_range] at taken
        exact taken.symm
      rw [front, length_many]
      decide
    change (strinfoFindString stack _ _ (isNick_digits (2 ^ 29)).nick.bytes false).bind _ = _
    rw [found, start]
    rfl
  · change (strinfoFindString stack _ _ (isNick_digits (2 ^ 29)).nick.bytes false).bind _ = _
    rw [missing]
    rfl

/-- A map of 2^30 words enumerates no string, and one of 2^31 + 4 words does not find its last item. -/
theorem large_maps :
    (∀ call ∈ many (2 ^ 29 + 1), call.Acceptable) ∧ ((many (2 ^ 29 + 1)).map StrinfoCall.name).Nodup ∧
    (∃ info, build (fun _ => 0) [] (many (2 ^ 28)) = .ok info ∧ info.length = 2 ^ 30 ∧
      strinfoEnumerate info info.length = .ok [] ∧ .item (digits 8 0) 0 ∈ many (2 ^ 28)) ∧
    ∃ info, build (fun _ => 0) [] (many (2 ^ 29 + 1)) = .ok info ∧ info.length = 2 ^ 31 + 4 ∧
      strinfoEnumFromString (fun _ => 0) info info.length (digits 8 (2 ^ 29)) = .ok none ∧
      .item (digits 8 (2 ^ 29)) 0 ∈ many (2 ^ 29 + 1) := by
  refine ⟨many_acceptable _, many_distinct (by decide), ⟨_, build_many _ _, ?_, ?_, mem_many (by decide)⟩,
    _, build_many _ _, ?_, last_item_missing _, mem_many (by decide)⟩
  · rw [length_many]
    decide
  · rw [strinfoEnumerate, length_many]
    exact enumerateFrom_end _ (by decide)
  · rw [length_many]
    decide

end Xpl.Schema
