import Xpl.Text.RoundTrip

/-! The characters that the converters from UTF-8 take: up to six bytes, without the ranges of Unicode. -/

set_option autoImplicit false

namespace Xpl.Text
open Xpl.Library

/-- The bytes of a character: the first announces how many there are, and the value is not too small for them. -/
inductive Encoded : Nat → Bytes → Prop where
  | single {a : UInt8} : a ≠ 0 → a.toNat < 0x80 → Encoded a.toNat [a]
  | multiple {a : UInt8} {tail : Bytes} {wc minCode : Nat} : leadClass a.toNat = some (tail.length + 1, wc, minCode) →
      tail.all isContinuation = true → minCode ≤ payload wc tail → Encoded (payload wc tail) (a :: tail)

section Lead

theorem leadClass_skip : ∀ a : UInt8, utf8Skip a = if a.toNat < 0xc0 then 1 else ((leadClass a.toNat).map Prod.fst).getD 1 :=
  forall_byte (by decide +kernel)

theorem leadClass_facts {a : UInt8} {length wc minCode : Nat} (announced : leadClass a.toNat = some (length, wc, minCode)) :
    0xc0 ≤ a.toNat ∧ utf8Skip a = length ∧ 2 ≤ length ∧ length ≤ 6 := by
  have large : ¬a.toNat < 0xc0 := by
    intro small
    rw [leadClass, if_pos small] at announced
    cases announced
  have skip := leadClass_skip a
  rw [if_neg large, announced] at skip
  refine ⟨Nat.not_lt.mp large, skip, ?_⟩
  unfold leadClass at announced
  split_ifs at announced <;> cases announced <;> decide

end Lead

section Reading
variable {string bytes : Bytes} {position c : Nat}

/-- The first byte of a character and its size. -/
theorem Encoded.lead (encoded : Encoded c bytes) :
    ∃ a tail, bytes = a :: tail ∧ a ≠ 0 ∧ utf8Skip a = bytes.length ∧ bytes.length ≤ 6 := by
  cases encoded with
  | single nonzero small =>
    refine ⟨_, [], rfl, nonzero, ?_, Nat.one_le_ofNat⟩
    rw [leadClass_skip, if_pos (by omega)]
    rfl
  | multiple announced continued least =>
    obtain ⟨large, skip, _, most⟩ := leadClass_facts announced
    refine ⟨_, _, rfl, ?_, skip, most⟩
    rintro rfl
    exact absurd large (by decide)

theorem Encoded.bounds (encoded : Encoded c bytes) : 0 < c ∧ c < 2 ^ 31 := by
  cases encoded with
  | @single a nonzero small =>
    have positive := byte_ne_zero.mp nonzero
    omega
  | @multiple a tail wc minCode announced continued least =>
    obtain ⟨_, positive, below⟩ := leadClass_payload announced
    exact ⟨by omega, below tail rfl⟩

theorem Encoded.length_pos (encoded : Encoded c bytes) : 0 < bytes.length := by
  obtain ⟨a, tail, rfl, _⟩ := encoded.lead
  exact Nat.succ_pos _

theorem Encoded.extended (encoded : Encoded c bytes) {maxLen : Option Nat} (reads : ∀ k < bytes.length, string[position + k]? = bytes[k]?)
    (room : ∀ limit, maxLen = some limit → bytes.length ≤ limit) : xutf8GetCharExtended string position maxLen = some c := by
  cases encoded with
  | @single a nonzero small =>
    have here : string[position]? = some a := reads 0 Nat.one_pos
    rw [xutf8GetCharExtended_eq here, if_pos small]
  | @multiple a tail wc minCode announced continued least =>
    have here : string[position]? = some a := reads 0 (Nat.succ_pos _)
    obtain ⟨large, _⟩ := leadClass_facts announced
    have rest : ∀ k < tail.length, string[position + (1 + k)]? = tail[k]? := by
      intro k below
      rw [Nat.add_comm 1 k]
      exact reads (k + 1) (Nat.succ_lt_succ below)
    obtain ⟨code, found, value, _⟩ := @longCharacter_eq string position maxLen tail (tail.length + 1) wc minCode rfl room rest
    rw [xutf8GetCharExtended_eq here, if_neg (by omega), announced]
    dsimp only
    rw [found, value continued, if_neg (Nat.not_lt.mpr least)]

theorem Encoded.getChar (encoded : Encoded c bytes) (reads : ∀ k < bytes.length, string[position + k]? = bytes[k]?) :
    xutf8GetChar string position = some c := by
  cases encoded with
  | @single a nonzero small =>
    have here : string[position]? = some a := reads 0 Nat.one_pos
    have low : a.toNat &&& 0x7f = a.toNat := by
      have bits : a.toNat &&& 0x7f = a.toNat % 2 ^ 7 := Nat.and_two_pow_sub_one_eq_mod _ 7
      omega
    rw [xutf8GetChar, here, some_bind]
    rw [if_pos small, low]
    rfl
  | @multiple a tail wc minCode announced continued least =>
    have here : string[position]? = some a := reads 0 (Nat.succ_pos _)
    obtain ⟨large, _⟩ := leadClass_facts announced
    rw [xutf8GetChar_eq here (by omega) announced, Nat.add_sub_cancel]
    refine utf8Get_eq (fun k below => ?_) continued
    rw [Nat.add_comm 1 k]
    exact reads (k + 1) (Nat.succ_lt_succ below)

end Reading

/-! ## Where the characters end -/

/-- The last character has been cut off: bytes are missing behind the ones it has. -/
def Truncated (bytes : Bytes) : Prop :=
  ∃ a tail length wc minCode, bytes = a :: tail ∧ leadClass a.toNat = some (length, wc, minCode) ∧ tail.all isContinuation = true ∧
    bytes.length < length

/-- No character begins here, and none is cut off. -/
def Broken (bytes : Bytes) : Prop := bytes ≠ [] ∧ ¬Truncated bytes ∧ ∀ c character, Encoded c character → ¬character <+: bytes

section Splitting

/-- The bytes of characters, one after the other. -/
def spell (chars : List (Nat × Bytes)) : Bytes := chars.flatMap Prod.snd

def AllEncoded (chars : List (Nat × Bytes)) : Prop := ∀ char ∈ chars, Encoded char.1 char.2

theorem spell_cons (char : Nat × Bytes) (chars : List (Nat × Bytes)) : spell (char :: chars) = char.2 ++ spell chars :=
  List.flatMap_cons

/-- All bytes are characters, up to a place where they end, break off or break down. -/
theorem exists_characters (content : Bytes) :
    ∃ chars tail, content = spell chars ++ tail ∧ AllEncoded chars ∧ (tail = [] ∨ Truncated tail ∨ Broken tail) := by
  induction size : content.length using Nat.strongRecOn generalizing content with
  | ind size ih =>
    by_cases starts : ∃ c character, Encoded c character ∧ character <+: content
    · obtain ⟨c, character, encoded, rest, rfl⟩ := starts
      have positive := encoded.length_pos
      rw [List.length_append] at size
      obtain ⟨chars, tail, split, all, ends⟩ := ih rest.length (by omega) rest rfl
      refine ⟨(c, character) :: chars, tail, ?_, List.forall_mem_cons.mpr ⟨encoded, all⟩, ends⟩
      rw [spell_cons, List.append_assoc, ← split]
    · refine ⟨[], content, rfl, fun char none => absurd none List.not_mem_nil, ?_⟩
      by_cases empty : content = []
      · exact Or.inl empty
      · by_cases cut : Truncated content
        · exact Or.inr (Or.inl cut)
        · exact Or.inr (Or.inr ⟨empty, cut, fun c character encoded begins => starts ⟨c, character, encoded, begins⟩⟩)

end Splitting

section Stopping
variable {string : Bytes} {position : Nat}
variable {good : Bytes} {index : Nat}

theorem next_continuation {first : UInt8} (continued : (first :: good).all isContinuation = true)
    (reads : ∀ k < (first :: good).length, string[position + (index + k)]? = (first :: good)[k]?) :
    string[position + index]? = some first ∧ ¬first &&& 0xc0 ≠ 0x80 ∧ good.all isContinuation = true ∧
      ∀ k < good.length, string[position + (index + 1 + k)]? = good[k]? := by
  rw [List.all_cons, Bool.and_eq_true] at continued
  refine ⟨reads 0 (Nat.succ_pos _), ?_, continued.2, fun k below => ?_⟩
  · rw [continuation_test, continued.1]
    exact Bool.true_eq_false.mp
  · rw [Nat.add_right_comm index, Nat.add_assoc index]
    exact reads (k + 1) (Nat.succ_lt_succ below)

/-- The loop over continuation bytes stops at another byte. -/
theorem continuedCharacter_stops {minCode : Nat} {b : UInt8} (stops : isContinuation b = false)
    (continued : good.all isContinuation = true) {count wc : Nat}
    (reads : ∀ k < good.length, string[position + (index + k)]? = good[k]?)
    (here : string[position + (index + good.length)]? = some b) (more : good.length < count) :
    continuedCharacter string position minCode count index wc = some (if b = 0 then partialSequence else malformedSequence) := by
  induction good generalizing count index wc with
  | nil =>
    obtain ⟨count, rfl⟩ := Nat.exists_eq_succ_of_ne_zero (Nat.ne_of_gt more)
    rw [continuedCharacter, show string[position + index]? = some b from here, some_bind,
      if_pos ((continuation_test b).mpr stops)]
    by_cases zero : b = 0
    · rw [if_pos zero, if_neg (not_not_intro zero)]
      rfl
    · rw [if_neg zero, if_pos zero]
      rfl
  | cons first good ih =>
    obtain ⟨count, rfl⟩ := Nat.exists_eq_succ_of_ne_zero (Nat.ne_of_gt (Nat.zero_lt_of_lt more))
    obtain ⟨read, goes, others, next⟩ := next_continuation continued reads
    rw [continuedCharacter, read, some_bind, if_neg goes]
    refine ih others next ?_ (Nat.lt_of_succ_lt_succ more)
    rw [List.length_cons] at here
    rwa [Nat.add_right_comm index, Nat.add_assoc index]

theorem truncatedCharacter_stops {b : UInt8} (stops : isContinuation b = false)
    (continued : good.all isContinuation = true) {count : Nat}
    (reads : ∀ k < good.length, string[position + (index + k)]? = good[k]?)
    (here : string[position + (index + good.length)]? = some b) (more : good.length < count) :
    truncatedCharacter string position count index = some malformedSequence := by
  induction good generalizing count index with
  | nil =>
    obtain ⟨count, rfl⟩ := Nat.exists_eq_succ_of_ne_zero (Nat.ne_of_gt more)
    rw [truncatedCharacter, show string[position + index]? = some b from here, some_bind,
      if_pos ((continuation_test b).mpr stops)]
    rfl
  | cons first good ih =>
    obtain ⟨count, rfl⟩ := Nat.exists_eq_succ_of_ne_zero (Nat.ne_of_gt (Nat.zero_lt_of_lt more))
    obtain ⟨read, goes, others, next⟩ := next_continuation continued reads
    rw [truncatedCharacter, read, some_bind, if_neg goes]
    refine ih others next ?_ (Nat.lt_of_succ_lt_succ more)
    rw [List.length_cons] at here
    rwa [Nat.add_right_comm index, Nat.add_assoc index]

theorem truncatedCharacter_passes (continued : good.all isContinuation = true)
    (reads : ∀ k < good.length, string[position + (index + k)]? = good[k]?) :
    truncatedCharacter string position good.length index = some partialSequence := by
  induction good generalizing index with
  | nil => rfl
  | cons first good ih =>
    obtain ⟨read, goes, others, next⟩ := next_continuation continued reads
    rw [List.length_cons, truncatedCharacter, read, some_bind, if_neg goes]
    exact ih others next

theorem tail_reads {a : UInt8} {tail : Bytes} (reads : ∀ k < (a :: tail).length, string[position + k]? = (a :: tail)[k]?) :
    string[position]? = some a ∧ ∀ k < tail.length, string[position + (1 + k)]? = tail[k]? := by
  refine ⟨reads 0 (Nat.succ_pos _), fun k below => ?_⟩
  rw [Nat.add_comm 1 k]
  exact reads (k + 1) (Nat.succ_lt_succ below)

/-- A character that has been cut off is reported as such, unless a NUL cuts it off where the length leaves no room for it. -/
theorem truncated_found {a : UInt8} {tail : Bytes} {length wc minCode limit : Nat}
    (announced : leadClass a.toNat = some (length, wc, minCode)) (continued : tail.all isContinuation = true)
    (short : tail.length + 1 < length) (reads : ∀ k < (a :: tail).length, string[position + k]? = (a :: tail)[k]?)
    (ends : limit = tail.length + 1 ∨ tail.length + 1 < limit ∧ string[position + (tail.length + 1)]? = some 0) :
    xutf8GetCharExtended string position (some limit) =
      some (if tail.length + 1 < limit ∧ limit < length then malformedSequence else partialSequence) := by
  obtain ⟨here, rest⟩ := tail_reads reads
  obtain ⟨large, _⟩ := leadClass_facts announced
  rw [xutf8GetCharExtended_eq here, if_neg (by omega), announced]
  dsimp only [longCharacter]
  rcases ends with exact | ⟨nul, zero⟩
  · subst exact
    rw [if_pos short, Nat.add_sub_cancel, truncatedCharacter_passes continued rest, if_neg (by omega)]
  · rw [Nat.add_comm tail.length 1] at zero
    by_cases cut : length > limit
    · rw [if_pos cut, truncatedCharacter_stops (by decide) continued rest zero (by omega), if_pos ⟨nul, cut⟩]
    · rw [if_neg cut, continuedCharacter_stops (by decide) continued rest zero (by omega), if_pos rfl, if_neg (by omega)]

theorem span_continuation (bytes : Bytes) :
    bytes.all isContinuation = true ∨ ∃ good b rest, bytes = good ++ b :: rest ∧ good.all isContinuation = true ∧ isContinuation b = false := by
  induction bytes with
  | nil => exact Or.inl rfl
  | cons first bytes ih =>
    cases continued : isContinuation first with
    | false => exact Or.inr ⟨[], first, bytes, rfl, rfl, continued⟩
    | true =>
      rcases ih with all | ⟨good, b, rest, split, all, stops⟩
      · refine Or.inl ?_
        rw [List.all_cons, continued, all]
        rfl
      · refine Or.inr ⟨first :: good, b, rest, by rw [split]; rfl, ?_, stops⟩
        rw [List.all_cons, continued, all]
        rfl

theorem broken_found {bytes : Bytes} (broken : Broken bytes) (noNul : 0 ∉ bytes) (reads : ∀ k < bytes.length, string[position + k]? = bytes[k]?)
    {limit : Nat} (within : bytes.length ≤ limit ∨ 6 ≤ limit) : xutf8GetCharExtended string position (some limit) = some malformedSequence := by
  obtain ⟨nonempty, whole, none⟩ := broken
  obtain ⟨a, tail, rfl⟩ := List.exists_cons_of_ne_nil nonempty
  obtain ⟨here, rest⟩ := tail_reads reads
  have nonzero : a ≠ 0 := fun zero => noNul (zero ▸ List.mem_cons_self)
  have large : ¬a.toNat < 0x80 := fun small => none _ _ (.single nonzero small) ⟨tail, rfl⟩
  rw [xutf8GetCharExtended_eq here, if_neg large]
  cases announced : leadClass a.toNat with
  | none => rfl
  | some triple =>
    obtain ⟨length, wc, minCode⟩ := triple
    obtain ⟨_, _, least, most⟩ := leadClass_facts announced
    dsimp only [longCharacter]
    rw [List.length_cons] at within
    -- the bytes that the character should have behind the first one
    rcases span_continuation (tail.take (length - 1)) with all | ⟨good, b, more, split, all, stops⟩
    · by_cases missing : tail.length + 1 < length
      · rw [List.take_of_length_le (by omega)] at all
        exact absurd ⟨a, tail, length, wc, minCode, rfl, announced, all, missing⟩ whole
      · have count : (tail.take (length - 1)).length = length - 1 := by
          rw [List.length_take]
          omega
        have size : length = (tail.take (length - 1)).length + 1 := by omega
        have small : payload wc (tail.take (length - 1)) < minCode := by
          by_contra enough
          rw [size] at announced
          refine none _ _ (.multiple announced all (Nat.not_lt.mp enough)) ⟨tail.drop (length - 1), ?_⟩
          rw [List.cons_append, List.take_append_drop]
        have taken : ∀ k < (tail.take (length - 1)).length, string[position + (1 + k)]? = (tail.take (length - 1))[k]? := by
          intro k below
          rw [rest k (by omega), List.getElem?_take_of_lt (by omega)]
        obtain ⟨code, found, value, _⟩ := @continuedCharacter_eq string position minCode (tail.take (length - 1)) 1 wc taken
        rw [count] at found
        rw [if_neg (by omega), found, value all, if_pos small]
    · have position_of : good.length < tail.length ∧ good.length < length - 1 := by
        have lengths := congrArg List.length split
        rw [List.length_take, List.length_append, List.length_cons] at lengths
        omega
      have bytes_of : ∀ k ≤ good.length, tail[k]? = (good ++ b :: more)[k]? := by
        intro k below
        rw [← split, List.getElem?_take_of_lt (by omega)]
      have goods : ∀ k < good.length, string[position + (1 + k)]? = good[k]? := by
        intro k below
        rw [rest k (by omega), bytes_of k (Nat.le_of_lt below), List.getElem?_append_left below]
      have stop : string[position + (1 + good.length)]? = some b := by
        rw [rest _ position_of.1, bytes_of _ (Nat.le_refl _), List.getElem?_append_right (Nat.le_refl _), Nat.sub_self]
        rfl
      have held : b ≠ 0 := by
        rintro rfl
        have inTake : (0 : UInt8) ∈ tail.take (length - 1) := by
          rw [split]
          exact List.mem_append_right _ List.mem_cons_self
        exact noNul (List.mem_cons_of_mem _ (List.mem_of_mem_take inTake))
      by_cases cut : length > limit
      · rw [if_pos cut, truncatedCharacter_stops stops all goods stop (by omega)]
      · rw [if_neg cut, continuedCharacter_stops stops all goods stop (by omega), if_neg held]

end Stopping

/-! The passes of the converters from UTF-8 over the characters of their input. -/

/-- The values of characters. -/
def codes (chars : List (Nat × Bytes)) : List Nat := chars.map Prod.fst

/-- The string has these bytes from a position on. -/
def Reads (string : Bytes) (position : Nat) (bytes : Bytes) : Prop := ∀ k < bytes.length, string[position + k]? = bytes[k]?

section Positions
variable {string front back : Bytes} {position : Nat}
variable {chars : List (Nat × Bytes)}

theorem Reads.left (reads : Reads string position (front ++ back)) : Reads string position front := by
  intro k below
  rw [reads k (by rw [List.length_append]; omega), List.getElem?_append_left below]

theorem Reads.right (reads : Reads string position (front ++ back)) : Reads string (position + front.length) back := by
  intro k below
  rw [Nat.add_assoc, reads _ (by rw [List.length_append]; omega), List.getElem?_append_right (Nat.le_add_right _ _),
    Nat.add_sub_cancel_left]

theorem reads_start (front back : Bytes) : Reads (front ++ back) 0 front := by
  intro k below
  rw [Nat.zero_add, List.getElem?_append_left below]

theorem AllEncoded.head {char : Nat × Bytes} (all : AllEncoded (char :: chars)) :
    Encoded char.1 char.2 :=
  all char List.mem_cons_self

theorem AllEncoded.tail {char : Nat × Bytes} (all : AllEncoded (char :: chars)) : AllEncoded chars :=
  fun other member => all other (List.mem_cons_of_mem _ member)

theorem length_le_spell (all : AllEncoded chars) : chars.length ≤ (spell chars).length := by
  induction chars with
  | nil => exact Nat.zero_le _
  | cons char chars ih =>
    have positive := all.head.length_pos
    have rest := ih all.tail
    rw [spell_cons, List.length_append, List.length_cons]
    omega

theorem spell_append (front back : List (Nat × Bytes)) : spell (front ++ back) = spell front ++ spell back :=
  List.flatMap_append

end Positions

section Scan
variable {string : Bytes} {len : Option Nat} {units : Nat → Except ConvertError Nat} {wantsRead : Bool} {position : Nat}

theorem not_reached (going : ∀ n, len = some n → position < n) : ¬len.any (· ≤ position) = true := by
  cases len with
  | none => exact Bool.false_ne_true
  | some n => exact fun reached => absurd (of_decide_eq_true reached) (Nat.not_le.mpr (going n rfl))

/-- One turn of the counting pass over a character. -/
theorem utf8Scan_character (wantsRead : Bool) {c more : Nat} {character : Bytes} (encoded : Encoded c character) (size : units c = .ok more)
    (reads : Reads string position character) (room : ∀ n, len = some n → position + character.length ≤ n) (fuel : Nat) (k : Int) :
    utf8Scan string len units wantsRead (fuel + 1) position (wrapInt k) =
      utf8Scan string len units wantsRead fuel (position + character.length) (wrapInt (k + more)) := by
  obtain ⟨a, tail, shape, nonzero, skip, most⟩ := encoded.lead
  have positive := encoded.length_pos
  have here : string[position]? = some a := by
    have read := reads 0 positive
    rwa [shape] at read
  have going : ¬len.any (· ≤ position) = true := not_reached fun n limit => by have enough := room n limit; omega
  have decoded := @Encoded.extended string character position c encoded (some (len.elim 6 (· - position))) reads (by
    rintro _ ⟨⟩
    cases len with
    | none => exact most
    | some n =>
      have enough := room n rfl
      exact Nat.le_sub_of_add_le (by omega))
  have below := encoded.bounds.2
  rw [utf8Scan, if_neg going, here]
  simp only [some_bind, if_neg nonzero, decoded, no_error_bit below, ne_eq, not_true_eq_false,
    if_false, size, skip, wrapInt_add]

theorem utf8Scan_spell (units : Nat → Except ConvertError Nat) (wantsRead : Bool) (size : Nat → Nat) {chars : List (Nat × Bytes)} (all : AllEncoded chars)
    (sizes : ∀ char ∈ chars, units char.1 = .ok (size char.1)) (reads : Reads string position (spell chars))
    (room : ∀ n, len = some n → position + (spell chars).length ≤ n) (fuel : Nat) (k : Int) :
    utf8Scan string len units wantsRead (fuel + chars.length) position (wrapInt k) =
      utf8Scan string len units wantsRead fuel (position + (spell chars).length) (wrapInt (k + total size (codes chars))) := by
  induction chars generalizing position k with
  | nil =>
    change utf8Scan _ _ _ _ fuel position (wrapInt k) = utf8Scan _ _ _ _ fuel position (wrapInt (k + 0))
    rw [Int.add_zero]
  | cons char chars ih =>
    rw [spell_cons] at reads room ⊢
    rw [List.length_append] at room
    have first := utf8Scan_character wantsRead all.head (sizes char List.mem_cons_self) reads.left
      (fun n limit => by have enough := room n limit; omega) (fuel + chars.length) k
    rw [List.length_cons, ← Nat.add_assoc, first, ih all.tail (fun other member => sizes other (List.mem_cons_of_mem _ member)) reads.right
      (fun n limit => by have enough := room n limit; omega), List.length_append, Nat.add_assoc]
    congr 2
    change _ = k + ((size char.1 + total size (codes chars) : Nat) : Int)
    omega

/-- It stops at the length or at a NUL. -/
theorem utf8Scan_end (ends : len = some position ∨ (∀ n, len = some n → position < n) ∧ string[position]? = some 0) (fuel : Nat) (count : Int) :
    utf8Scan string len units wantsRead (fuel + 1) position count = some (.ok count, position) := by
  rw [utf8Scan]
  rcases ends with rfl | ⟨going, nul⟩
  · have reached : (some position).any (· ≤ position) = true := decide_eq_true (Nat.le_refl _)
    rw [if_pos reached]
  · rw [if_neg (not_reached going), nul]
    rfl

/-- And it stops where the decoder finds an error. -/
theorem utf8Scan_error {a : UInt8} {code : Nat} (going : ∀ n, len = some n → position < n) (here : string[position]? = some a) (nonzero : a ≠ 0)
    (found : xutf8GetCharExtended string position (some (len.elim 6 (· - position))) = some code) (error : IsErrorCode code)
    (fuel : Nat) (count : Int) :
    utf8Scan string len units wantsRead (fuel + 1) position count =
      some (if code = partialSequence then if wantsRead then .ok count else .error partialCharacter else .error invalidBytes, position) := by
  rw [utf8Scan, if_neg (not_reached going), here]
  simp only [some_bind, if_neg nonzero, found, if_pos (isErrorCode_bit error)]
  split_ifs <;> rfl

theorem utf8Write_spell (emit : Nat → List Nat) (some_unit : ∀ c, emit c ≠ []) {chars : List (Nat × Bytes)} (all : AllEncoded chars)
    (reads : Reads string position (spell chars)) {count : Int} {capacity index fuel : Nat}
    (counted : count = index + ((codes chars).flatMap emit).length) (room : index + ((codes chars).flatMap emit).length < capacity)
    (enough : chars.length < fuel) :
    utf8Write string emit count capacity fuel position index =
      some ((codes chars).flatMap emit ++ [0], position + (spell chars).length, index + ((codes chars).flatMap emit).length) := by
  induction chars generalizing position index fuel with
  | nil =>
    obtain ⟨fuel, rfl⟩ := Nat.exists_eq_succ_of_ne_zero (Nat.ne_of_gt enough)
    change count = index + ((0 : Nat) : Int) at counted
    rw [utf8Write, if_neg (by omega), if_pos (by exact room)]
    rfl
  | cons char chars ih =>
    obtain ⟨fuel, rfl⟩ := Nat.exists_eq_succ_of_ne_zero (Nat.ne_of_gt (Nat.zero_lt_of_lt enough))
    have split : (codes (char :: chars)).flatMap emit = emit char.1 ++ (codes chars).flatMap emit := List.flatMap_cons
    have units := List.length_pos_of_ne_nil (some_unit char.1)
    rw [split, List.length_append] at counted room
    rw [spell_cons] at reads ⊢
    obtain ⟨a, tail, shape, nonzero, skip, _⟩ := all.head.lead
    have here : string[position]? = some a := by
      have read := reads.left 0 all.head.length_pos
      rwa [shape] at read
    have rest := @ih _ all.tail reads.right (index + (emit char.1).length) fuel (by omega) (by omega)
      (Nat.lt_of_succ_lt_succ enough)
    rw [utf8Write, if_pos (by omega), all.head.getChar reads.left, some_bind, here]
    simp only [some_bind, if_pos (show index + (emit char.1).length ≤ capacity by omega), skip, rest, split,
      List.length_append, List.append_assoc, Nat.add_assoc]
    rfl

end Scan

/-! ## Strings that a NUL ends -/

section Terminated
variable {string tail : Bytes} {chars : List (Nat × Bytes)} {units : Nat → Except ConvertError Nat} {wantsRead : Bool}

/-- What the counting pass makes of the end of the characters. -/
def scanOutcome (tail : Bytes) (wantsRead cut : Bool) (count : Int) : Except ConvertError Int :=
  if tail = [] then .ok count
  else if cut then if wantsRead then .ok count else .error partialCharacter
  else .error invalidBytes

theorem scanOutcome_ok {cut : Bool} {count total : Int} (fine : scanOutcome tail wantsRead cut count = .ok total) :
    (tail = [] ∨ cut = true) ∧ total = count := by
  unfold scanOutcome at fine
  split_ifs at fine with done broken wanted
  · exact ⟨Or.inl done, (Except.ok.inj fine).symm⟩
  · exact ⟨Or.inr broken, (Except.ok.inj fine).symm⟩

theorem utf8Scan_terminated (units : Nat → Except ConvertError Nat) (wantsRead : Bool) (noNul : 0 ∉ tail) (ends : tail = [] ∨ Truncated tail ∨ Broken tail) {position : Nat}
    (reads : Reads string position (tail ++ [0])) (fuel : Nat) (count : Int) :
    ∃ cut : Bool, (cut = true ↔ Truncated tail) ∧
      utf8Scan string none units wantsRead (fuel + 1) position count = some (scanOutcome tail wantsRead cut count, position) := by
  have inside : Reads string position tail := reads.left
  have nul : string[position + tail.length]? = some 0 := reads.right 0 Nat.one_pos
  have unlimited : ∀ n, (none : Option Nat) = some n → position < n := fun n impossible => (nomatch impossible)
  rcases ends with rfl | cut | broken
  · refine ⟨false, ⟨nofun, ?_⟩, utf8Scan_end (Or.inr ⟨unlimited, nul⟩) fuel count⟩
    rintro ⟨a, tail, _, _, _, shape, _⟩
    cases shape
  · obtain ⟨a, rest, length, wc, minCode, rfl, announced, continued, short⟩ := cut
    have most := (leadClass_facts announced).2.2.2
    have found := @truncated_found _ _ _ _ _ _ _ 6 announced continued short inside (Or.inr ⟨by rw [List.length_cons] at short; omega, nul⟩)
    rw [if_neg (by omega)] at found
    refine ⟨true, ⟨fun _ => ⟨a, rest, length, wc, minCode, rfl, announced, continued, short⟩, fun _ => rfl⟩, ?_⟩
    have here : string[position]? = some a := inside 0 (Nat.succ_pos _)
    have nonzero : a ≠ 0 := fun zero => noNul (zero ▸ List.mem_cons_self)
    rw [utf8Scan_error unlimited here nonzero found (Or.inr rfl), if_pos rfl]
    rfl
  · obtain ⟨a, rest, rfl⟩ := List.exists_cons_of_ne_nil broken.1
    have nonzero : a ≠ 0 := fun zero => noNul (zero ▸ List.mem_cons_self)
    have here : string[position]? = some a := inside 0 (Nat.succ_pos _)
    have found := broken_found broken noNul inside (Or.inr (Nat.le_refl 6))
    refine ⟨false, ⟨nofun, fun cut => absurd cut broken.2.1⟩, ?_⟩
    rw [utf8Scan_error unlimited here nonzero found (Or.inl rfl), if_neg (by decide)]
    rfl

end Terminated

end Xpl.Text
