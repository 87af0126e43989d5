import Xpl.Library.Partial
import Xpl.Text.WellFormed

/-! The validators accept the same characters, and exactly the well-formed ones. -/

set_option autoImplicit false

namespace Xpl.Text
open Xpl.Library
variable {string bytes : Bytes}
variable {position : Nat}

/-! ## The bounded and the unbounded loop -/

/-- The bytes from a position on: up to a limit that is tested, or up to a NUL. -/
structure Window (string : Bytes) (position : Nat) (room : Nat → Bool) (s : Bytes) : Prop where
  reads : ∀ index < s.length, string[position + index]? = s[index]?
  stops : (∀ count, room count = decide (count ≤ s.length)) ∨
    (∀ count, room count = true) ∧ string[position + s.length]? = some 0

theorem validSecondOfThree_zero (a : UInt8) : validSecondOfThree a 0 = false := by
  unfold validSecondOfThree
  split
  · rfl
  · split <;> rfl

theorem validSecondOfFour_zero (a : UInt8) : validSecondOfFour a 0 = false := by
  unfold validSecondOfFour
  split
  · rfl
  · split <;> rfl

theorem validateLast_some {byte : UInt8} (read : string[position]? = some byte) :
    validateLast string position = some (if isContinuation byte then some (position + 1) else none) := by
  rw [validateLast, read]
  simp only [some_bind]
  split <;> rfl

theorem validateCharacter_eq {a : UInt8} {rest : Bytes} {room : Nat → Bool}
    (window : Window string position room (a :: rest)) (large : ¬a < 128) :
    validateCharacter string room position a = some ((leadLength (a :: rest)).map (position + ·)) := by
  have nonzero : a ≠ 0 := by
    rintro rfl
    exact large (by decide)
  obtain ⟨reads, stops⟩ := window
  have least : 0xc2 ≤ a ↔ ¬a < 0xc2 := UInt8.not_lt.symm
  have zero : isContinuation 0 = false := rfl
  have room_of : ∀ count ≤ rest.length + 1, room count = true := by
    intro count bound
    rcases stops with limited | ⟨free, -⟩
    · rw [limited, decide_eq_true_eq, List.length_cons]
      exact bound
    · exact free count
  unfold leadLength validateCharacter
  dsimp only
  rw [if_neg nonzero, if_neg large]
  by_cases two : a < 0xe0
  · rw [if_pos two, if_pos two]
    cases rest with
    | nil =>
      rcases stops with limited | ⟨free, last⟩
      · simp [limited]
      · have second : string[position + 1]? = some 0 := last
        simp [free, validateLast_some second, zero]
    | cons b rest =>
      have second : string[position + 1]? = some b := reads 1 (by simp)
      rw [validateLast_some second, room_of 2 (by simp)]
      by_cases low : a < 0xc2
      · simp [low, least]
      · by_cases continued : isContinuation b = true
        · simp [low, least, continued]
        · simp [low, least, continued]
  · rw [if_neg two, if_neg two]
    by_cases three : a < 0xf0
    · rw [if_pos three, if_pos three]
      match rest with
      | [] =>
        rcases stops with limited | ⟨free, last⟩
        · simp [limited]
        · have second : string[position + 1]? = some 0 := last
          simp [free, second, validSecondOfThree_zero]
      | [b] =>
        have second : string[position + 1]? = some b := reads 1 (by simp)
        rcases stops with limited | ⟨free, last⟩
        · simp [limited]
        · have third : string[position + 2]? = some 0 := last
          simp [free, second, validateLast_some third, zero]
      | b :: c :: rest =>
        have second : string[position + 1]? = some b := reads 1 (by simp)
        have third : string[position + 2]? = some c := reads 2 (by simp)
        rw [second, validateLast_some third, room_of 3 (by simp)]
        by_cases valid : validSecondOfThree a b = true
        · by_cases continued : isContinuation c = true
          · simp [valid, continued]
          · simp [valid, continued]
        · simp [valid]
    · rw [if_neg three, if_neg three]
      by_cases four : a < 0xf5
      · rw [if_pos four, if_pos four]
        match rest with
        | [] =>
          rcases stops with limited | ⟨free, last⟩
          · simp [limited]
          · have second : string[position + 1]? = some 0 := last
            simp [free, second, validSecondOfFour_zero]
        | [b] =>
          have second : string[position + 1]? = some b := reads 1 (by simp)
          rcases stops with limited | ⟨free, last⟩
          · simp [limited]
          · have third : string[position + 2]? = some 0 := last
            simp [free, second, third, zero]
        | [b, c] =>
          have second : string[position + 1]? = some b := reads 1 (by simp)
          have third : string[position + 2]? = some c := reads 2 (by simp)
          rcases stops with limited | ⟨free, last⟩
          · simp [limited]
          · have fourth : string[position + 3]? = some 0 := last
            simp [free, second, third, validateLast_some fourth, zero]
        | b :: c :: d :: rest =>
          have second : string[position + 1]? = some b := reads 1 (by simp)
          have third : string[position + 2]? = some c := reads 2 (by simp)
          have fourth : string[position + 3]? = some d := reads 3 (by simp)
          rw [second, third, validateLast_some fourth, room_of 4 (by simp)]
          by_cases valid : validSecondOfFour a b = true
          · by_cases continued : isContinuation c = true
            · by_cases last : isContinuation d = true
              · simp [valid, continued, last]
              · simp [valid, continued, last]
            · simp [valid, continued]
          · simp [valid]
      · rw [if_neg four, if_neg four]
        rfl

theorem leadLength_le {size : Nat} (found : leadLength bytes = some size) :
    0 < size ∧ size ≤ bytes.length := by
  obtain ⟨c, ⟨-, -, rest, rfl⟩, rfl⟩ := leads_of_leadLength found
  refine ⟨List.length_pos_iff.mpr (utf8_ne_nil c), ?_⟩
  rw [List.length_append]
  exact Nat.le_add_right _ _

theorem fastValidateLen_eq (bytes : Bytes) :
    fastValidateLen bytes =
      match leadLength bytes with
      | none => 0
      | some size => fastValidateLen (bytes.drop size) + size := by
  cases bytes with
  | nil => rfl
  | cons a rest =>
    conv_lhs => unfold fastValidateLen
    unfold leadLength
    dsimp only
    by_cases zero : a = 0
    · simp [zero]
    · rw [if_neg zero, if_neg zero]
      by_cases one : a < 128
      · rw [if_pos one, if_pos one]
        rfl
      · rw [if_neg one, if_neg one]
        by_cases two : a < 0xe0
        · rw [if_pos two, if_pos two]
          cases rest with
          | nil => rfl
          | cons b rest =>
            dsimp only
            split <;> rfl
        · rw [if_neg two, if_neg two]
          by_cases three : a < 0xf0
          · rw [if_pos three, if_pos three]
            match rest with
            | [] => rfl
            | [_] => rfl
            | b :: c :: rest =>
              dsimp only
              split <;> rfl
          · rw [if_neg three, if_neg three]
            by_cases four : a < 0xf5
            · rw [if_pos four, if_pos four]
              match rest with
              | [] => rfl
              | [_] => rfl
              | [_, _] => rfl
              | b :: c :: d :: rest =>
                dsimp only
                split <;> rfl
            · rw [if_neg four, if_neg four]

theorem fastValidateLen_none (lead : leadLength bytes = none) : fastValidateLen bytes = 0 := by
  rw [fastValidateLen_eq, lead]

theorem fastValidateLen_some {size : Nat} (lead : leadLength bytes = some size) :
    fastValidateLen bytes = size + fastValidateLen (bytes.drop size) := by
  rw [fastValidateLen_eq, lead, Nat.add_comm]

theorem validateLoop_step {string : Bytes} {more : Nat → Bool} {room : Nat → Nat → Bool} {position : Nat} {s : Bytes}
    (window : Window string position (room position) s)
    (goes : more position = true ∨ more position = false ∧ s = [])
    (first : s = [] → more position = true → string[position]? = some 0) (fuel : Nat) :
    validateLoop string more room (fuel + 1) position =
      match leadLength s with
      | none => some position
      | some size => validateLoop string more room fuel (position + size) := by
  rw [validateLoop]
  rcases goes with goes | ⟨done, rfl⟩
  · rw [if_pos goes]
    cases s with
    | nil =>
      rw [first rfl goes]
      rfl
    | cons a rest =>
      have here : string[position]? = some a := window.reads 0 (by simp)
      rw [here]
      simp only [some_bind]
      by_cases zero : a = 0
      · simp [zero, leadLength]
      · rw [if_neg zero]
        by_cases one : a < 128
        · have single : leadLength (a :: rest) = some 1 :=
            leadLength_one ⟨byte_ne_zero.mp zero, byte_lt_128.mp one⟩
          rw [if_pos one, single]
        · rw [if_neg one, validateCharacter_eq window one]
          cases leadLength (a :: rest) <;> rfl
  · rw [done]
    rfl

/-- Both loops count what the list function counts. -/
theorem validateLoop_eq {string content : Bytes} {more : Nat → Bool} {room : Nat → Nat → Bool}
    (window : ∀ position ≤ content.length, Window string position (room position) (content.drop position))
    (goes : ∀ position < content.length, more position = true)
    (stop : more content.length = false ∨ string[content.length]? = some 0)
    {fuel position : Nat} (inside : position ≤ content.length) (enough : content.length - position < fuel) :
    validateLoop string more room fuel position = some (position + fastValidateLen (content.drop position)) := by
  induction fuel generalizing position with
  | zero => omega
  | succ fuel ih =>
    have step := @validateLoop_step string more room position _ (window position inside) (by
      rcases Nat.eq_or_lt_of_le inside with rfl | before
      · cases going : more content.length with
        | true => exact Or.inl rfl
        | false => exact Or.inr ⟨rfl, by simp⟩
      · exact Or.inl (goes position before)) (by
      intro empty going
      have last : position = content.length := by
        rw [List.drop_eq_nil_iff] at empty
        omega
      subst last
      rcases stop with ended | zero
      · rw [ended] at going
        cases going
      · exact zero) fuel
    rw [step]
    cases lead : leadLength (content.drop position) with
    | none => rw [fastValidateLen_none lead, Nat.add_zero]
    | some size =>
      obtain ⟨positive, within⟩ := leadLength_le lead
      rw [List.length_drop] at within
      dsimp only
      rw [ih (by omega) (by omega), fastValidateLen_some lead, List.drop_drop, Nat.add_assoc]

theorem fastValidateBounded_eq (fits : string.length < 2 ^ 63) :
    fastValidateBounded string = some (fastValidateLen string) := by
  rw [fastValidateBounded, if_pos fits, @validateLoop_eq string string]
  · simp
  · intro position inside
    refine ⟨fun index bound => by rw [List.getElem?_drop], Or.inl fun count => ?_⟩
    rw [List.length_drop]
  · exact fun position inside => decide_eq_true inside
  · exact Or.inl (by simp)
  · exact Nat.zero_le _
  · omega

theorem fastValidate_eq (string : Bytes) : fastValidate (string ++ [0]) = some (fastValidateLen string) := by
  rw [fastValidate, @validateLoop_eq (string ++ [0]) string]
  · simp
  · intro position inside
    refine ⟨fun index bound => ?_, Or.inr ⟨fun _ => rfl, ?_⟩⟩
    · rw [List.length_drop] at bound
      rw [List.getElem?_drop, List.getElem?_append_left (by omega)]
    · have last : position + (string.drop position).length = string.length := by
        rw [List.length_drop]
        omega
      rw [last, List.getElem?_append_right (Nat.le_refl _), Nat.sub_self]
      rfl
  · exact fun _ _ => rfl
  · exact Or.inr (by rw [List.getElem?_append_right (Nat.le_refl _), Nat.sub_self]; rfl)
  · exact Nat.zero_le _
  · rw [List.length_append]
    omega

/-! ## The longest valid part -/

theorem fastValidateLen_text {text : List Nat} (valid : IsText text) (rest : Bytes) :
    fastValidateLen (text.flatMap utf8 ++ rest) = (text.flatMap utf8).length + fastValidateLen rest := by
  induction text with
  | nil => simp
  | cons c text ih =>
    obtain ⟨scalar, nonzero⟩ := valid c List.mem_cons_self
    have others := ih fun other member => valid other (List.mem_cons_of_mem _ member)
    rw [List.flatMap_cons, List.append_assoc, fastValidateLen_some (leadLength_utf8 scalar nonzero _), List.drop_left,
      others, List.length_append, Nat.add_assoc]

theorem isUtf8_take (bytes : Bytes) :
    fastValidateLen bytes ≤ bytes.length ∧ IsUtf8 (bytes.take (fastValidateLen bytes)) := by
  induction size : bytes.length using Nat.strong_induction_on generalizing bytes with
  | h total ih =>
    cases lead : leadLength bytes with
    | none =>
      rw [fastValidateLen_none lead]
      exact ⟨Nat.zero_le _, [], by simp [IsText], rfl⟩
    | some count =>
      obtain ⟨positive, within⟩ := leadLength_le lead
      obtain ⟨c, ⟨scalar, nonzero, rest, rfl⟩, rfl⟩ := leads_of_leadLength lead
      rw [List.length_append] at within size
      obtain ⟨bound, text, valid, encoded⟩ := ih rest.length (by omega) rest rfl
      rw [fastValidateLen_some lead, List.drop_left]
      refine ⟨by omega, c :: text, ?_, ?_⟩
      · intro other member
        rcases List.mem_cons.mp member with rfl | later
        · exact ⟨scalar, nonzero⟩
        · exact valid other later
      · rw [List.take_length_add_append, List.flatMap_cons, encoded]

theorem le_fastValidateLen {count : Nat} (inside : count ≤ bytes.length)
    (valid : IsUtf8 (bytes.take count)) : count ≤ fastValidateLen bytes := by
  obtain ⟨text, isText, encoded⟩ := valid
  have length : (text.flatMap utf8).length = count := by
    rw [← encoded, List.length_take]
    omega
  have whole := fastValidateLen_text isText (bytes.drop count)
  rw [← encoded, List.take_append_drop, encoded, length] at whole
  omega

theorem isUtf8_iff (bytes : Bytes) : IsUtf8 bytes ↔ fastValidateLen bytes = bytes.length := by
  obtain ⟨bound, valid⟩ := isUtf8_take bytes
  constructor
  · intro whole
    rw [← List.take_length (l := bytes)] at whole
    exact Nat.le_antisymm bound (le_fastValidateLen (Nat.le_refl _) whole)
  · intro whole
    rwa [whole, List.take_length] at valid

/-! ## Characters one by one -/

section Characters
variable {string : Bytes} {position : Nat}
variable {c wc : Nat}

/-- The bits of the continuation bytes, after those of the first byte. -/
def payload (wc : Nat) (bytes : Bytes) : Nat := bytes.foldl (fun wc byte => wc * 64 + byte.toNat % 64) wc

def IsErrorCode (c : Nat) : Prop := c = malformedSequence ∨ c = partialSequence

theorem continuation_test (b : UInt8) : b &&& 0xc0 ≠ 0x80 ↔ isContinuation b = false := by
  simp [isContinuation, validateByte]

theorem truncatedCharacter_isError {count index : Nat} (reads : ∀ k < count, ∃ byte, string[position + (index + k)]? = some byte) :
    ∃ code, truncatedCharacter string position count index = some code ∧ IsErrorCode code := by
  induction count generalizing index with
  | zero => exact ⟨_, rfl, Or.inr rfl⟩
  | succ count ih =>
    obtain ⟨byte, here⟩ := reads 0 (Nat.succ_pos _)
    rw [Nat.add_zero] at here
    rw [truncatedCharacter, here]
    simp only [some_bind]
    split
    · exact ⟨_, rfl, Or.inl rfl⟩
    · apply ih
      intro k bound
      have next := reads (k + 1) (by omega)
      rwa [← Nat.add_assoc index k 1, Nat.add_right_comm] at next

theorem continuedCharacter_eq (minCode : Nat) {bytes : Bytes} {index wc : Nat}
    (reads : ∀ k < bytes.length, string[position + (index + k)]? = bytes[k]?) :
    ∃ code, continuedCharacter string position minCode bytes.length index wc = some code ∧
      (bytes.all isContinuation = true →
        code = if payload wc bytes < minCode then malformedSequence else payload wc bytes) ∧
      (bytes.all isContinuation = false → IsErrorCode code) := by
  -- over the continuation bytes; `wc` is the value of those read so far
  induction bytes generalizing index wc with
  | nil =>
    by_cases small : wc < minCode
    · exact ⟨_, if_pos small, by simp [payload, small]⟩
    · exact ⟨_, if_neg small, by simp [payload, small]⟩
  | cons byte bytes ih =>
    have here : string[position + index]? = some byte := reads 0 (Nat.succ_pos _)
    rw [List.length_cons, continuedCharacter, here]
    simp only [some_bind, continuation_test, List.all_cons]
    cases continued : isContinuation byte with
    | false =>
      by_cases zero : byte = 0
      · exact ⟨partialSequence, by simp [zero], by simp, by simp [IsErrorCode]⟩
      · exact ⟨malformedSequence, by simp [zero], by simp, by simp [IsErrorCode]⟩
    | true =>
      obtain ⟨code, found, meaning⟩ := @ih (index + 1) (wc * 64 + byte.toNat % 64) (by
        intro k bound
        have next := reads (k + 1) (by simpa using bound)
        rwa [← Nat.add_assoc index k 1, Nat.add_right_comm] at next)
      have bits : wc <<< 6 ||| (byte &&& 0x3f).toNat = wc * 64 + byte.toNat % 64 := by
        rw [and_3f]
        exact shift_or 6 (by omega)
      refine ⟨code, ?_, ?_⟩
      · rw [bits]
        exact found
      · rw [Bool.true_and]
        exact meaning

theorem longCharacter_eq {maxLen : Option Nat} {bytes : Bytes} {length wc minCode : Nat} (counted : length = bytes.length + 1)
    (enough : ∀ limit, maxLen = some limit → length ≤ limit)
    (reads : ∀ k < bytes.length, string[position + (1 + k)]? = bytes[k]?) :
    ∃ code, longCharacter string position maxLen length wc minCode = some code ∧
      (bytes.all isContinuation = true →
        code = if payload wc bytes < minCode then malformedSequence else payload wc bytes) ∧
      (bytes.all isContinuation = false → IsErrorCode code) := by
  subst counted
  have whole : longCharacter string position maxLen (bytes.length + 1) wc minCode =
      continuedCharacter string position minCode bytes.length 1 wc := by
    cases maxLen with
    | none => rfl
    | some limit => exact if_neg (by have := enough limit rfl; omega)
  rw [whole]
  exact continuedCharacter_eq minCode reads

theorem low_bits (n : Nat) : n &&& 0x1f = n % 32 ∧ n &&& 0x0f = n % 16 ∧ n &&& 0x07 = n % 8 ∧ n &&& 0x03 = n % 4 ∧
    n &&& 0x01 = n % 2 :=
  ⟨Nat.and_two_pow_sub_one_eq_mod _ 5, Nat.and_two_pow_sub_one_eq_mod _ 4, Nat.and_two_pow_sub_one_eq_mod _ 3,
    Nat.and_two_pow_sub_one_eq_mod _ 2, Nat.and_two_pow_sub_one_eq_mod _ 1⟩

/-- What a first byte announces: the size, its own bits and the least character. -/
def leadClass (first : Nat) : Option (Nat × Nat × Nat) :=
  if first < 0xc0 then none
  else if first < 0xe0 then some (2, first % 32, 128)
  else if first < 0xf0 then some (3, first % 16, 2048)
  else if first < 0xf8 then some (4, first % 8, 65536)
  else if first < 0xfc then some (5, first % 4, 2 ^ 21)
  else if first < 0xfe then some (6, first % 2, 2 ^ 26)
  else none

theorem xutf8GetCharExtended_eq {a : UInt8} (here : string[position]? = some a) (maxLen : Option Nat) :
    xutf8GetCharExtended string position maxLen =
      if a.toNat < 0x80 then some a.toNat
      else
        match leadClass a.toNat with
        | none => some malformedSequence
        | some (length, wc, minCode) => longCharacter string position maxLen length wc minCode := by
  obtain ⟨five, four, three, two, one⟩ := low_bits a.toNat
  rw [xutf8GetCharExtended, here]
  simp only [some_bind, five, four, three, two, one, leadClass]
  split
  · rfl
  · split
    · rfl
    · split
      · rfl
      · split
        · rfl
        · split
          · rfl
          · split
            · rfl
            · split <;> rfl

theorem continuation_byte (n : Nat) :
    (UInt8.ofNat (0x80 + n % 64)).toNat = 0x80 + n % 64 ∧ isContinuation (UInt8.ofNat (0x80 + n % 64)) = true := by
  have value : (UInt8.ofNat (0x80 + n % 64)).toNat = 0x80 + n % 64 := toNat_byte (by omega)
  rw [isContinuation_iff, value]
  omega

theorem utf8_lead (above : 0x80 ≤ c) (below : c < 0x110000) :
    ∃ a tail wc minCode, utf8 c = a :: tail ∧ 0x80 ≤ a.toNat ∧ leadClass a.toNat = some (tail.length + 1, wc, minCode) ∧
      tail.all isContinuation = true ∧ payload wc tail = c ∧ minCode ≤ c := by
  obtain ⟨last, isLast⟩ := continuation_byte c
  by_cases two : c < 0x800
  · have first : (UInt8.ofNat (0xc0 + c / 64)).toNat = 0xc0 + c / 64 := toNat_byte (by omega)
    refine ⟨_, _, (0xc0 + c / 64) % 32, 128, utf8_two above two, by omega, ?_, ?_, ?_, above⟩
    · rw [first, leadClass, if_neg (by omega), if_pos (by omega)]
      rfl
    · simp [-UInt8.ofNat_add, isLast]
    · simp only [payload, List.foldl_cons, List.foldl_nil, last]
      omega
  · obtain ⟨middle, isMiddle⟩ := continuation_byte (c / 64)
    by_cases three : c < 0x10000
    · have first : (UInt8.ofNat (0xe0 + c / 4096)).toNat = 0xe0 + c / 4096 := toNat_byte (by omega)
      refine ⟨_, _, (0xe0 + c / 4096) % 16, 2048, utf8_three (by omega) three, by omega, ?_, ?_, ?_, by omega⟩
      · rw [first, leadClass, if_neg (by omega), if_neg (by omega), if_pos (by omega)]
        rfl
      · simp [-UInt8.ofNat_add, isLast, isMiddle]
      · simp only [payload, List.foldl_cons, List.foldl_nil, last, middle]
        omega
    · have first : (UInt8.ofNat (0xf0 + c / 262144)).toNat = 0xf0 + c / 262144 := toNat_byte (by omega)
      obtain ⟨high, isHigh⟩ := continuation_byte (c / 4096)
      refine ⟨_, _, (0xf0 + c / 262144) % 8, 65536, utf8_four (by omega), by omega, ?_, ?_, ?_, by omega⟩
      · rw [first, leadClass, if_neg (by omega), if_neg (by omega), if_neg (by omega), if_pos (by omega)]
        rfl
      · simp [-UInt8.ofNat_add, isLast, isMiddle, isHigh]
      · simp only [payload, List.foldl_cons, List.foldl_nil, last, middle, high]
        omega

theorem xutf8GetCharExtended_utf8 {c : Nat} (below : c < 0x110000) {maxLen : Option Nat}
    (reads : ∀ k < (utf8 c).length, string[position + k]? = (utf8 c)[k]?)
    (enough : ∀ limit, maxLen = some limit → (utf8 c).length ≤ limit) :
    xutf8GetCharExtended string position maxLen = some c := by
  by_cases small : c < 0x80
  · have value : (UInt8.ofNat c).toNat = c := toNat_byte (by omega)
    rw [utf8_one small] at reads
    have here : string[position]? = some (UInt8.ofNat c) := reads 0 (by simp)
    rw [xutf8GetCharExtended_eq here, value, if_pos small]
  · obtain ⟨a, tail, wc, minCode, shape, large, announced, continued, value, least⟩ := utf8_lead (by omega) below
    rw [shape] at reads enough
    have here : string[position]? = some a := reads 0 (by simp)
    rw [xutf8GetCharExtended_eq here, if_neg (by omega), announced]
    dsimp only
    obtain ⟨code, found, meaning, -⟩ := @longCharacter_eq string position maxLen tail (tail.length + 1) wc minCode rfl
      (by simpa using enough) (fun k bound => by rw [Nat.add_comm 1 k]; exact reads (k + 1) (by simpa using bound))
    rw [found, meaning continued, value, if_neg (by omega)]

theorem isErrorCode_bit {code : Nat} (error : IsErrorCode code) : code &&& 0x80000000 ≠ 0 := by
  rcases error with rfl | rfl
  · decide
  · decide

theorem no_error_bit (small : c < 2 ^ 31) : c &&& 0x80000000 = 0 := by
  have bit := Nat.and_two_pow c 31
  rw [Nat.testBit_lt_two_pow small] at bit
  exact bit

theorem unicodeValid_iff (word : c < 2 ^ 32) : unicodeValid c = true ↔ IsScalar c := by
  have high : c &&& 0xFFFFF800 = 2048 * (c / 2048) := by
    have quotient : (c &&& 0xFFFFF800) / 2 ^ 11 = c / 2 ^ 11 &&& (2 ^ 21 - 1) := Nat.and_div_two_pow
    have remainder : (c &&& 0xFFFFF800) % 2 ^ 11 = c % 2 ^ 11 &&& 0 := Nat.and_mod_two_pow
    rw [Nat.and_two_pow_sub_one_eq_mod, Nat.mod_eq_of_lt (by omega)] at quotient
    rw [Nat.and_zero] at remainder
    omega
  rw [unicodeValid, high]
  simp only [IsScalar, Bool.and_eq_true, decide_eq_true_eq, ne_eq]
  omega

theorem utf8_of_payload {a : UInt8} {tail : Bytes} {minCode : Nat}
    (announced : leadClass a.toNat = some (tail.length + 1, wc, minCode)) (continued : tail.all isContinuation = true)
    (least : minCode ≤ payload wc tail) (scalar : IsScalar (payload wc tail)) : utf8 (payload wc tail) = a :: tail := by
  unfold leadClass at announced
  unfold IsScalar at scalar
  split at announced
  case isTrue => cases announced
  case isFalse above =>
    split at announced
    case isTrue below =>
      simp only [Option.some.injEq, Prod.mk.injEq] at announced
      obtain ⟨length, rfl, rfl⟩ := announced
      obtain ⟨b, rfl⟩ := List.length_eq_one_iff.mp (by omega : tail.length = 1)
      simp only [List.all_cons, List.all_nil, Bool.and_true, isContinuation_iff] at continued
      simp only [payload, List.foldl_cons, List.foldl_nil] at least ⊢
      have value : a.toNat % 32 * 64 + b.toNat % 64 = (a.toNat - 0xc0) * 64 + (b.toNat - 0x80) := by omega
      rw [value]
      exact utf8_of_two (by omega) continued
    case isFalse larger =>
      split at announced
      case isTrue below =>
        simp only [Option.some.injEq, Prod.mk.injEq] at announced
        obtain ⟨length, rfl, rfl⟩ := announced
        obtain ⟨b, c, rfl⟩ := List.length_eq_two.mp (by omega : tail.length = 2)
        simp only [List.all_cons, List.all_nil, Bool.and_true, Bool.and_eq_true, isContinuation_iff] at continued
        simp only [payload, List.foldl_cons, List.foldl_nil] at least ⊢
        have value : (a.toNat % 16 * 64 + b.toNat % 64) * 64 + c.toNat % 64 =
            (a.toNat - 0xe0) * 4096 + (b.toNat - 0x80) * 64 + (c.toNat - 0x80) := by omega
        rw [value]
        exact utf8_of_three (by omega) continued.1 continued.2 (by omega)
      case isFalse largest =>
        split at announced
        case isTrue below =>
          simp only [Option.some.injEq, Prod.mk.injEq] at announced
          obtain ⟨length, rfl, rfl⟩ := announced
          obtain ⟨b, c, d, rfl⟩ := List.length_eq_three.mp (by omega : tail.length = 3)
          simp only [List.all_cons, List.all_nil, Bool.and_true, Bool.and_eq_true, isContinuation_iff] at continued
          simp only [payload, List.foldl_cons, List.foldl_nil] at least ⊢
          have value : ((a.toNat % 8 * 64 + b.toNat % 64) * 64 + c.toNat % 64) * 64 + d.toNat % 64 =
              (a.toNat - 0xf0) * 262144 + (b.toNat - 0x80) * 4096 + (c.toNat - 0x80) * 64 + (d.toNat - 0x80) := by omega
          rw [value]
          exact utf8_of_four (by omega) continued.1 continued.2.1 continued.2.2 (by omega)
        -- The longer forms only hold characters beyond the last plane.
        case isFalse =>
          split at announced
          case isTrue =>
            simp only [Option.some.injEq, Prod.mk.injEq] at announced
            omega
          case isFalse =>
            split at announced
            case isTrue =>
              simp only [Option.some.injEq, Prod.mk.injEq] at announced
              omega
            case isFalse => cases announced

theorem payload_lt {bound : Nat} (small : wc < bound) (tail : Bytes) : payload wc tail < bound * 64 ^ tail.length := by
  induction tail generalizing wc bound with
  | nil => simpa [payload] using small
  | cons byte tail ih =>
    have next : wc * 64 + byte.toNat % 64 < bound * 64 := by omega
    have rest := ih next
    rw [List.length_cons, Nat.pow_succ', ← Nat.mul_assoc]
    exact rest

theorem leadClass_payload {first length minCode : Nat} (announced : leadClass first = some (length, wc, minCode)) :
    0 < length ∧ 0 < minCode ∧ ∀ tail : Bytes, tail.length + 1 = length → payload wc tail < 2 ^ 31 := by
  have bound : ∀ {wc limit count : Nat}, wc < limit → limit * 64 ^ count ≤ 2 ^ 31 → ∀ tail : Bytes,
      tail.length = count → payload wc tail < 2 ^ 31 := by
    rintro wc limit count small fits tail rfl
    exact Nat.lt_of_lt_of_le (payload_lt small tail) fits
  unfold leadClass at announced
  split at announced
  case isTrue => cases announced
  case isFalse =>
    split at announced
    case isTrue =>
      cases announced
      exact ⟨by decide, by decide, fun tail length => bound (Nat.mod_lt _ (by decide : 32 > 0)) (by decide : 32 * 64 ^ 1 ≤ 2 ^ 31) tail
        (by omega)⟩
    case isFalse =>
      split at announced
      case isTrue =>
        cases announced
        exact ⟨by decide, by decide, fun tail length => bound (Nat.mod_lt _ (by decide : 16 > 0)) (by decide : 16 * 64 ^ 2 ≤ 2 ^ 31) tail
          (by omega)⟩
      case isFalse =>
        split at announced
        case isTrue =>
          cases announced
          exact ⟨by decide, by decide, fun tail length => bound (Nat.mod_lt _ (by decide : 8 > 0)) (by decide : 8 * 64 ^ 3 ≤ 2 ^ 31) tail
            (by omega)⟩
        case isFalse =>
          split at announced
          case isTrue =>
            cases announced
            exact ⟨by decide, by decide, fun tail length => bound (Nat.mod_lt _ (by decide : 4 > 0)) (by decide : 4 * 64 ^ 4 ≤ 2 ^ 31)
              tail (by omega)⟩
          case isFalse =>
            split at announced
            case isTrue =>
              cases announced
              exact ⟨by decide, by decide, fun tail length => bound (Nat.mod_lt _ (by decide : 2 > 0))
                (by decide : 2 * 64 ^ 5 ≤ 2 ^ 31) tail (by omega)⟩
            case isFalse => cases announced

theorem xutf8GetCharValidated_utf8 {c limit : Nat} (scalar : IsScalar c) (nonzero : c ≠ 0)
    (reads : ∀ k < (utf8 c).length, string[position + k]? = (utf8 c)[k]?) (enough : (utf8 c).length ≤ limit) :
    xutf8GetCharValidated string position (some limit) = some c := by
  have below := scalar.lt
  have positive : limit ≠ 0 := by
    have some_byte := List.length_pos_iff.mpr (utf8_ne_nil c)
    omega
  rw [xutf8GetCharValidated, if_neg (by simpa using positive), xutf8GetCharExtended_utf8 below reads (by
    rintro _ ⟨⟩
    exact enough)]
  simp only [some_bind, nonzero, false_and, if_false, no_error_bit (by omega : c < 2 ^ 31),
    (unicodeValid_iff (by omega)).mpr scalar, ne_eq, not_true_eq_false, if_true]
  rfl

theorem xutf8GetCharValidated_error (lead : leadLength (string.drop position) = none) :
    ∃ code, xutf8GetCharValidated string position (some (string.length - position)) = some code ∧ IsErrorCode code := by
  have length := List.length_drop (l := string) (i := position)
  have reads : ∀ k, string[position + k]? = (string.drop position)[k]? := fun k => List.getElem?_drop.symm
  rw [← length]
  cases shape : string.drop position with
  | nil => exact ⟨partialSequence, rfl, Or.inr rfl⟩
  | cons a rest =>
    rw [shape] at lead reads
    have here : string[position]? = some a := reads 0
    have passed : ∀ {code : Nat}, IsErrorCode code →
        xutf8GetCharExtended string position (some (a :: rest).length) = some code →
        xutf8GetCharValidated string position (some (a :: rest).length) = some code := by
      intro code error extended
      have bit := isErrorCode_bit error
      have nonzero : code ≠ 0 := fun zero => bit (by rw [zero]; rfl)
      rw [xutf8GetCharValidated, if_neg (by simp), extended]
      simp only [some_bind, nonzero, false_and, if_false, if_pos bit]
      rfl
    have extended := xutf8GetCharExtended_eq here (some (a :: rest).length)
    by_cases small : a.toNat < 0x80
    · have zero : a.toNat = 0 := by
        by_contra nonzero
        rw [leadLength_one ⟨nonzero, small⟩] at lead
        cases lead
      refine ⟨partialSequence, ?_, Or.inr rfl⟩
      rw [xutf8GetCharValidated, if_neg (by simp), extended, if_pos small, zero]
      rfl
    · rw [if_neg small] at extended
      cases announced : leadClass a.toNat with
      | none =>
        rw [announced] at extended
        exact ⟨_, passed (Or.inl rfl) extended, Or.inl rfl⟩
      | some found =>
        obtain ⟨count, wc, minCode⟩ := found
        obtain ⟨counted, least, bounded⟩ := leadClass_payload announced
        rw [announced] at extended
        dsimp only at extended
        by_cases long : count > (a :: rest).length
        · obtain ⟨code, truncated, error⟩ := @truncatedCharacter_isError string position ((a :: rest).length - 1) 1 (by
            intro k bound
            exact ⟨(a :: rest).get ⟨1 + k, by omega⟩, by rw [reads]; simp⟩)
          refine ⟨code, passed error ?_, error⟩
          rw [extended, longCharacter, if_pos long, truncated]
        · obtain ⟨tail, others, split, size⟩ : ∃ tail others, rest = tail ++ others ∧ tail.length + 1 = count :=
            ⟨rest.take (count - 1), rest.drop (count - 1), (List.take_append_drop _ _).symm, by
              rw [List.length_take]
              rw [List.length_cons] at long
              omega⟩
          obtain ⟨code, decoded, meaning, failed⟩ :=
            @longCharacter_eq string position (some (a :: rest).length) tail count wc minCode size.symm (by
              rintro _ ⟨⟩
              exact Nat.le_of_not_lt long) (by
              intro k bound
              rw [reads, Nat.add_comm 1 k, List.getElem?_cons_succ, split, List.getElem?_append_left bound])
          rw [decoded] at extended
          cases continued : tail.all isContinuation with
          | false => exact ⟨code, passed (failed continued) extended, failed continued⟩
          | true =>
            have value := meaning continued
            by_cases short : payload wc tail < minCode
            · rw [if_pos short] at value
              exact ⟨code, passed (Or.inl value) extended, Or.inl value⟩
            · rw [if_neg short] at value
              have word := bounded tail size
              -- A scalar value in its shortest form would be a character at the front.
              have invalid : ¬IsScalar (payload wc tail) := by
                intro scalar
                rw [← size] at announced
                have encoded := utf8_of_payload announced continued (by omega) scalar
                have found := leadLength_utf8 scalar (by omega) others
                rw [encoded, List.cons_append, ← split, lead] at found
                cases found
              refine ⟨malformedSequence, ?_, Or.inl rfl⟩
              have rejected : unicodeValid (payload wc tail) = false :=
                Bool.eq_false_iff.mpr fun valid => invalid ((unicodeValid_iff (by omega)).mp valid)
              have positive : payload wc tail ≠ 0 := by omega
              rw [xutf8GetCharValidated, if_neg (by simp), extended, value]
              simp only [some_bind, positive, false_and, if_false, no_error_bit word, ne_eq,
                not_true_eq_false, rejected, Bool.false_eq_true]
              rfl

end Characters

theorem utf8Skip_utf8 {c : Nat} (below : c < 0x110000) :
    ∃ a tail, utf8 c = a :: tail ∧ utf8Skip a = (utf8 c).length := by
  have class_of : ∀ a : UInt8, utf8Skip a = if a.toNat < 0xc0 then 1 else ((leadClass a.toNat).map Prod.fst).getD 1 :=
    forall_byte (by decide +kernel)
  by_cases small : c < 0x80
  · have value : (UInt8.ofNat c).toNat = c := toNat_byte (by omega)
    rw [utf8_one small]
    exact ⟨_, [], rfl, by rw [class_of, value, if_pos (by omega)]; rfl⟩
  · obtain ⟨a, tail, wc, minCode, shape, large, announced, -⟩ := utf8_lead (by omega) below
    have multiple : ¬a.toNat < 0xc0 := by
      intro single
      rw [leadClass, if_pos single] at announced
      cases announced
    rw [shape]
    exact ⟨a, tail, rfl, by rw [class_of, if_neg multiple, announced]; rfl⟩

/-- Reading characters one by one stops where the loops stop. -/
theorem validatedCharacters_eq {fuel : Nat} (inside : position ≤ string.length)
    (enough : string.length - position < fuel) :
    validatedCharacters string fuel position = some (position + fastValidateLen (string.drop position)) := by
  -- on the bytes left: a character is passed whole, and the fast scan stops where the slow one does
  induction fuel generalizing position with
  | zero => omega
  | succ fuel ih =>
    rw [validatedCharacters]
    cases lead : leadLength (string.drop position) with
    | none =>
      obtain ⟨code, found, error⟩ := xutf8GetCharValidated_error lead
      rw [found, fastValidateLen_none lead]
      exact if_pos error
    | some size =>
      obtain ⟨positive, within⟩ := leadLength_le lead
      obtain ⟨c, ⟨scalar, nonzero, rest, shape⟩, rfl⟩ := leads_of_leadLength lead
      have below := scalar.lt
      rw [List.length_drop] at within
      have reads : ∀ k < (utf8 c).length, string[position + k]? = (utf8 c)[k]? := by
        intro k bound
        rw [← List.getElem?_drop, shape, List.getElem?_append_left bound]
      obtain ⟨a, tail, first, skip⟩ := utf8Skip_utf8 below
      have here : string[position]? = some a := by
        have read := reads 0 positive
        rwa [first, Nat.add_zero] at read
      have valid : ¬(c = malformedSequence ∨ c = partialSequence) := by
        unfold malformedSequence partialSequence
        omega
      rw [xutf8GetCharValidated_utf8 scalar nonzero reads within, here]
      simp only [some_bind, if_neg valid, skip]
      rw [ih (by omega) (by omega), fastValidateLen_some lead, List.drop_drop, Nat.add_assoc]

/-! ## Agreement -/

theorem xutf8Validate_eq (string : Bytes) :
    xutf8Validate (string ++ [0]) = some (decide (fastValidateLen string = string.length ∨
      string[fastValidateLen string]? = some 0), fastValidateLen string) := by
  obtain ⟨bound, -⟩ := isUtf8_take string
  rw [xutf8Validate, fastValidate_eq]
  simp only [some_bind]
  rcases Nat.eq_or_lt_of_le bound with whole | before
  · rw [whole, List.getElem?_append_right (Nat.le_refl _), Nat.sub_self]
    simp
  · rw [List.getElem?_append_left before, List.getElem?_eq_getElem before]
    simp [Nat.ne_of_lt before]

/-- All validators stop at the end of the longest well-formed part; the bounded one
succeeds when that is the whole string, the unbounded one also at a NUL. -/
theorem xutf8Validate_exact (string : Bytes) (fits : string.length < 2 ^ 63) :
    ∃ stop, stop ≤ string.length ∧ IsUtf8 (string.take stop) ∧
      (∀ count ≤ string.length, IsUtf8 (string.take count) → count ≤ stop) ∧
      (stop = string.length ↔ IsUtf8 string) ∧
      xutf8ValidateBounded string = some (decide (stop = string.length), stop) ∧
      xutf8Validate (string ++ [0]) = some (decide (stop = string.length ∨ string[stop]? = some 0), stop) ∧
      validatedCharacters string (string.length + 1) 0 = some stop := by
  obtain ⟨bound, valid⟩ := isUtf8_take string
  refine ⟨fastValidateLen string, bound, valid, fun count => le_fastValidateLen, (isUtf8_iff string).symm, ?_,
    xutf8Validate_eq string, ?_⟩
  · rw [xutf8ValidateBounded, fastValidateBounded_eq fits]
    rfl
  · rw [validatedCharacters_eq (Nat.zero_le _) (by omega)]
    simp

/-- A letter, a character of two bytes and one that is cut off. -/
theorem xutf8Validate_truncated :
    ∃ stop, xutf8ValidateBounded [0x61, 0xc3, 0xa9, 0xe2, 0x82] = some (decide (stop = 5), stop) ∧
      IsUtf8 ([0x61, 0xc3, 0xa9, 0xe2, 0x82].take stop) := by
  obtain ⟨stop, -, valid, -, -, bounded, -⟩ := xutf8Validate_exact [0x61, 0xc3, 0xa9, 0xe2, 0x82] (by decide)
  exact ⟨stop, bounded, valid⟩

/-- On a NUL the two entry points disagree. -/
theorem xutf8Validate_nul : ¬∀ string : Bytes, string.length < 2 ^ 63 →
    xutf8Validate (string ++ [0]) = xutf8ValidateBounded string := by
  intro claim
  exact absurd (claim [0] (by decide)) (by decide)

end Xpl.Text
