import Xpl.Text.Exactness
import Xpl.Text.Transcoding

/-! The converters on the encodings of a text. -/

set_option autoImplicit false

namespace Xpl.Text
open Xpl.Library
variable {c position : Nat} {string : Bytes}

/-! ## Characters -/

theorem continuation_bits (n : Nat) : n &&& 0x3f ||| 0x80 = 0x80 + n % 64 := by
  have low : n &&& 0x3f = n % 64 := Nat.and_two_pow_sub_one_eq_mod n 6
  have joined : 1 <<< 7 ||| n % 64 = 1 * 2 ^ 7 + n % 64 := shift_or 7 (by omega)
  rw [low, Nat.or_comm]
  exact joined

theorem lead_bits {n : Nat} (lead width : Nat) (small : n < 2 ^ width) : n ||| lead <<< width = lead * 2 ^ width + n := by
  rw [Nat.or_comm]
  exact shift_or width small

theorem utf8Length_eq (below : c < 0x110000) : utf8Length c = (utf8 c).length := by
  unfold utf8Length utf8
  split
  · rfl
  · split
    · rfl
    · split
      · rfl
      · rw [if_pos (by omega)]
        rfl

theorem xunicharToUtf8_eq (below : c < 0x110000) : xunicharToUtf8 c = utf8 c := by
  have shift : ∀ n width : Nat, n >>> width = n / 2 ^ width := fun n width => Nat.shiftRight_eq_div_pow n width
  unfold xunicharToUtf8
  by_cases one : c < 0x80
  · rw [if_pos one, utf8_one one]
    simp [trailingBytes]
  · rw [if_neg one]
    by_cases two : c < 0x800
    · have lead := lead_bits 6 5 (by omega : c / 64 < 2 ^ 5)
      rw [if_pos two, utf8_two (by omega) two]
      simp only [trailingBytes, continuation_bits, shift]
      rw [show c / 2 ^ 6 ||| 0xc0 = 0xc0 + c / 64 from lead]
      rfl
    · rw [if_neg two]
      by_cases three : c < 0x10000
      · have lead := lead_bits 14 4 (by omega : c / 4096 < 2 ^ 4)
        rw [if_pos three, utf8_three (by omega) three]
        simp only [trailingBytes, continuation_bits, shift, Nat.div_div_eq_div_mul]
        rw [show c / (2 ^ 6 * 2 ^ 6) ||| 0xe0 = 0xe0 + c / 4096 from lead]
        rfl
      · have lead := lead_bits 30 3 (by omega : c / 262144 < 2 ^ 3)
        rw [if_neg three, if_pos (by omega), utf8_four (by omega)]
        simp only [trailingBytes, continuation_bits, shift, Nat.div_div_eq_div_mul]
        rw [show c / (2 ^ 6 * 2 ^ 6 * 2 ^ 6) ||| 0xf0 = 0xf0 + c / 262144 from lead]
        rfl

theorem utf8_head (scalar : IsScalar c) (nonzero : c ≠ 0) :
    ∃ a tail, utf8 c = a :: tail ∧ a ≠ 0 ∧ utf8Skip a = (utf8 c).length := by
  obtain ⟨a, tail, shape, skip⟩ := utf8Skip_utf8 (scalar.lt)
  refine ⟨a, tail, shape, ?_, skip⟩
  rintro rfl
  have lead := leadLength_utf8 scalar nonzero []
  rw [shape] at lead
  cases lead

theorem utf8Get_eq {bytes : Bytes} {index wc : Nat}
    (reads : ∀ k < bytes.length, string[position + (index + k)]? = bytes[k]?)
    (continued : bytes.all isContinuation = true) :
    utf8Get string position bytes.length index wc = some (payload wc bytes) := by
  induction bytes generalizing index wc with
  | nil => rfl
  | cons byte bytes ih =>
    have here : string[position + index]? = some byte := reads 0 (Nat.succ_pos _)
    rw [List.all_cons, Bool.and_eq_true] at continued
    have bits : wc <<< 6 ||| (byte &&& 0x3f).toNat = wc * 64 + byte.toNat % 64 := by
      rw [and_3f]
      exact shift_or 6 (by omega)
    have test : ¬byte &&& 0xc0 ≠ 0x80 := by rw [continuation_test, continued.1]; exact Bool.true_eq_false.mp
    rw [List.length_cons, utf8Get, here]
    simp only [some_bind, if_neg test, bits]
    apply ih _ continued.2
    intro k bound
    have next := reads (k + 1) (by simpa using bound)
    rwa [← Nat.add_assoc index k 1, Nat.add_right_comm] at next

theorem compute_masks : ∀ n < 256, (n &&& 0xe0 = 0xc0 ↔ 0xc0 ≤ n ∧ n < 0xe0) ∧ (n &&& 0xf0 = 0xe0 ↔ 0xe0 ≤ n ∧ n < 0xf0) ∧
    (n &&& 0xf8 = 0xf0 ↔ 0xf0 ≤ n ∧ n < 0xf8) ∧ (n &&& 0xfc = 0xf8 ↔ 0xf8 ≤ n ∧ n < 0xfc) ∧
    (n &&& 0xfe = 0xfc ↔ 0xfc ≤ n ∧ n < 0xfe) := by
  decide +kernel

/-- The masks of `UTF8_COMPUTE` announce what the comparisons do. -/
theorem xutf8GetChar_eq {a : UInt8} (here : string[position]? = some a)
    (large : 0x80 ≤ a.toNat) {length wc minCode : Nat} (announced : leadClass a.toNat = some (length, wc, minCode)) :
    xutf8GetChar string position = utf8Get string position (length - 1) 1 wc := by
  obtain ⟨two, three, four, five, six⟩ := compute_masks a.toNat a.toNat_lt
  obtain ⟨bits5, bits4, bits3, bits2, bits1⟩ := low_bits a.toNat
  rw [xutf8GetChar, here]
  simp only [some_bind, if_neg (Nat.not_lt.mpr large), two, three, four, five, six, bits5,
    bits4, bits3, bits2, bits1]
  unfold leadClass at announced
  split at announced
  case isTrue => cases announced
  case isFalse =>
    split at announced
    case isTrue =>
      cases announced
      rw [if_pos (by omega)]
    case isFalse =>
      rw [if_neg (by omega)]
      split at announced
      case isTrue =>
        cases announced
        rw [if_pos (by omega)]
      case isFalse =>
        rw [if_neg (by omega)]
        split at announced
        case isTrue =>
          cases announced
          rw [if_pos (by omega)]
        case isFalse =>
          rw [if_neg (by omega)]
          split at announced
          case isTrue =>
            cases announced
            rw [if_pos (by omega)]
          case isFalse =>
            rw [if_neg (by omega)]
            split at announced
            case isTrue =>
              cases announced
              rw [if_pos (by omega)]
            case isFalse => cases announced

theorem xutf8GetChar_utf8 (below : c < 0x110000)
    (reads : ∀ k < (utf8 c).length, string[position + k]? = (utf8 c)[k]?) : xutf8GetChar string position = some c := by
  by_cases small : c < 0x80
  · have value : (UInt8.ofNat c).toNat = c := toNat_byte (by omega)
    rw [utf8_one small] at reads
    have here : string[position]? = some (UInt8.ofNat c) := reads 0 (by simp)
    have low : c &&& 0x7f = c := by
      have bits : c &&& 0x7f = c % 2 ^ 7 := Nat.and_two_pow_sub_one_eq_mod c 7
      omega
    rw [xutf8GetChar, here]
    simp only [some_bind, value, if_pos small, low]
    rfl
  · obtain ⟨a, tail, wc, minCode, shape, large, announced, continued, value, -⟩ := utf8_lead (by omega) below
    rw [shape] at reads
    have here : string[position]? = some a := reads 0 (by simp)
    rw [xutf8GetChar_eq here large announced, Nat.add_sub_cancel, utf8Get_eq _ continued, value]
    intro k bound
    rw [Nat.add_comm 1 k]
    exact reads (k + 1) (by simpa using bound)

/-! ## Counters -/

theorem wrapInt_add (k : Int) (more : Nat) : wrapInt (wrapInt k + more) = wrapInt (k + more) := Int.bmod_add_bmod

theorem wrapInt_zero : wrapInt 0 = 0 := Int.zero_bmod

theorem wrapInt_cases (n : Int) : wrapInt n = n % 2 ^ 32 ∧ n % 2 ^ 32 < 2 ^ 31 ∨
    wrapInt n = n % 2 ^ 32 - 2 ^ 32 ∧ 2 ^ 31 ≤ n % 2 ^ 32 := by
  unfold wrapInt
  rw [Int.bmod_def]
  split
  · omega
  · omega

theorem wrapInt_of_lt {n : Int} (above : 0 ≤ n) (below : n < 2 ^ 31) : wrapInt n = n := by
  have cases := wrapInt_cases n
  omega

/-- What the characters of a text add up to. -/
def total (size : Nat → Nat) (text : List Nat) : Nat := (text.map size).sum

theorem total_cons (size : Nat → Nat) (c : Nat) (text : List Nat) : total size (c :: text) = size c + total size text := rfl

theorem total_length {α : Type} (emit : Nat → List α) (text : List Nat) :
    total (fun c => (emit c).length) text = (text.flatMap emit).length := by
  rw [total, List.length_flatMap]

/-! ## From UTF-8 -/

/-- A length that ends an input here, or a terminator that does. -/
def EndsAt {α : Type} [OfNat α 0] (len : Option Nat) (size : Nat) (after : List α) : Prop :=
  len = some size ∨ len = none ∧ after.head? = some 0

theorem reads_append {α : Type} (before middle after : List α) :
    ∀ k < middle.length, (before ++ (middle ++ after))[before.length + k]? = middle[k]? := by
  intro k bound
  rw [List.getElem?_append_right (Nat.le_add_right _ _), Nat.add_sub_cancel_left, List.getElem?_append_left bound]

theorem utf8Scan_text {units : Nat → Except ConvertError Nat} {size : Nat → Nat} {text : List Nat} (valid : IsText text)
    (sizes : ∀ c ∈ text, units c = .ok (size c)) {len : Option Nat} {before after : Bytes} (wantsRead : Bool)
    (ends : EndsAt len (before.length + (text.flatMap utf8).length) after) (k : Int) {fuel : Nat}
    (enough : (text.flatMap utf8).length < fuel) :
    utf8Scan (before ++ (text.flatMap utf8 ++ after)) len units wantsRead fuel before.length (wrapInt k) =
      some (.ok (wrapInt (k + total size text)), before.length + (text.flatMap utf8).length) := by
  -- over the characters; the count wraps with the 32-bit counter of the source
  induction text generalizing before k fuel with
  | nil =>
    obtain ⟨fuel, rfl⟩ : ∃ n, fuel = n + 1 := ⟨fuel - 1, by omega⟩
    rw [utf8Scan]
    rcases ends with rfl | ⟨rfl, zero⟩
    · simp [total]
    · obtain ⟨rest, rfl⟩ : ∃ rest, after = 0 :: rest := by
        cases after with
        | nil => cases zero
        | cons first rest =>
          cases zero
          exact ⟨rest, rfl⟩
      simp [total]
  | cons c text ih =>
    obtain ⟨scalar, nonzero⟩ := valid.head
    have below := scalar.lt
    obtain ⟨a, tail, shape, positive, skip⟩ := utf8_head scalar nonzero
    have some_byte := List.length_pos_iff.mpr (utf8_ne_nil c)
    obtain ⟨fuel, rfl⟩ : ∃ n, fuel = n + 1 := ⟨fuel - 1, by omega⟩
    rw [List.flatMap_cons, List.length_append] at ends enough
    have reads := reads_append before (utf8 c) (text.flatMap utf8 ++ after)
    have here : (before ++ (utf8 c ++ (text.flatMap utf8 ++ after)))[before.length]? = some a := by
      have read := reads 0 some_byte
      rw [Nat.add_zero] at read
      rw [read, shape]
      rfl
    have going : ¬(len.any (· ≤ before.length)) = true := by
      rcases ends with rfl | ⟨rfl, -⟩
      · simp only [Option.any_some, decide_eq_true_eq]
        omega
      · simp
    have room : (utf8 c).length ≤ len.elim 6 (· - before.length) := by
      rcases ends with rfl | ⟨rfl, -⟩
      · simp only [Option.elim_some]
        omega
      · rw [← utf8Length_eq below]
        unfold utf8Length
        simp only [Option.elim_none]
        split_ifs <;> omega
    have decoded := @xutf8GetCharExtended_utf8 _ _ _ below (some (len.elim 6 (· - before.length))) reads (by
      rintro _ ⟨⟩
      exact room)
    rw [List.flatMap_cons, List.append_assoc, utf8Scan, if_neg going, here]
    simp only [some_bind, if_neg positive, decoded, no_error_bit (by omega : c < 2 ^ 31), ne_eq,
      not_true_eq_false, if_false, sizes c List.mem_cons_self, skip, wrapInt_add]
    have next := @ih valid.tail (fun other member => sizes other (List.mem_cons_of_mem _ member)) (before ++ utf8 c)
      (by rw [List.length_append, Nat.add_assoc]; exact ends) (k + size c) fuel (by omega)
    rw [List.append_assoc, List.length_append] at next
    rw [next, total_cons, List.length_append]
    simp only [Nat.cast_add, Nat.add_assoc, Int.add_assoc]

theorem utf8Write_text {emit : Nat → List Nat} {text : List Nat} (valid : IsText text) (some_unit : ∀ c, emit c ≠ [])
    {before after : Bytes} {count : Int} {capacity index : Nat} (counted : count = index + (text.flatMap emit).length)
    (room : index + (text.flatMap emit).length < capacity) {fuel : Nat} (enough : (text.flatMap utf8).length < fuel) :
    utf8Write (before ++ (text.flatMap utf8 ++ after)) emit count capacity fuel before.length index =
      some (text.flatMap emit ++ [0], before.length + (text.flatMap utf8).length, index + (text.flatMap emit).length) := by
  induction text generalizing before index fuel with
  | nil =>
    obtain ⟨fuel, rfl⟩ : ∃ n, fuel = n + 1 := ⟨fuel - 1, by omega⟩
    simp only [List.flatMap_nil, List.length_nil, Nat.cast_zero, Int.add_zero, Nat.add_zero] at counted room ⊢
    rw [utf8Write, if_neg (by omega), if_pos room]
    rfl
  | cons c text ih =>
    obtain ⟨scalar, nonzero⟩ := valid.head
    obtain ⟨a, tail, shape, -, skip⟩ := utf8_head scalar nonzero
    have some_byte := List.length_pos_iff.mpr (utf8_ne_nil c)
    have some_emitted := List.length_pos_iff.mpr (some_unit c)
    obtain ⟨fuel, rfl⟩ : ∃ n, fuel = n + 1 := ⟨fuel - 1, by omega⟩
    rw [List.flatMap_cons, List.length_append] at counted room enough
    have reads := reads_append before (utf8 c) (text.flatMap utf8 ++ after)
    have here : (before ++ (utf8 c ++ (text.flatMap utf8 ++ after)))[before.length]? = some a := by
      have read := reads 0 some_byte
      rw [Nat.add_zero] at read
      rw [read, shape]
      rfl
    rw [List.flatMap_cons, List.append_assoc, utf8Write, if_pos (by omega), xutf8GetChar_utf8 scalar.lt reads, here]
    have next := @ih valid.tail (before ++ utf8 c) (index + (emit c).length) (by omega) (by omega) fuel (by omega)
    rw [List.append_assoc, List.length_append] at next
    simp only [some_bind, if_pos (by omega : index + (emit c).length ≤ capacity), skip, next]
    simp [List.flatMap_cons, Nat.add_assoc]

/-- The system serves every request of a moderate size and none of an absurd one. -/
structure Allocator (alloc : Nat → Bool) : Prop where
  moderate : ∀ size, 0 < size → size ≤ 2 ^ 33 → alloc size = true
  absurd : ∀ size, 2 ^ 63 ≤ size → alloc size = false

theorem tryMallocN_moderate {alloc : Nat → Bool} (allocator : Allocator alloc) {count unitBytes : Nat}
    (few : count < 2 ^ 31) (units : 0 < unitBytes ∧ unitBytes ≤ 4) (some_block : 0 < count) :
    tryMallocN alloc count unitBytes = true := by
  have value : ((count : Int) % 2 ^ 64).toNat = count := by omega
  have positive : 0 < count * unitBytes := Nat.mul_pos some_block units.1
  have bound : count * unitBytes ≤ 2 ^ 33 := by
    have product := Nat.mul_le_mul (Nat.le_of_lt few) units.2
    omega
  simp only [tryMallocN, value, Bool.and_eq_true, decide_eq_true_eq]
  exact ⟨⟨by omega, by omega⟩, allocator.moderate _ positive bound⟩

theorem convertUtf8_ok {alloc : Nat → Bool} {len : Option Nat} {units : Nat → Except ConvertError Nat}
    {emit : Nat → List Nat} {unitBytes : Nat} {wantsRead : Bool} {count : Int} {stop sum : Nat} {result : List Nat}
    (scanned : utf8Scan string len units wantsRead (string.length + 1) 0 0 = some (.ok count, position))
    (served : tryMallocN alloc (wrapInt (count + 1)) unitBytes = true)
    (wrote : utf8Write string emit count (wrapInt (count + 1)).toNat (string.length + 1) 0 0 = some (result, stop, sum)) :
    convertUtf8 alloc string len units emit unitBytes wantsRead = some (.written result stop count.toNat) := by
  rw [convertUtf8, scanned]
  simp only [some_bind, served, if_true, wrote]
  rfl

theorem convertUtf8_text {alloc : Nat → Bool} (allocator : Allocator alloc) {units : Nat → Except ConvertError Nat}
    {emit : Nat → List Nat} {text : List Nat} (valid : IsText text)
    (sizes : ∀ c ∈ text, units c = .ok (emit c).length) (some_unit : ∀ c, emit c ≠ []) {unitBytes : Nat}
    (unitSize : 0 < unitBytes ∧ unitBytes ≤ 4) {len : Option Nat} {after : Bytes}
    (ends : EndsAt len (text.flatMap utf8).length after) (fits : (text.flatMap emit).length + 1 < 2 ^ 31)
    (wantsRead : Bool) :
    convertUtf8 alloc (text.flatMap utf8 ++ after) len units emit unitBytes wantsRead =
      some (.written (text.flatMap emit ++ [0]) (text.flatMap utf8).length (text.flatMap emit).length) := by
  have scanned := @utf8Scan_text units (fun c => (emit c).length) text valid sizes len [] after wantsRead (by simpa using ends)
    0 ((text.flatMap utf8 ++ after).length + 1) (by rw [List.length_append]; omega)
  rw [total_length, List.nil_append, List.length_nil, Nat.zero_add, Int.zero_add,
    wrapInt_of_lt (Int.natCast_nonneg _) (by omega)] at scanned
  have wrote := @utf8Write_text emit text valid some_unit [] after (text.flatMap emit).length
    ((text.flatMap emit).length + 1) 0 (by simp) (by omega) ((text.flatMap utf8 ++ after).length + 1)
    (by rw [List.length_append]; omega)
  rw [List.nil_append, List.length_nil, Nat.zero_add, Nat.zero_add] at wrote
  have block : wrapInt ((text.flatMap emit).length + 1) = ((text.flatMap emit).length + 1 : Nat) := by
    rw [wrapInt_of_lt (by omega) (by omega)]
    rfl
  have served := @tryMallocN_moderate alloc allocator ((text.flatMap emit).length + 1) unitBytes fits unitSize (by omega)
  rw [← block] at served
  rw [← Int.toNat_natCast ((text.flatMap emit).length + 1), ← block] at wrote
  exact convertUtf8_ok scanned served wrote

/-! ## From UTF-16 -/

theorem surrogateValue_eq (above : 0x10000 ≤ c) (below : c < 0x110000) :
    surrogateValue (0xd800 + (c - 0x10000) / 0x400) (0xdc00 + (c - 0x10000) % 0x400) = c := by
  unfold surrogateValue
  omega

theorem EndsAt.next {len : Option Nat} {size : Nat} {after : List Nat} (ends : EndsAt len (size + 1) after) :
    len ≠ some 0 ∧ EndsAt (len.map (· - 1)) size after := by
  rcases ends with rfl | ⟨rfl, zero⟩
  · exact ⟨by simp, Or.inl (by simp)⟩
  · exact ⟨by simp, Or.inr ⟨rfl, zero⟩⟩

theorem utf16Scan_text {size : Nat → Nat} {text : List Nat} (valid : IsText text) {len : Option Nat} {after : List Nat}
    (ends : EndsAt len (text.flatMap utf16).length after) (k : Int) (position : Nat) :
    utf16Scan size (text.flatMap utf16 ++ after) len position 0 (wrapInt k) =
      some (.ok (wrapInt (k + total size text), 0), position + (text.flatMap utf16).length) := by
  induction text generalizing len k position with
  | nil =>
    have sum : k + (total size [] : Nat) = k := by simp [total]
    rw [List.flatMap_nil, List.nil_append, sum]
    rcases ends with rfl | ⟨rfl, zero⟩
    · cases after with
      | nil => rfl
      | cons first after => exact if_pos (Or.inl rfl)
    · cases after with
      | nil => cases zero
      | cons first after =>
        cases zero
        exact if_pos (Or.inr rfl)
  | cons c text ih =>
    obtain ⟨scalar, nonzero⟩ := valid.head
    have below := scalar.lt
    unfold IsScalar at scalar
    rw [List.flatMap_cons, List.append_assoc, List.length_append]
    rw [List.flatMap_cons, List.length_append] at ends
    by_cases one : c < 0x10000
    · have shape : utf16 c = [c] := if_pos one
      rw [shape, List.length_singleton, Nat.add_comm 1] at ends
      obtain ⟨going, next⟩ := ends.next
      rw [shape, List.singleton_append, utf16Scan, if_neg (by simp [going, nonzero]), if_neg (by omega),
        if_neg (not_not.mpr rfl), if_neg (by omega), wrapInt_add, ih valid.tail next, total_cons, List.length_singleton]
      simp only [Nat.cast_add, Nat.add_assoc, Int.add_assoc]
    · have shape : utf16 c = [0xd800 + (c - 0x10000) / 0x400, 0xdc00 + (c - 0x10000) % 0x400] := if_neg one
      rw [shape, List.length_cons, List.length_singleton, Nat.add_comm 2] at ends
      obtain ⟨going, middle⟩ := ends.next
      obtain ⟨onward, next⟩ := middle.next
      have high : 0xd800 + (c - 0x10000) / 0x400 ≠ 0 := by omega
      rw [shape, List.cons_append, List.singleton_append, utf16Scan, if_neg (by simp [going]), if_neg (by omega),
        if_neg (not_not.mpr rfl), if_pos (by omega), utf16Scan, if_neg (by simp [onward]), if_pos (by omega),
        if_pos high, surrogateValue_eq (by omega) below, wrapInt_add, ih valid.tail next, total_cons]
      simp only [Nat.cast_add, Nat.add_assoc, Int.add_assoc, List.length_cons, List.length_nil, Nat.zero_add]

theorem utf16Write_text {α : Type} {size : Nat → Nat} {emit : Nat → List α} (some_size : ∀ c, 0 < size c) {text : List Nat}
    (valid : IsText text) {after : List Nat} {count : Int} {capacity out : Nat}
    (counted : count = (out + total size text : Nat)) (room : out + total size text ≤ capacity) (position : Nat) :
    utf16Write size emit count capacity (text.flatMap utf16 ++ after) position 0 out =
      some (text.flatMap emit, position + (text.flatMap utf16).length, out + total size text) := by
  induction text generalizing out position with
  | nil =>
    have sum : total size [] = 0 := rfl
    cases after with
    | nil => exact if_neg (by omega)
    | cons first after => exact if_neg (by omega)
  | cons c text ih =>
    obtain ⟨scalar, nonzero⟩ := valid.head
    have below := scalar.lt
    have positive := some_size c
    unfold IsScalar at scalar
    rw [total_cons] at counted room
    rw [List.flatMap_cons, List.append_assoc, List.length_append]
    have rest : ∀ position, utf16Write size emit count capacity (text.flatMap utf16 ++ after) position 0 (out + size c) =
        some (text.flatMap emit, position + (text.flatMap utf16).length, out + size c + total size text) :=
      fun position => ih valid.tail (by omega) (by omega) position
    by_cases one : c < 0x10000
    · have shape : utf16 c = [c] := if_pos one
      rw [shape, List.singleton_append, utf16Write, if_pos (by omega), if_neg (by omega)]
      simp only [if_neg (by omega : ¬(0xdc00 ≤ c ∧ c < 0xe000)), if_pos (by omega : out + size c ≤ capacity), rest,
        some_bind]
      simp [List.flatMap_cons, total_cons, Nat.add_assoc]
    · have shape : utf16 c = [0xd800 + (c - 0x10000) / 0x400, 0xdc00 + (c - 0x10000) % 0x400] := if_neg one
      have low : 0xdc00 ≤ 0xdc00 + (c - 0x10000) % 0x400 ∧ 0xdc00 + (c - 0x10000) % 0x400 < 0xe000 := by omega
      rw [shape, List.cons_append, List.singleton_append, utf16Write, if_pos (by omega), if_pos (by omega), utf16Write,
        if_pos (by omega), if_neg (by omega)]
      simp only [if_pos low, surrogateValue_eq (by omega : 0x10000 ≤ c) below,
        if_pos (by omega : out + size c ≤ capacity), rest, some_bind]
      simp [List.flatMap_cons, total_cons, Nat.add_assoc]

section FromUtf16
variable {alloc : Nat → Bool} {α : Type} {size : Nat → Nat} {emit : Nat → List α} {zero : α} {unitBytes : Nat}

theorem convertUtf16_ok {units : List Nat} {len : Option Nat} {count : Int} {position : Nat} (wantsRead : Bool)
    (scanned : utf16Scan size units len 0 0 0 = some (.ok (count, 0), position)) :
    convertUtf16 alloc size emit zero unitBytes units len wantsRead =
      if tryMallocN alloc (wrapInt (count + unitBytes)) 1 then
        (utf16Write size emit count (wrapInt (count + unitBytes)).toNat units 0 0 0).bind fun wrote =>
          if wrote.2.2 + unitBytes ≤ (wrapInt (count + unitBytes)).toNat then
            some (.written (wrote.1 ++ [zero]) wrote.2.1 (wrote.2.2 / unitBytes))
          else none
      else some (.failed outOfMemory position) := by
  rw [convertUtf16, scanned]
  rfl

theorem convertUtf16_text (allocator : Allocator alloc) {text : List Nat} (valid : IsText text)
    (some_size : ∀ c, 0 < size c) (unitSize : 0 < unitBytes) {len : Option Nat} {after : List Nat}
    (ends : EndsAt len (text.flatMap utf16).length after) (fits : total size text + unitBytes < 2 ^ 31)
    (wantsRead : Bool) :
    convertUtf16 alloc size emit zero unitBytes (text.flatMap utf16 ++ after) len wantsRead =
      some (.written (text.flatMap emit ++ [zero]) (text.flatMap utf16).length (total size text / unitBytes)) := by
  have scanned := @utf16Scan_text size text valid len after ends 0 0
  rw [wrapInt_zero, Int.zero_add, wrapInt_of_lt (Int.natCast_nonneg _) (by omega)] at scanned
  have block : wrapInt ((total size text : Nat) + (unitBytes : Nat)) = (total size text + unitBytes : Nat) := by
    rw [wrapInt_of_lt (by omega) (by omega)]
    exact (Nat.cast_add _ _).symm
  have served := @tryMallocN_moderate alloc allocator (total size text + unitBytes) 1 fits ⟨by decide, by decide⟩ (by omega)
  have wrote := @utf16Write_text α size emit some_size text valid after (total size text : Nat) (total size text + unitBytes) 0
    (by simp) (by omega) 0
  rw [Nat.zero_add, Nat.zero_add] at wrote
  rw [convertUtf16_ok wantsRead scanned, block, if_pos served, Int.toNat_natCast, wrote, Option.bind_some,
    if_pos (Nat.le_refl _)]

theorem convertUtf16_overflow {text : List Nat} (valid : IsText text)
    (unitSize : 0 < unitBytes ∧ unitBytes ≤ 4) {len : Option Nat} {after : List Nat}
    (ends : EndsAt len (text.flatMap utf16).length after) {wantsRead : Bool} {result : List α} {itemsRead : Nat}
    (converted : convertUtf16 alloc size emit zero unitBytes (text.flatMap utf16 ++ after) len wantsRead =
      some (.written result itemsRead (total size text / unitBytes))) :
    total size text + unitBytes < 2 ^ 31 := by
  have scanned := @utf16Scan_text size text valid len after ends 0 0
  rw [wrapInt_zero, Int.zero_add] at scanned
  rw [convertUtf16_ok wantsRead scanned, wrapInt_add] at converted
  split at converted
  case isFalse => cases converted
  case isTrue served =>
    obtain ⟨⟨written, stop, sum⟩, -, converted⟩ := Option.bind_eq_some_iff.mp converted
    simp only at converted
    split at converted
    case isFalse => cases converted
    case isTrue room =>
      simp only [Option.some.injEq, Conversion.written.injEq] at converted
      obtain ⟨-, -, quotient⟩ := converted
      -- A block was allocated, so the wrapped size is positive.
      have wrapped := wrapInt_cases ((total size text : Nat) + (unitBytes : Nat))
      have below : total size text / unitBytes * unitBytes + unitBytes ≤
          (wrapInt ((total size text : Nat) + (unitBytes : Nat))).toNat := by
        rw [← quotient]
        have exact_part := Nat.div_mul_le_self sum unitBytes
        omega
      have remainder := Nat.div_add_mod (total size text) unitBytes
      have small := Nat.mod_lt (total size text) unitSize.1
      rw [Nat.mul_comm] at remainder
      omega

end FromUtf16

/-! ## From UCS-4 -/

section FromUcs4
variable {α : Type}

theorem unitAt_append (before : List Nat) (c : Nat) (after : List Nat) :
    unitAt (before ++ c :: after) before.length = some c := by
  rw [unitAt, if_neg (by omega), Int.toNat_natCast, List.getElem?_append_right (Nat.le_refl _), Nat.sub_self]
  rfl

theorem ucs4Scan_text {size : Nat → Except ConvertError Nat} {amount : Nat → Nat} {text : List Nat} (valid : IsText text)
    (sizes : ∀ c ∈ text, size c = .ok (amount c)) {len : Option Nat} {before after : List Nat}
    (ends : EndsAt len (before.length + text.length) after) (small : before.length + text.length < 2 ^ 31) (k : Int)
    {fuel : Nat} (enough : text.length < fuel) :
    ucs4Scan (before ++ (text ++ after)) size len fuel before.length (wrapInt k) =
      some (.ok (wrapInt (k + total amount text)), ((before.length + text.length : Nat) : Int)) := by
  induction text generalizing before k fuel with
  | nil =>
    obtain ⟨fuel, rfl⟩ : ∃ n, fuel = n + 1 := ⟨fuel - 1, by omega⟩
    have sum : k + (total amount [] : Nat) = k := by simp [total]
    rw [ucs4Scan, sum]
    rcases ends with rfl | ⟨rfl, zero⟩
    · exact if_pos (by simp)
    · cases after with
      | nil => cases zero
      | cons first after =>
        cases zero
        rw [List.nil_append, unitAt_append]
        rfl
  | cons c text ih =>
    obtain ⟨-, nonzero⟩ := valid.head
    obtain ⟨fuel, rfl⟩ : ∃ n, fuel = n + 1 := ⟨fuel - 1, by omega⟩
    rw [List.length_cons] at ends small enough
    have going : ¬(len.any fun (length : Nat) => decide ((length : Int) ≤ before.length)) = true := by
      rcases ends with rfl | ⟨rfl, -⟩
      · simp only [Option.any_some, decide_eq_true_eq]
        omega
      · simp
    have next := @ih valid.tail (fun other member => sizes other (List.mem_cons_of_mem _ member)) (before ++ [c])
      (by rw [List.length_append, List.length_singleton, Nat.add_assoc, Nat.add_comm 1]; exact ends)
      (by rw [List.length_append, List.length_singleton]; omega) (k + amount c) fuel (by omega)
    rw [List.append_assoc, List.singleton_append, List.length_append, List.length_singleton] at next
    have index : wrapInt (before.length + 1) = (before.length + 1 : Nat) := wrapInt_of_lt (by omega) (by omega)
    rw [List.cons_append, ucs4Scan, if_neg going, unitAt_append]
    simp only [some_bind, if_neg nonzero, sizes c List.mem_cons_self, wrapInt_add, index]
    rw [next, total_cons, List.length_cons]
    simp only [Nat.cast_add, Int.add_assoc, Nat.add_assoc, Nat.add_comm 1]

theorem ucs4Write_text {emit : Nat → List α} {zero : α} {text : List Nat} (some_unit : ∀ c, emit c ≠ [])
    {before after : List Nat} {count : Int} {capacity out : Nat} (counted : count = (out + (text.flatMap emit).length : Nat))
    (room : out + (text.flatMap emit).length < capacity) (small : before.length + text.length < 2 ^ 31) {fuel : Nat}
    (enough : text.length < fuel) :
    ucs4Write (before ++ (text ++ after)) emit zero count capacity fuel before.length out =
      some (text.flatMap emit ++ [zero], ((before.length + text.length : Nat) : Int), out + (text.flatMap emit).length) := by
  induction text generalizing before out fuel with
  | nil =>
    obtain ⟨fuel, rfl⟩ : ∃ n, fuel = n + 1 := ⟨fuel - 1, by omega⟩
    rw [List.flatMap_nil, List.length_nil, Nat.add_zero] at counted room
    rw [ucs4Write, if_neg (by omega), if_pos room]
    rfl
  | cons c text ih =>
    have some_emitted := List.length_pos_iff.mpr (some_unit c)
    obtain ⟨fuel, rfl⟩ : ∃ n, fuel = n + 1 := ⟨fuel - 1, by omega⟩
    rw [List.flatMap_cons, List.length_append] at counted room
    rw [List.length_cons] at small enough
    have next := @ih (before ++ [c]) (out + (emit c).length) (by omega) (by omega)
      (by rw [List.length_append, List.length_singleton]; omega) fuel (by omega)
    rw [List.append_assoc, List.singleton_append, List.length_append, List.length_singleton] at next
    have index : wrapInt (before.length + 1) = (before.length + 1 : Nat) := wrapInt_of_lt (by omega) (by omega)
    rw [List.cons_append, ucs4Write, if_pos (by omega), unitAt_append]
    simp only [some_bind, if_pos (by omega : out + (emit c).length ≤ capacity), index, next]
    simp [List.flatMap_cons, Nat.add_assoc, Nat.add_comm 1]

theorem convertUcs4_ok {alloc : Nat → Bool} {units : List Nat} {size : Nat → Except ConvertError Nat} {emit : Nat → List α}
    {zero : α} {unitBytes : Nat} {len : Option Nat} {count index stop : Int} {sum : Nat} {result : List α}
    (scanned : ucs4Scan units size len (units.length + 1) 0 0 = some (.ok count, index))
    (served : tryMallocN alloc (wrapInt (count + 1)) unitBytes = true)
    (wrote : ucs4Write units emit zero count (wrapInt (count + 1)).toNat (units.length + 1) 0 0 =
      some (result, stop, sum)) :
    convertUcs4 alloc units size emit zero unitBytes len = some (.written result stop.toNat sum) := by
  rw [convertUcs4, scanned]
  simp only [some_bind, served, if_true, wrote]
  rfl

theorem convertUcs4_text {alloc : Nat → Bool} (allocator : Allocator alloc) {size : Nat → Except ConvertError Nat}
    {emit : Nat → List α} {zero : α} {text : List Nat} (valid : IsText text)
    (sizes : ∀ c ∈ text, size c = .ok (emit c).length) (some_unit : ∀ c, emit c ≠ []) {unitBytes : Nat}
    (unitSize : 0 < unitBytes ∧ unitBytes ≤ 4) {len : Option Nat} {after : List Nat} (ends : EndsAt len text.length after)
    (small : text.length < 2 ^ 31) (fits : (text.flatMap emit).length + 1 < 2 ^ 31) :
    convertUcs4 alloc (text ++ after) size emit zero unitBytes len =
      some (.written (text.flatMap emit ++ [zero]) text.length (text.flatMap emit).length) := by
  have scanned := @ucs4Scan_text size (fun c => (emit c).length) text valid sizes len [] after (by simpa using ends)
    (by simpa using small) 0 ((text ++ after).length + 1) (by rw [List.length_append]; omega)
  rw [total_length, List.nil_append, List.length_nil, Nat.zero_add, Int.zero_add,
    wrapInt_of_lt (Int.natCast_nonneg _) (by omega), wrapInt_zero] at scanned
  have block : wrapInt ((text.flatMap emit).length + 1) = ((text.flatMap emit).length + 1 : Nat) :=
    wrapInt_of_lt (by omega) (by omega)
  have served := @tryMallocN_moderate alloc allocator ((text.flatMap emit).length + 1) unitBytes fits unitSize (by omega)
  have wrote := @ucs4Write_text α emit zero text some_unit [] after (text.flatMap emit).length
    ((text.flatMap emit).length + 1) 0 (by simp) (by omega) (by simpa using small) ((text ++ after).length + 1)
    (by rw [List.length_append]; omega)
  rw [List.nil_append, List.length_nil, Nat.zero_add, Nat.zero_add,
    ← Int.toNat_natCast ((text.flatMap emit).length + 1), ← block] at wrote
  rw [← block] at served
  exact convertUcs4_ok scanned served wrote

end FromUcs4

/-! ## All conversions of a text -/

/-- Every converter turns one encoding of a text into another, and reports the exact
lengths. The input ends at the given length or at its terminator. -/
structure Transcodes (alloc : Nat → Bool) (text : List Nat) : Prop where
  fromUtf8 : ∀ (len : Option Nat) (after : Bytes) (wantsRead : Bool), EndsAt len (text.flatMap utf8).length after →
    xutf8ToUcs4 alloc (text.flatMap utf8 ++ after) len wantsRead =
        some (.written (text ++ [0]) (text.flatMap utf8).length text.length) ∧
      xutf8ToUtf16 alloc (text.flatMap utf8 ++ after) len wantsRead =
        some (.written (text.flatMap utf16 ++ [0]) (text.flatMap utf8).length (text.flatMap utf16).length)
  fromUtf16 : ∀ (len : Option Nat) (after : List Nat) (wantsRead : Bool), EndsAt len (text.flatMap utf16).length after →
    xutf16ToUtf8 alloc (text.flatMap utf16 ++ after) len wantsRead =
        some (.written (text.flatMap utf8 ++ [0]) (text.flatMap utf16).length (text.flatMap utf8).length) ∧
      xutf16ToUcs4 alloc (text.flatMap utf16 ++ after) len wantsRead =
        some (.written (text ++ [0]) (text.flatMap utf16).length text.length)
  fromUcs4 : ∀ (len : Option Nat) (after : List Nat), EndsAt len text.length after →
    gUcs4ToUtf8 alloc (text ++ after) len =
        some (.written (text.flatMap utf8 ++ [0]) text.length (text.flatMap utf8).length) ∧
      gUcs4ToUtf16 alloc (text ++ after) len =
        some (.written (text.flatMap utf16 ++ [0]) text.length (text.flatMap utf16).length)

/-- The output in bytes, its terminator included, can be counted by an `xint_t`: for
UTF-8, and for four bytes a character. -/
def Countable (text : List Nat) : Prop :=
  (text.flatMap utf8).length + 1 < 2 ^ 31 ∧ 4 * text.length + 4 < 2 ^ 31

theorem writeUtf16_eq (below : c < 0x110000) : writeUtf16 c = utf16 c := by
  unfold writeUtf16 utf16
  split
  · rfl
  · rw [Nat.mod_eq_of_lt (by omega), Nat.mod_eq_of_lt (by omega), Nat.add_comm, Nat.add_comm 0xdc00]

theorem utf16Units_eq (scalar : IsScalar c) : utf16Units c = .ok (utf16 c).length := by
  unfold IsScalar at scalar
  unfold utf16Units utf16
  by_cases one : c < 0xd800
  · rw [if_pos one, if_pos (by omega)]
    rfl
  · rw [if_neg one, if_neg (by omega)]
    by_cases unit : c < 0x10000
    · rw [if_pos unit, if_pos unit]
      rfl
    · rw [if_neg unit, if_neg unit, if_pos (by omega)]
      rfl

theorem length_utf16_le (below : c < 0x110000) : (utf16 c).length ≤ (utf8 c).length := by
  rw [← utf8Length_eq below]
  unfold utf16 utf8Length
  split_ifs <;> simp only [List.length_cons, List.length_nil] <;> omega

section Text
variable {text : List Nat}

theorem flatMap_congr {α : Type} (valid : IsText text) {emit other : Nat → List α}
    (same : ∀ c, c < 0x110000 → emit c = other c) : text.flatMap emit = text.flatMap other :=
  List.flatMap_congr fun c member => same c (valid c member).1.lt

theorem length_flatMap_utf16 (valid : IsText text) : (text.flatMap utf16).length ≤ (text.flatMap utf8).length := by
  induction text with
  | nil => exact Nat.le_refl _
  | cons c text ih =>
    have first := length_utf16_le valid.head.1.lt
    have rest := ih valid.tail
    simp only [List.flatMap_cons, List.length_append]
    omega

theorem total_utf8Length (valid : IsText text) : total utf8Length text = (text.flatMap utf8).length := by
  rw [total, List.length_flatMap]
  exact congrArg List.sum (List.map_congr_left fun c member => utf8Length_eq (valid c member).1.lt)

theorem total_four (text : List Nat) : total (fun _ => 4) text = 4 * text.length := by
  simp [total, Nat.mul_comm]

theorem utf8Length_pos (c : Nat) : 0 < utf8Length c := by
  unfold utf8Length
  split_ifs <;> decide

theorem writeUtf16_ne_nil (c : Nat) : writeUtf16 c ≠ [] := by
  unfold writeUtf16
  split <;> simp

theorem transcodes_of_countable {alloc : Nat → Bool} (allocator : Allocator alloc) (valid : IsText text)
    (countable : Countable text) : Transcodes alloc text := by
  obtain ⟨bytes, words⟩ := countable
  have units16 := length_flatMap_utf16 valid
  have same16 : text.flatMap writeUtf16 = text.flatMap utf16 := flatMap_congr valid fun c below => writeUtf16_eq below
  have same8 : text.flatMap xunicharToUtf8 = text.flatMap utf8 := flatMap_congr valid fun c below => xunicharToUtf8_eq below
  have single : text.flatMap (fun c => [c]) = text := List.flatMap_singleton' text
  have sizes16 : ∀ c ∈ text, utf16Units c = .ok (writeUtf16 c).length := by
    intro c member
    rw [utf16Units_eq (valid c member).1, writeUtf16_eq (valid c member).1.lt]
  refine ⟨fun len after wantsRead ends => ⟨?_, ?_⟩, fun len after wantsRead ends => ⟨?_, ?_⟩, fun len after ends => ⟨?_, ?_⟩⟩
  · have converted := @convertUtf8_text alloc allocator (fun _ => .ok 1) (fun wc => [wc]) text valid (fun c _ => rfl)
      (fun c => by simp) 4 ⟨by decide, by decide⟩ len after ends (by rw [single]; omega) wantsRead
    rwa [single] at converted
  · have converted := @convertUtf8_text alloc allocator utf16Units writeUtf16 text valid sizes16 writeUtf16_ne_nil 2
      ⟨by decide, by decide⟩ len after ends (by rw [same16]; omega) wantsRead
    rwa [same16] at converted
  · have converted := @convertUtf16_text alloc _ utf8Length xunicharToUtf8 0 1 allocator text valid utf8Length_pos (by decide)
      len after ends (by rw [total_utf8Length valid]; exact bytes) wantsRead
    rwa [same8, total_utf8Length valid, Nat.div_one] at converted
  · have converted := @convertUtf16_text alloc _ (fun _ => 4) (fun wc => [wc]) 0 4 allocator text valid (fun _ => by decide)
      (by decide) len after ends (by rw [total_four]; exact words) wantsRead
    rwa [single, total_four, Nat.mul_div_cancel_left _ (by decide)] at converted
  · have sizes8 : ∀ c ∈ text, utf8Size c = .ok (xunicharToUtf8 c).length := by
      intro c member
      have below := (valid c member).1.lt
      rw [utf8Size, if_neg (by omega), utf8Length_eq below, xunicharToUtf8_eq below]
    have converted := @convertUcs4_text _ alloc allocator utf8Size xunicharToUtf8 0 text valid sizes8
      (fun c => List.cons_ne_nil _ _) 1 ⟨by decide, by decide⟩ len after ends (by omega) (by rw [same8]; exact bytes)
    rwa [same8] at converted
  · have converted := @convertUcs4_text _ alloc allocator utf16Units writeUtf16 0 text valid sizes16 writeUtf16_ne_nil 2
      ⟨by decide, by decide⟩ len after ends (by omega) (by rw [same16]; omega)
    rwa [same16] at converted

theorem countable_of_transcodes {alloc : Nat → Bool} (valid : IsText text)
    (transcodes : Transcodes alloc text) : Countable text := by
  have ends : EndsAt none (text.flatMap utf16).length [0] := Or.inr ⟨rfl, rfl⟩
  obtain ⟨toUtf8, toUcs4⟩ := transcodes.fromUtf16 none [0] true ends
  constructor
  · rw [← Nat.div_one (text.flatMap utf8).length, ← total_utf8Length valid] at toUtf8
    have counted := convertUtf16_overflow valid ⟨by decide, by decide⟩ ends toUtf8
    rwa [total_utf8Length valid] at counted
  · rw [← Nat.mul_div_cancel_left text.length (by decide : 0 < 4), ← total_four] at toUcs4
    have counted := convertUtf16_overflow valid ⟨by decide, by decide⟩ ends toUcs4
    rwa [total_four] at counted

end Text

/-- The converters agree on a text exactly when their counters can hold its sizes. -/
theorem transcodes_iff (alloc : Nat → Bool) (allocator : Allocator alloc) (text : List Nat) (valid : IsText text) :
    Transcodes alloc text ↔ Countable text :=
  ⟨countable_of_transcodes valid, transcodes_of_countable allocator valid⟩

def halfSpace (size : Nat) : Bool := size < 2 ^ 63

theorem halfSpace_allocator : Allocator halfSpace :=
  ⟨fun size _ bound => decide_eq_true (by omega), fun size large => decide_eq_false (by omega)⟩

/-- Characters of one, two and four bytes. -/
theorem transcodes_sample : Transcodes halfSpace [0x61, 0xe9, 0x1f600] :=
  (transcodes_iff halfSpace halfSpace_allocator [0x61, 0xe9, 0x1f600] (by unfold IsText; decide)).mpr (by
    unfold Countable
    decide)

theorem length_flatMap_letters (count : Nat) : ((List.replicate count 0x61).flatMap utf8).length = count := by
  simp [List.length_flatMap, utf8]

/-- Two gigabytes of one letter. -/
theorem letters_not_transcoded : ¬∀ alloc : Nat → Bool, Allocator alloc → ∀ text, IsText text → Transcodes alloc text := by
  intro claim
  have valid : IsText (List.replicate (2 ^ 31) 0x61) := by
    intro c member
    rw [List.eq_of_mem_replicate member]
    exact ⟨Or.inl (by decide), by decide⟩
  have countable := countable_of_transcodes valid (claim halfSpace halfSpace_allocator _ valid)
  rw [Countable, length_flatMap_letters] at countable
  omega

end Xpl.Text
