import Xpl.Text.Validation

/-! Well-formed UTF-8: the text at the front of a byte string. -/

set_option autoImplicit false

namespace Xpl.Text
open Xpl.Library

/-! ## Bit tests on bytes -/

theorem forall_byte {P : UInt8 → Prop} (all : ∀ n < 256, P (UInt8.ofNat n)) (b : UInt8) : P b := by
  have found := all b.toNat b.toNat_lt
  rwa [UInt8.ofNat_toNat] at found

theorem masked_value : ∀ n < 256, n &&& 0xc0 = n / 64 * 64 ∧ n &&& 0xe0 = n / 32 * 32 ∧ n &&& 0xf0 = n / 16 * 16 ∧
    n &&& 0x30 = n / 16 % 4 * 16 ∧ n &&& 0x0f = n % 16 ∧ n &&& 0x07 = n % 8 ∧ n &&& 0x3f = n % 64 := by
  decide +kernel

theorem masked_byte (b : UInt8) :
    (validateByte b 0xc0 0x80 = true ↔ 0x80 ≤ b.toNat ∧ b.toNat < 0xc0) ∧
    (validateByte b 0xe0 0xa0 = true ↔ 0xa0 ≤ b.toNat ∧ b.toNat < 0xc0) ∧
    (validateByte b 0xe0 0x80 = true ↔ 0x80 ≤ b.toNat ∧ b.toNat < 0xa0) ∧
    (validateByte b 0xf0 0x80 = true ↔ 0x80 ≤ b.toNat ∧ b.toNat < 0x90) ∧
    ((isContinuation b && !(b &&& 0x30 = 0)) = true ↔ 0x90 ≤ b.toNat ∧ b.toNat < 0xc0) ∧
    ((b &&& 0x0f = 0 ↔ b.toNat % 16 = 0) ∧ (b &&& 0x0f = 0x0d ↔ b.toNat % 16 = 13)) ∧
    ((b &&& 0x07 = 0 ↔ b.toNat % 8 = 0) ∧ (b &&& 0x07 = 4 ↔ b.toNat % 8 = 4)) ∧
    (b &&& 0x3f).toNat = b.toNat % 64 := by
  have masks := masked_value b.toNat b.toNat_lt
  have equal : ∀ mask expect : UInt8, b &&& mask = expect ↔ b.toNat &&& mask.toNat = expect.toNat := by
    intro mask expect
    rw [← UInt8.toNat_inj, UInt8.toNat_and]
  simp only [isContinuation, validateByte, decide_eq_true_eq, Bool.and_eq_true, Bool.not_eq_true', decide_eq_false_iff_not, equal,
    UInt8.toNat_and, UInt8.reduceToNat]
  omega

theorem validateByte_c0 (b : UInt8) : validateByte b 0xc0 0x80 = true ↔ 0x80 ≤ b.toNat ∧ b.toNat < 0xc0 := (masked_byte b).1

theorem isContinuation_iff (b : UInt8) : isContinuation b = true ↔ 0x80 ≤ b.toNat ∧ b.toNat < 0xc0 := validateByte_c0 b

theorem validateByte_a0 (b : UInt8) : validateByte b 0xe0 0xa0 = true ↔ 0xa0 ≤ b.toNat ∧ b.toNat < 0xc0 := (masked_byte b).2.1

theorem validateByte_80 (b : UInt8) : validateByte b 0xe0 0x80 = true ↔ 0x80 ≤ b.toNat ∧ b.toNat < 0xa0 := (masked_byte b).2.2.1

theorem validateByte_f0 (b : UInt8) : validateByte b 0xf0 0x80 = true ↔ 0x80 ≤ b.toNat ∧ b.toNat < 0x90 :=
  (masked_byte b).2.2.2.1

theorem continuation_above (b : UInt8) :
    (isContinuation b && !(b &&& 0x30 = 0)) = true ↔ 0x90 ≤ b.toNat ∧ b.toNat < 0xc0 := (masked_byte b).2.2.2.2.1

theorem and_0f (b : UInt8) : (b &&& 0x0f = 0 ↔ b.toNat % 16 = 0) ∧ (b &&& 0x0f = 0x0d ↔ b.toNat % 16 = 13) :=
  (masked_byte b).2.2.2.2.2.1

theorem and_07 (b : UInt8) : (b &&& 0x07 = 0 ↔ b.toNat % 8 = 0) ∧ (b &&& 0x07 = 4 ↔ b.toNat % 8 = 4) :=
  (masked_byte b).2.2.2.2.2.2.1

theorem and_3f (b : UInt8) : (b &&& 0x3f).toNat = b.toNat % 64 := (masked_byte b).2.2.2.2.2.2.2

theorem validSecondOfThree_iff {a : UInt8} (range : 0xe0 ≤ a.toNat ∧ a.toNat < 0xf0) (b : UInt8) :
    validSecondOfThree a b = true ↔ (0x80 ≤ b.toNat ∧ b.toNat < 0xc0) ∧ (a.toNat = 0xe0 → 0xa0 ≤ b.toNat) ∧
      (a.toNat = 0xed → b.toNat < 0xa0) := by
  unfold validSecondOfThree
  split
  case isTrue zero =>
    rw [validateByte_a0]
    have low := (and_0f a).1.mp zero
    omega
  case isFalse nonzero =>
    rw [(and_0f a).1] at nonzero
    split
    case isTrue surrogate =>
      rw [validateByte_80]
      have low := (and_0f a).2.mp surrogate
      omega
    case isFalse other =>
      rw [(and_0f a).2] at other
      rw [isContinuation_iff]
      omega

theorem validSecondOfFour_iff {a : UInt8} (range : 0xf0 ≤ a.toNat ∧ a.toNat < 0xf5) (b : UInt8) :
    validSecondOfFour a b = true ↔ (0x80 ≤ b.toNat ∧ b.toNat < 0xc0) ∧ (a.toNat = 0xf0 → 0x90 ≤ b.toNat) ∧
      (a.toNat = 0xf4 → b.toNat < 0x90) := by
  unfold validSecondOfFour
  split
  case isTrue zero =>
    rw [continuation_above]
    have low := (and_07 a).1.mp zero
    omega
  case isFalse nonzero =>
    rw [(and_07 a).1] at nonzero
    split
    case isTrue last =>
      rw [validateByte_f0]
      have low := (and_07 a).2.mp last
      omega
    case isFalse other =>
      rw [(and_07 a).2] at other
      rw [isContinuation_iff]
      omega

/-! ## The character at the front -/

/-- The size of the character at the front, when there is one. -/
def leadLength : Bytes → Option Nat
  | [] => none
  | first :: rest =>
    if first = 0 then none
    else if first < 128 then some 1
    else if first < 0xe0 then
      match rest with
      | second :: _ => if 0xc2 ≤ first ∧ isContinuation second then some 2 else none
      | _ => none
    else if first < 0xf0 then
      match rest with
      | second :: third :: _ =>
        if validSecondOfThree first second && isContinuation third then some 3 else none
      | _ => none
    else if first < 0xf5 then
      match rest with
      | second :: third :: fourth :: _ =>
        if validSecondOfFour first second && isContinuation third && isContinuation fourth then some 4 else none
      | _ => none
    else none

/-- A character is at the front. -/
def Leads (c : Nat) (bytes : Bytes) : Prop := IsScalar c ∧ c ≠ 0 ∧ ∃ rest, bytes = utf8 c ++ rest

section Branches
variable {a b c d : UInt8} {rest : Bytes}

theorem byte_lt_128 : a < 128 ↔ a.toNat < 128 := UInt8.lt_iff_toNat_lt
theorem byte_lt_e0 : a < 0xe0 ↔ a.toNat < 0xe0 := UInt8.lt_iff_toNat_lt
theorem byte_lt_f0 : a < 0xf0 ↔ a.toNat < 0xf0 := UInt8.lt_iff_toNat_lt
theorem byte_lt_f5 : a < 0xf5 ↔ a.toNat < 0xf5 := UInt8.lt_iff_toNat_lt
theorem byte_c2_le : 0xc2 ≤ a ↔ 0xc2 ≤ a.toNat := UInt8.le_iff_toNat_le

theorem byte_ne_zero : a ≠ 0 ↔ a.toNat ≠ 0 := not_congr UInt8.toNat_inj.symm

theorem leadLength_one (first : a.toNat ≠ 0 ∧ a.toNat < 0x80) : leadLength (a :: rest) = some 1 := by
  unfold leadLength
  dsimp only
  rw [if_neg (byte_ne_zero.mpr first.1), if_pos (byte_lt_128.mpr first.2)]

theorem leadLength_two (first : 0xc2 ≤ a.toNat ∧ a.toNat < 0xe0) (second : 0x80 ≤ b.toNat ∧ b.toNat < 0xc0) :
    leadLength (a :: b :: rest) = some 2 := by
  unfold leadLength
  dsimp only
  rw [if_neg (byte_ne_zero.mpr (by omega)), if_neg (byte_lt_128.not.mpr (by omega)),
    if_pos (byte_lt_e0.mpr first.2)]
  exact if_pos ⟨byte_c2_le.mpr first.1, (isContinuation_iff b).mpr second⟩

theorem leadLength_three (first : 0xe0 ≤ a.toNat ∧ a.toNat < 0xf0) (second : validSecondOfThree a b = true)
    (third : 0x80 ≤ c.toNat ∧ c.toNat < 0xc0) : leadLength (a :: b :: c :: rest) = some 3 := by
  unfold leadLength
  dsimp only
  rw [if_neg (byte_ne_zero.mpr (by omega)), if_neg (byte_lt_128.not.mpr (by omega)),
    if_neg (byte_lt_e0.not.mpr (by omega)), if_pos (byte_lt_f0.mpr first.2)]
  exact if_pos (by rw [second, (isContinuation_iff c).mpr third]; rfl)

theorem leadLength_four (first : 0xf0 ≤ a.toNat ∧ a.toNat < 0xf5) (second : validSecondOfFour a b = true)
    (third : 0x80 ≤ c.toNat ∧ c.toNat < 0xc0) (fourth : 0x80 ≤ d.toNat ∧ d.toNat < 0xc0) :
    leadLength (a :: b :: c :: d :: rest) = some 4 := by
  unfold leadLength
  dsimp only
  rw [if_neg (byte_ne_zero.mpr (by omega)), if_neg (byte_lt_128.not.mpr (by omega)),
    if_neg (byte_lt_e0.not.mpr (by omega)), if_neg (byte_lt_f0.not.mpr (by omega)), if_pos (byte_lt_f5.mpr first.2)]
  exact if_pos (by rw [second, (isContinuation_iff c).mpr third, (isContinuation_iff d).mpr fourth]; rfl)

end Branches

theorem leadLength_utf8 {c : Nat} (scalar : IsScalar c) (nonzero : c ≠ 0) (rest : Bytes) :
    leadLength (utf8 c ++ rest) = some (utf8 c).length := by
  unfold IsScalar at scalar
  by_cases one : c < 0x80
  · rw [utf8_one one]
    exact leadLength_one (by rw [toNat_byte (by omega)]; omega)
  · by_cases two : c < 0x800
    · rw [utf8_two (by omega) two]
      apply leadLength_two
      · rw [toNat_byte (by omega)]
        omega
      · rw [toNat_byte (by omega)]
        omega
    · by_cases three : c < 0x10000
      · have first : (UInt8.ofNat (0xe0 + c / 4096)).toNat = 0xe0 + c / 4096 := toNat_byte (by omega)
        have second : (UInt8.ofNat (0x80 + c / 64 % 64)).toNat = 0x80 + c / 64 % 64 := toNat_byte (by omega)
        have third : (UInt8.ofNat (0x80 + c % 64)).toNat = 0x80 + c % 64 := toNat_byte (by omega)
        rw [utf8_three (by omega) three]
        apply leadLength_three (by omega) _ (by omega)
        rw [validSecondOfThree_iff (by omega), first, second]
        omega
      · have first : (UInt8.ofNat (0xf0 + c / 262144)).toNat = 0xf0 + c / 262144 := toNat_byte (by omega)
        have second : (UInt8.ofNat (0x80 + c / 4096 % 64)).toNat = 0x80 + c / 4096 % 64 := toNat_byte (by omega)
        have third : (UInt8.ofNat (0x80 + c / 64 % 64)).toNat = 0x80 + c / 64 % 64 := toNat_byte (by omega)
        have fourth : (UInt8.ofNat (0x80 + c % 64)).toNat = 0x80 + c % 64 := toNat_byte (by omega)
        rw [utf8_four (by omega)]
        apply leadLength_four (by omega) _ (by omega) (by omega)
        rw [validSecondOfFour_iff (by omega), first, second]
        omega

theorem leads_of_leadLength {bytes : Bytes} {size : Nat} (found : leadLength bytes = some size) :
    ∃ c, Leads c bytes ∧ size = (utf8 c).length := by
  cases bytes with
  | nil => cases found
  | cons a rest =>
    unfold leadLength at found
    dsimp only at found
    split at found
    case isTrue => cases found
    case isFalse nonzero =>
      have positive := byte_ne_zero.mp nonzero
      split at found
      case isTrue small =>
        cases found
        have below := byte_lt_128.mp small
        have single : utf8 a.toNat = [a] := by rw [utf8_one below, UInt8.ofNat_toNat]
        exact ⟨a.toNat, ⟨Or.inl (by omega), positive, rest, by rw [single]; rfl⟩, by rw [single]; rfl⟩
      case isFalse large =>
        split at found
        case isTrue below =>
          rw [byte_lt_e0] at below
          cases rest with
          | nil => cases found
          | cons b rest =>
            simp only [Option.ite_none_right_eq_some, byte_c2_le, isContinuation_iff] at found
            obtain ⟨⟨least, second⟩, same⟩ := found
            have pair := @utf8_of_two a b (by omega) second
            refine ⟨_, ⟨Or.inl ?_, ?_, rest, by rw [pair]; rfl⟩, by rw [pair]; exact (Option.some.inj same).symm⟩
            · omega
            · omega
        case isFalse above =>
          rw [byte_lt_e0] at above
          split at found
          case isTrue below =>
            rw [byte_lt_f0] at below
            match rest with
            | [] => cases found
            | [_] => cases found
            | b :: c :: rest =>
              simp only [Option.ite_none_right_eq_some, Bool.and_eq_true, isContinuation_iff,
                validSecondOfThree_iff (by omega : 0xe0 ≤ a.toNat ∧ a.toNat < 0xf0)] at found
              obtain ⟨⟨⟨second, shortest, plain⟩, third⟩, same⟩ := found
              have triple := @utf8_of_three a b c (by omega) second third shortest
              refine ⟨_, ⟨?_, ?_, rest, by rw [triple]; rfl⟩, by rw [triple]; exact (Option.some.inj same).symm⟩
              · unfold IsScalar
                omega
              · omega
          case isFalse higher =>
            rw [byte_lt_f0] at higher
            split at found
            case isTrue below =>
              rw [byte_lt_f5] at below
              match rest with
              | [] => cases found
              | [_] => cases found
              | [_, _] => cases found
              | b :: c :: d :: rest =>
                simp only [Option.ite_none_right_eq_some, Bool.and_eq_true, isContinuation_iff,
                  validSecondOfFour_iff (by omega : 0xf0 ≤ a.toNat ∧ a.toNat < 0xf5)] at found
                obtain ⟨⟨⟨⟨second, shortest, last⟩, third⟩, fourth⟩, same⟩ := found
                have quad := @utf8_of_four a b c d (by omega) second third fourth shortest
                refine ⟨_, ⟨?_, ?_, rest, by rw [quad]; rfl⟩, by rw [quad]; exact (Option.some.inj same).symm⟩
                · unfold IsScalar
                  omega
                · omega
            case isFalse => cases found

end Xpl.Text
