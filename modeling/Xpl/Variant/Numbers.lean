import Xpl.Text.IntegerParsing
import Xpl.Variant.ParseError
import Xpl.Variant.Tokens

/-! Numbers of the text format: `number_get_value` of gvariant-parser.c.

A `Number` is what `number_parse` keeps. The floating-point conversion is a parameter, which
gives a double as its bits.
-/

set_option autoImplicit false

namespace Xpl.Variant
open Xpl.Library Xpl.Text
variable {m : Nat} {negative : Bool}

structure Number where
  sourceRef : SourceRef
  token : Bytes
  deriving DecidableEq, Repr

inductive NumberValue where
  | double (bits : UInt64)
  | byte (v : UInt8)
  | int16 (v : Int16)
  | uint16 (v : UInt16)
  | int32 (v : Int32)
  | uint32 (v : UInt32)
  | int64 (v : Int64)
  | uint64 (v : UInt64)
  | handle (v : Int32)
  deriving DecidableEq

def numberOverflow (number : Number) (type : Bytes) : ParseError :=
  { location := number.sourceRef, other := none, code := .numberOutOfRange,
    text := "number out of range for type '" ++ asciiText (type.take 1) ++ "'" }

/-- The case of a signed type: its greatest and its least value, and the cast to it. -/
def signedNumber {α : Type} [Neg α] (greatest : UInt64) (least : α) (cast : Nat → α) (negative : Bool) (absVal : UInt64) : Option α :=
  if greatest < absVal - (if negative then 1 else 0) then none
  else if negative ∧ greatest < absVal then some least
  else some (if negative then -cast absVal.toNat else cast absVal.toNat)

def unsignedNumber {α : Type} (greatest : UInt64) (cast : Nat → α) (negative : Bool) (absVal : UInt64) : Option α :=
  if negative ∨ greatest < absVal then none else some (cast absVal.toNat)

/-- The switch over the first byte of the type string. -/
def integerValue (number : Number) (type : Bytes) (negative : Bool) (absVal : UInt64) : Except ParseError NumberValue :=
  let overflow := Except.error (numberOverflow number type)
  match type.head?.bind Basic.ofChar with
  | some .byte => ((unsignedNumber 0xff UInt8.ofNat negative absVal).map (.ok ∘ .byte)).getD overflow
  | some .int16 => ((signedNumber 0x7fff Int16.minValue Int16.ofNat negative absVal).map (.ok ∘ .int16)).getD overflow
  | some .uint16 => ((unsignedNumber 0xffff UInt16.ofNat negative absVal).map (.ok ∘ .uint16)).getD overflow
  | some .int32 => ((signedNumber 0x7fffffff Int32.minValue Int32.ofNat negative absVal).map (.ok ∘ .int32)).getD overflow
  | some .uint32 => ((unsignedNumber 0xffffffff UInt32.ofNat negative absVal).map (.ok ∘ .uint32)).getD overflow
  | some .int64 => ((signedNumber 0x7fffffffffffffff Int64.minValue Int64.ofNat negative absVal).map (.ok ∘ .int64)).getD overflow
  | some .uint64 => if negative then overflow else .ok (.uint64 absVal)
  | some .handle => ((signedNumber 0x7fffffff Int32.minValue Int32.ofNat negative absVal).map (.ok ∘ .handle)).getD overflow
  | _ => .error (astTypeError number.sourceRef type)

def invalidCharacter (number : Number) (rest : Bytes) : ParseError :=
  let start := number.sourceRef.start + (number.token.length - rest.length)
  { location := { start, stop := start + 1 }, other := none, code := .invalidCharacter, text := "invalid character in number" }

def tooBig (number : Number) (text : String) : ParseError :=
  { location := number.sourceRef, other := none, code := .numberTooBig, text }

def numberGetValue (xlocale : Bool) (strtod : Bytes → Strtoull) (number : Number) (type : Bytes) : Except ParseError NumberValue :=
  if type = [ascii 'd'] then
    let dbl := strtod number.token
    -- the bits but for the sign: not a zero
    if dbl.result <<< 1 ≠ 0 ∧ dbl.erange then .error (tooBig number "number too big for any type")
    else if dbl.rest ≠ [] then .error (invalidCharacter number dbl.rest)
    else .ok (.double dbl.result)
  else
    let negative := number.token.head? = some (ascii '-')
    let abs := gAsciiStrtoull xlocale (if negative then number.token.tail else number.token) 0
    if abs.result = maxUInt64 ∧ abs.erange then .error (tooBig number "integer too big for any type")
    else if abs.rest ≠ [] then .error (invalidCharacter number abs.rest)
    else integerValue number type (negative && abs.result ≠ 0) abs.result

inductive IntegerType where
  | byte | int16 | uint16 | int32 | uint32 | int64 | uint64 | handle
  deriving DecidableEq, Repr

namespace IntegerType

def basic : IntegerType → Basic
  | .byte => .byte
  | .int16 => .int16
  | .uint16 => .uint16
  | .int32 => .int32
  | .uint32 => .uint32
  | .int64 => .int64
  | .uint64 => .uint64
  | .handle => .handle

def least : IntegerType → Int
  | .byte | .uint16 | .uint32 | .uint64 => 0
  | .int16 => -2 ^ 15
  | .int32 | .handle => -2 ^ 31
  | .int64 => -2 ^ 63

def greatest : IntegerType → Int
  | .byte => 2 ^ 8 - 1
  | .int16 => 2 ^ 15 - 1
  | .uint16 => 2 ^ 16 - 1
  | .int32 | .handle => 2 ^ 31 - 1
  | .uint32 => 2 ^ 32 - 1
  | .int64 => 2 ^ 63 - 1
  | .uint64 => 2 ^ 64 - 1

def Holds (type : IntegerType) (v : Int) : Prop := type.least ≤ v ∧ v ≤ type.greatest

instance (type : IntegerType) (v : Int) : Decidable (type.Holds v) := inferInstanceAs (Decidable (_ ∧ _))

def string (type : IntegerType) : Bytes := [type.basic.char]

end IntegerType

def NumberValue.integer : NumberValue → Option (IntegerType × Int)
  | .double _ => none
  | .byte v => some (.byte, v.toNat)
  | .int16 v => some (.int16, v.toInt)
  | .uint16 v => some (.uint16, v.toNat)
  | .int32 v => some (.int32, v.toInt)
  | .uint32 v => some (.uint32, v.toNat)
  | .int64 v => some (.int64, v.toInt)
  | .uint64 v => some (.uint64, v.toNat)
  | .handle v => some (.handle, v.toInt)

/-- The number that a token stands for: an optional sign and a magnitude. -/
def literal : Bytes → Option Int
  | [] => none
  | c :: s =>
    if c = ascii '-' then (magnitude s).map fun v : Nat => -(v : Int)
    else if c = ascii '+' then (magnitude s).map Int.ofNat
    else (magnitude (c :: s)).map Int.ofNat

/-- A result that is the number `read`, or an error where there is none or the type does not hold it. -/
def Yields (type : IntegerType) (read : Option Int) : Except ParseError NumberValue → Prop
  | .ok value => ∃ v, read = some v ∧ type.Holds v ∧ value.integer = some (type, v)
  | .error _ => ∀ v, read = some v → ¬ type.Holds v

/-- What the code reads besides the literals: a `-` without digits, and a number with a second sign. -/
def doublySigned (xlocale : Bool) : Bytes → Option Int
  | [] => none
  | c :: s =>
    if c = ascii '-' then
      match s with
      | [] => some 0
      | d :: m =>
        if d = ascii '+' then (magnitude m).map fun v : Nat => -(v : Int)
        else if d = ascii '-' then
          match magnitude m with
          | none => none
          | some v =>
            if v = 0 then some 0
            else if v < 2 ^ 64 then some (v - 2 ^ 64)
            else if xlocale then none
            else some (-1)
        else none
    else none

section Values

variable {α : Type} [Neg α] (toInt : α → Int) (greatest : UInt64) {least : α} {cast : Nat → α}

theorem signedNumber_spec (least_int : toInt least = -(greatest.toNat + 1))
    (cast_int : ∀ m : Nat, m ≤ greatest.toNat → toInt (cast m) = m) (neg_int : ∀ m : Nat, m ≤ greatest.toNat → toInt (-cast m) = -m)
    {negative : Bool} {absVal : UInt64} (nonzero : negative → absVal ≠ 0) :
    match signedNumber greatest least cast negative absVal with
    | some a => toInt a = (if negative then -(absVal.toNat : Int) else absVal.toNat) ∧
        -(greatest.toNat + 1 : Int) ≤ toInt a ∧ toInt a ≤ greatest.toNat
    | none => (if negative then -(absVal.toNat : Int) else absVal.toNat) < -(greatest.toNat + 1 : Int) ∨
        (greatest.toNat : Int) < (if negative then -(absVal.toNat : Int) else absVal.toNat) := by
  cases negative with
  | false =>
    simp only [signedNumber, Bool.false_eq_true, if_false, false_and]
    rw [UInt64.sub_zero]
    by_cases exceeds : greatest < absVal
    · rw [if_pos exceeds]
      rw [UInt64.lt_iff_toNat_lt] at exceeds
      omega
    · rw [if_neg exceeds]
      rw [UInt64.lt_iff_toNat_lt] at exceeds
      have value := cast_int absVal.toNat (by omega)
      omega
  | true =>
    have positive : 1 ≤ absVal := by
      have : absVal.toNat ≠ 0 := fun zero => nonzero rfl (UInt64.toNat_inj.mp zero)
      exact Nat.one_le_iff_ne_zero.mpr this
    have less : (absVal - 1).toNat = absVal.toNat - 1 := UInt64.toNat_sub_of_le _ _ positive
    simp only [signedNumber, if_true, true_and]
    by_cases exceeds : greatest < absVal - 1
    · rw [if_pos exceeds]
      rw [UInt64.lt_iff_toNat_lt] at exceeds
      omega
    · rw [if_neg exceeds]
      rw [UInt64.lt_iff_toNat_lt] at exceeds
      by_cases extreme : greatest < absVal
      · rw [if_pos extreme]
        rw [UInt64.lt_iff_toNat_lt] at extreme
        omega
      · rw [if_neg extreme]
        rw [UInt64.lt_iff_toNat_lt] at extreme
        have value := neg_int absVal.toNat (by omega)
        omega

theorem unsignedNumber_spec {α : Type} (toNat : α → Nat) {cast : Nat → α} (cast_nat : ∀ m : Nat, m ≤ greatest.toNat → toNat (cast m) = m)
    {negative : Bool} {absVal : UInt64} (nonzero : negative → absVal ≠ 0) :
    match unsignedNumber greatest cast negative absVal with
    | some a => (toNat a : Int) = (if negative then -(absVal.toNat : Int) else absVal.toNat) ∧
        0 ≤ (toNat a : Int) ∧ (toNat a : Int) ≤ greatest.toNat
    | none => (if negative then -(absVal.toNat : Int) else absVal.toNat) < 0 ∨
        (greatest.toNat : Int) < (if negative then -(absVal.toNat : Int) else absVal.toNat) := by
  cases negative with
  | false =>
    simp only [unsignedNumber, Bool.false_eq_true, if_false, false_or]
    by_cases exceeds : greatest < absVal
    · rw [if_pos exceeds]
      rw [UInt64.lt_iff_toNat_lt] at exceeds
      omega
    · rw [if_neg exceeds]
      rw [UInt64.lt_iff_toNat_lt] at exceeds
      have value := cast_nat absVal.toNat (by omega)
      omega
  | true =>
    have positive : absVal.toNat ≠ 0 := fun zero => nonzero rfl (UInt64.toNat_inj.mp zero)
    simp only [unsignedNumber, if_true, true_or]
    omega

end Values

theorem Yields.ofOption {α : Type} {type : IntegerType} {v : Int} {a? : Option α} {wrap : α → NumberValue} {toInt : α → Int}
    (e : ParseError) (wraps : ∀ a, (wrap a).integer = some (type, toInt a))
    (spec : match a? with
      | some a => toInt a = v ∧ type.least ≤ toInt a ∧ toInt a ≤ type.greatest
      | none => v < type.least ∨ type.greatest < v) :
    Yields type (some v) ((a?.map (.ok ∘ wrap)).getD (.error e)) := by
  cases a? with
  | some a =>
    obtain ⟨rfl, range⟩ := spec
    exact ⟨toInt a, rfl, range, wraps a⟩
  | none =>
    intro w same holds
    obtain rfl := Option.some.inj same
    have within : type.least ≤ v ∧ v ≤ type.greatest := holds
    omega

theorem int16_neg (small : m ≤ 2 ^ 15 - 1) : (-Int16.ofNat m).toInt = -m := by
  rw [Int16.neg_ofNat, Int16.toInt_ofInt_of_le (by omega) (by omega)]

theorem int32_neg (small : m ≤ 2 ^ 31 - 1) : (-Int32.ofNat m).toInt = -m := by
  rw [Int32.neg_ofNat, Int32.toInt_ofInt_of_le (by omega) (by omega)]

theorem int64_neg (small : m ≤ 2 ^ 63 - 1) : (-Int64.ofNat m).toInt = -m := by
  rw [Int64.neg_ofNat, Int64.toInt_ofInt_of_le (by omega) (by omega)]

theorem integerValue_yields (number : Number) (type : IntegerType) {absVal : UInt64} (nonzero : negative → absVal ≠ 0) :
    Yields type (some (if negative then -(absVal.toNat : Int) else absVal.toNat)) (integerValue number type.string negative absVal) := by
  unfold integerValue
  cases type with
  | byte =>
    apply Yields.ofOption _ (fun _ => rfl)
    exact unsignedNumber_spec 0xff UInt8.toNat (fun m small => UInt8.toNat_ofNat_of_lt' (Nat.lt_succ_of_le small)) nonzero
  | int16 =>
    apply Yields.ofOption _ (fun _ => rfl)
    exact signedNumber_spec Int16.toInt 0x7fff rfl (fun m small => Int16.toInt_ofNat_of_lt (Nat.lt_succ_of_le small))
      (fun m small => int16_neg small) nonzero
  | uint16 =>
    apply Yields.ofOption _ (fun _ => rfl)
    exact unsignedNumber_spec 0xffff UInt16.toNat (fun m small => UInt16.toNat_ofNat_of_lt' (Nat.lt_succ_of_le small)) nonzero
  | int32 =>
    apply Yields.ofOption _ (fun _ => rfl)
    exact signedNumber_spec Int32.toInt 0x7fffffff rfl (fun m small => Int32.toInt_ofNat_of_lt (Nat.lt_succ_of_le small))
      (fun m small => int32_neg small) nonzero
  | uint32 =>
    apply Yields.ofOption _ (fun _ => rfl)
    exact unsignedNumber_spec 0xffffffff UInt32.toNat (fun m small => UInt32.toNat_ofNat_of_lt' (Nat.lt_succ_of_le small)) nonzero
  | int64 =>
    apply Yields.ofOption _ (fun _ => rfl)
    exact signedNumber_spec Int64.toInt 0x7fffffffffffffff rfl (fun m small => Int64.toInt_ofNat_of_lt (Nat.lt_succ_of_le small))
      (fun m small => int64_neg small) nonzero
  | uint64 =>
    have bound := absVal.toNat_lt
    cases negative with
    | false => exact ⟨absVal.toNat, rfl, ⟨Int.natCast_nonneg _, Int.le_sub_one_of_lt (by exact_mod_cast bound)⟩, rfl⟩
    | true =>
      have positive : absVal.toNat ≠ 0 := fun zero => nonzero rfl (UInt64.toNat_inj.mp zero)
      intro v same holds
      obtain rfl := Option.some.inj same
      have least : 0 ≤ -(absVal.toNat : Int) := holds.1
      omega
  | handle =>
    apply Yields.ofOption _ (fun _ => rfl)
    exact signedNumber_spec Int32.toInt 0x7fffffff rfl (fun m small => Int32.toInt_ofNat_of_lt (Nat.lt_succ_of_le small))
      (fun m small => int32_neg small) nonzero

theorem conversion_yields (number : Number) (type : IntegerType) {abs : Strtoull} {read : Option Int}
    (whole : abs.rest = [] → ¬ (abs.result = maxUInt64 ∧ abs.erange) →
      read = some (if negative then -(abs.result.toNat : Int) else abs.result.toNat))
    (big : abs.rest = [] → abs.result = maxUInt64 ∧ abs.erange → ∀ v, read = some v → ¬ type.Holds v)
    (part : abs.rest ≠ [] → read = none) :
    Yields type read
      (if abs.result = maxUInt64 ∧ abs.erange then .error (tooBig number "integer too big for any type")
        else if abs.rest ≠ [] then .error (invalidCharacter number abs.rest)
        else integerValue number type.string (negative && abs.result ≠ 0) abs.result) := by
  by_cases left : abs.rest = []
  · split
    · rename_i exceeds
      exact big left exceeds
    · rename_i fits
      rw [if_neg (not_not.mpr left)]
      have signed : (if negative && decide (abs.result ≠ 0) then -(abs.result.toNat : Int) else abs.result.toNat) =
          if negative then -(abs.result.toNat : Int) else abs.result.toNat := by
        by_cases zero : abs.result = 0
        · simp [zero]
        · simp [zero]
      rw [whole left fits, ← signed]
      apply integerValue_yields
      intro both
      exact of_decide_eq_true (Bool.and_eq_true_iff.mp both).2
  · rw [part left, if_pos left]
    split
    · exact fun v same => nomatch same
    · exact fun v same => nomatch same

/-- The number that the result of the conversion stands for, where it was written as `v` after an inner sign. -/
def innerValue (xlocale inner negative : Bool) (v : Nat) : Option Int :=
  if v < 2 ^ 64 then
    let magnitude : Int := if inner then (2 ^ 64 - v) % 2 ^ 64 else v
    some (if negative then -magnitude else magnitude)
  else if inner then
    if xlocale then none else some (if negative then -1 else 1)
  else some (if negative then -v else v)

theorem IntegerType.range_bounds (type : IntegerType) : -2 ^ 64 < type.least ∧ type.greatest < 2 ^ 64 := by
  cases type <;> decide

/-- The whole of a text that may have a second sign. -/
theorem strtoull_yields (xlocale : Bool) (number : Number) (type : IntegerType) {nptr : Bytes} (some_byte : nptr ≠ [])
    (plain : nptr.dropWhile isSpace = nptr) {read : Option Int}
    (reads : read = (magnitude (readSign nptr).2).bind (innerValue xlocale (readSign nptr).1 negative)) :
    let abs := gAsciiStrtoull xlocale nptr 0
    Yields type read
      (if abs.result = maxUInt64 ∧ abs.erange then .error (tooBig number "integer too big for any type")
        else if abs.rest ≠ [] then .error (invalidCharacter number abs.rest)
        else integerValue number type.string (negative && abs.result ≠ 0) abs.result) := by
  have converted := gAsciiStrtoull_magnitude xlocale some_byte plain
  cases found : magnitude (readSign nptr).2 with
  | none =>
    rw [found] at converted reads
    apply conversion_yields
    · exact fun none_left => absurd none_left converted
    · exact fun none_left => absurd none_left converted
    · exact fun _ => reads
  | some v =>
    rw [found] at converted reads
    rw [Option.bind_some, innerValue] at reads
    rw [converted]
    have bounds := type.range_bounds
    have size : UInt64.size = 2 ^ 64 := rfl
    by_cases small : v < 2 ^ 64
    · rw [if_pos small] at reads
      have exact_result : decide (2 ^ 64 ≤ v) = false := decide_eq_false (Nat.not_le.mpr small)
      rw [signedResult, exact_result, Bool.and_false, if_neg Bool.false_ne_true]
      apply conversion_yields
      · intro _ _
        rw [reads]
        dsimp only
        cases (readSign nptr).1 with
        | false => rw [if_neg Bool.false_ne_true, if_neg Bool.false_ne_true, saturated_toNat small]
        | true =>
          rw [if_pos rfl, if_pos rfl, UInt64.toNat_neg, saturated_toNat small, size]
          congr <;> omega
      · exact fun _ exceeds => absurd exceeds.2 Bool.false_ne_true
      · exact fun left => absurd rfl left
    · rw [if_neg small] at reads
      have large : decide (2 ^ 64 ≤ v) = true := decide_eq_true (Nat.not_lt.mp small)
      have max : saturated v = maxUInt64 := by rw [saturated, if_neg small]
      rw [signedResult, large, Bool.and_true, max]
      apply conversion_yields
      · intro _ fits
        cases xlocale with
        | true => exact absurd ⟨rfl, rfl⟩ fits
        | false =>
          cases inner : (readSign nptr).1 with
          | false =>
            rw [inner] at fits
            exact absurd ⟨rfl, rfl⟩ fits
          | true =>
            rw [inner, if_pos rfl] at reads
            exact reads
      · intro _ exceeds w same holds
        have within : type.least ≤ w ∧ w ≤ type.greatest := holds
        cases inner : (readSign nptr).1 with
        | false =>
          rw [inner, if_neg Bool.false_ne_true, same] at reads
          obtain rfl := Option.some.inj reads
          split at within <;> omega
        | true =>
          cases xlocale with
          | true =>
            rw [inner, if_pos rfl, if_pos rfl, same] at reads
            cases reads
          | false =>
            rw [inner] at exceeds
            exact absurd exceeds.1 (by decide)
      · exact fun left => absurd rfl left

theorem innerValue_plain (xlocale negative : Bool) (v : Nat) :
    innerValue xlocale false negative v = some (if negative then -(v : Int) else v) := by
  unfold innerValue
  split <;> rfl

theorem innerValue_double (xlocale : Bool) (v : Nat) : innerValue xlocale true true v =
    if v = 0 then some 0 else if v < 2 ^ 64 then some ((v : Int) - 2 ^ 64) else if xlocale then none else some (-1) := by
  unfold innerValue
  by_cases zero : v = 0
  · subst zero
    rfl
  · rw [if_neg zero]
    by_cases small : v < 2 ^ 64
    · rw [if_pos small, if_pos small]
      have whole : ((2 : Int) ^ 64 - v) % 2 ^ 64 = 2 ^ 64 - v := by omega
      simp only [if_true, whole, Int.neg_sub]
    · rw [if_neg small, if_neg small, if_pos rfl, if_pos rfl]

theorem doublySigned_positive {xlocale : Bool} {c : UInt8} (sign : ¬ c = ascii '-') (s : Bytes) : doublySigned xlocale (c :: s) = none := by
  exact if_neg sign

/-- The number that the code reads from a token that is not a lone `-`. -/
theorem read_negative (xlocale : Bool) {s : Bytes} (some_byte : s ≠ []) :
    (doublySigned xlocale (ascii '-' :: s) <|> literal (ascii '-' :: s)) =
      (magnitude (readSign s).2).bind (innerValue xlocale (readSign s).1 true) := by
  obtain ⟨d, m, rfl⟩ := List.exists_cons_of_ne_nil some_byte
  rw [literal, if_pos rfl, doublySigned, if_pos rfl, readSign]
  by_cases minus : d = ascii '-'
  · subst minus
    have none : magnitude (ascii '-' :: m) = none := magnitude_sign (Or.inl rfl) m
    rw [if_pos (show ascii '-' = char '-' from rfl), none]
    cases found : magnitude m with
    | none => rfl
    | some v =>
      rw [Option.bind_some, innerValue_double]
      rw [Option.map_none, if_neg (by decide : ¬ ascii '-' = ascii '+'), if_pos rfl, Option.orElse_eq_orElse, Option.orElse_eq_or, Option.or_none]
  · rw [if_neg (show ¬ d = char '-' from minus)]
    by_cases plus : d = ascii '+'
    · subst plus
      have none : magnitude (ascii '+' :: m) = none := magnitude_sign (Or.inr rfl) m
      rw [if_pos (show ascii '+' = char '+' from rfl), none]
      cases found : magnitude m with
      | none => rfl
      | some v => rw [Option.bind_some, innerValue_plain]; rfl
    · rw [if_neg (show ¬ d = char '+' from plus)]
      cases found : magnitude (d :: m) with
      | none => simp [minus, plus]
      | some v => rw [Option.bind_some, innerValue_plain]; simp [minus, plus]

theorem read_positive (xlocale : Bool) {token : Bytes} (some_byte : token ≠ []) (positive : token.head? ≠ some (ascii '-')) :
    (doublySigned xlocale token <|> literal token) =
      (magnitude (readSign token).2).bind (innerValue xlocale (readSign token).1 false) := by
  obtain ⟨c, s, rfl⟩ := List.exists_cons_of_ne_nil some_byte
  have sign : ¬ c = ascii '-' := fun same => positive (by rw [same]; rfl)
  rw [literal, if_neg sign, doublySigned_positive sign, readSign, if_neg (show ¬ c = char '-' from sign)]
  by_cases plus : c = ascii '+'
  · rw [if_pos plus, if_pos (show c = char '+' from plus)]
    cases found : magnitude s with
    | none => rfl
    | some v => rw [Option.bind_some, innerValue_plain]; rfl
  · rw [if_neg plus, if_neg (show ¬ c = char '+' from plus)]
    cases found : magnitude (c :: s) with
    | none => rfl
    | some v => rw [Option.bind_some, innerValue_plain]; rfl

theorem number_plain {s : Bytes} (chars : s.all isNumberChar) : s.dropWhile isSpace = s := by
  cases s with
  | nil => rfl
  | cons c s =>
    rw [List.all_cons, Bool.and_eq_true] at chars
    apply List.dropWhile_cons_of_neg
    intro space
    have char := chars.1
    simp only [isSpace, Bool.or_eq_true, decide_eq_true_eq] at space
    rcases space with ((((rfl | rfl) | rfl) | rfl) | rfl) | rfl <;> exact absurd char (by decide)

theorem numberGetValue_yields (xlocale : Bool) (strtod : Bytes → Strtoull) (number : Number) (type : IntegerType)
    (some_byte : number.token ≠ []) (chars : number.token.all isNumberChar) :
    Yields type (doublySigned xlocale number.token <|> literal number.token)
      (numberGetValue xlocale strtod number type.string) := by
  have integral : ¬ type.string = [ascii 'd'] := by cases type <;> decide
  rw [numberGetValue, if_neg integral]
  by_cases negative : number.token.head? = some (ascii '-')
  · obtain ⟨c, s, same⟩ := List.exists_cons_of_ne_nil some_byte
    obtain rfl : c = ascii '-' := by simpa [same] using negative
    simp only [if_true, decide_true, same, List.tail_cons, List.head?_cons]
    by_cases bare : s = []
    · subst bare
      have converted : gAsciiStrtoull xlocale [] 0 = { result := 0, erange := false, rest := [] } := by cases xlocale <;> rfl
      rw [converted]
      apply conversion_yields
      · exact fun _ _ => rfl
      · exact fun _ exceeds => absurd exceeds.2 Bool.false_ne_true
      · exact fun left => absurd rfl left
    · rw [read_negative xlocale bare]
      rw [same, List.all_cons, Bool.and_eq_true] at chars
      exact strtoull_yields xlocale number type bare (number_plain chars.2) rfl
  · simp only [negative, if_false, decide_false]
    rw [read_positive xlocale some_byte negative]
    exact strtoull_yields xlocale number type some_byte (number_plain chars) rfl

theorem literal_of_doublySigned {xlocale : Bool} {token : Bytes} {v : Int} (double : doublySigned xlocale token = some v) :
    literal token = none := by
  cases token with
  | nil => rfl
  | cons c s =>
    by_cases minus : c = ascii '-'
    · subst minus
      rw [literal, if_pos rfl]
      cases s with
      | nil => rfl
      | cons d m =>
        rw [doublySigned, if_pos rfl] at double
        have sign : d = ascii '-' ∨ d = ascii '+' := by
          split at double
          · rename_i plus
            exact Or.inr plus
          · split at double
            · rename_i minus
              exact Or.inl minus
            · cases double
        rw [magnitude_sign sign, Option.map_none]
    · rw [doublySigned_positive minus] at double
      cases double

/-- `number_get_value` reads the literals in the range of the type, as the numbers that they stand for, and
nothing else: unless the token is a lone `-` or has a second sign, and the number that the code then reads is in
the range of the type. -/
theorem numberGetValue_literal (xlocale : Bool) (strtod : Bytes → Strtoull) (number : Number) (type : IntegerType)
    (token : NumberToken number.token) :
    Yields type (literal number.token) (numberGetValue xlocale strtod number type.string) ↔
      ∀ v, doublySigned xlocale number.token = some v → ¬ type.Holds v := by
  have yields := numberGetValue_yields xlocale strtod number type token.chars.1 token.chars.2
  cases double : doublySigned xlocale number.token with
  | none =>
    rw [double, Option.orElse_eq_orElse, Option.orElse_eq_or, Option.none_or] at yields
    exact ⟨fun _ v same => (nomatch same), fun _ => yields⟩
  | some v =>
    rw [double, Option.orElse_eq_orElse, Option.orElse_eq_or, Option.some_or] at yields
    rw [literal_of_doublySigned double]
    cases result : numberGetValue xlocale strtod number type.string with
    | ok value =>
      rw [result] at yields
      obtain ⟨w, same, holds, _⟩ := yields
      constructor
      · rintro ⟨w, none, _⟩
        exact nomatch none
      · exact fun outside => absurd holds (outside w same)
    | error e =>
      rw [result] at yields
      exact ⟨fun _ => yields, fun _ v same => nomatch same⟩

theorem number_minus : NumberToken [ascii '-'] := by
  let text : ParseText := { memory := [ascii '-', 0], stop := none }
  exact ⟨text, 0, { stream := 1, this := some 0 }, Or.inl (by decide), by decide⟩

theorem number_int16 : NumberToken ("-32768".toList.map ascii) := by
  let text : ParseText := { memory := "-32768 ".toList.map ascii ++ [0], stop := none }
  exact ⟨text, 0, { stream := 6, this := some 0 }, Or.inl (by decide), by decide⟩

theorem numberGetValue_literal_least :
    Yields .int16 (literal ("-32768".toList.map ascii))
      (numberGetValue true (fun token => { result := 0, erange := false, rest := token })
        { sourceRef := { start := 0, stop := 6 }, token := "-32768".toList.map ascii } IntegerType.int16.string) := by
  apply (numberGetValue_literal true _ { sourceRef := { start := 0, stop := 6 }, token := "-32768".toList.map ascii } .int16 number_int16).mpr
  intro v same
  exact nomatch same

/-- A lone `-` is read as a zero. -/
theorem numberGetValue_minus :
    NumberToken [ascii '-'] ∧ literal [ascii '-'] = none ∧
      (numberGetValue true (fun token => { result := 0, erange := false, rest := token })
        { sourceRef := { start := 0, stop := 1 }, token := [ascii '-'] } IntegerType.byte.string).toOption = some (.byte 0) ∧
      ¬ Yields .byte (literal [ascii '-'])
        (numberGetValue true (fun token => { result := 0, erange := false, rest := token })
          { sourceRef := { start := 0, stop := 1 }, token := [ascii '-'] } IntegerType.byte.string) := by
  refine ⟨number_minus, rfl, rfl, ?_⟩
  rintro ⟨v, same, _⟩
  exact nomatch same

end Xpl.Variant
