import Xpl.Library.Bytes

/-! Reading an unsigned number: `g_parse_long_long` and `g_ascii_strtoull` of gstrfuncs.c.

A string is the list of the bytes before its NUL, and a pointer into it is the string from there.
-/

set_option autoImplicit false

namespace Xpl.Text
open Xpl.Library
variable {base d ui64 : UInt64} {overflow : Bool} {v : Nat}

def char (c : Char) : UInt8 := UInt8.ofNat c.toNat

/-- What a conversion leaves: its result, whether `errno` was set to `ERANGE`, and `*endptr`. -/
structure Strtoull where
  result : UInt64
  erange : Bool
  rest : Bytes
  deriving DecidableEq, Repr

def isSpace (c : UInt8) : Bool :=
  c = char ' ' || c = 12 || c = char '\n' || c = char '\r' || c = char '\t' || c = 11

def isUpper (c : UInt8) : Bool := char 'A' ≤ c && c ≤ char 'Z'
def isLower (c : UInt8) : Bool := char 'a' ≤ c && c ≤ char 'z'

def toUpper (c : UInt8) : UInt8 := if isLower c then c - char 'a' + char 'A' else c

def digitValue (c : UInt8) : Option UInt8 :=
  if char '0' ≤ c ∧ c ≤ char '9' then some (c - char '0')
  else if isUpper c ∨ isLower c then some (toUpper c - char 'A' + 10)
  else none

def digitIn (base : UInt64) (c : UInt8) : Option UInt64 :=
  match digitValue c with
  | some d => if base ≤ d.toUInt64 then none else some d.toUInt64
  | none => none

def maxUInt64 : UInt64 := 0xffffffffffffffff

/-- The loop over the digits, with `ui64` and `overflow`. -/
def digitLoop (base : UInt64) (ui64 : UInt64) (overflow : Bool) : Bytes → UInt64 × Bool × Bytes
  | [] => (ui64, overflow, [])
  | c :: s =>
    match digitIn base c with
    | none => (ui64, overflow, c :: s)
    | some d =>
      let cutoff := maxUInt64 / base
      let cutlim := maxUInt64 % base
      if cutoff < ui64 ∨ (ui64 = cutoff ∧ cutlim < d) then digitLoop base ui64 true s
      else digitLoop base (ui64 * base + d) overflow s

/-- The sign before a number: whether it is negative, and the string after it. -/
def readSign : Bytes → Bool × Bytes
  | c :: s => if c = char '-' then (true, s) else if c = char '+' then (false, s) else (false, c :: s)
  | [] => (false, [])

/-- The base, and the string after the prefix: its last byte, where there is one, is the `x`. -/
def readBase (base : UInt64) (s : Bytes) : UInt64 × Option UInt8 × Bytes :=
  if s.head? = some (char '0') then
    match s.tail with
    | x :: rest =>
      if (base = 0 ∨ base = 16) ∧ toUpper x = char 'X' then (16, some x, rest)
      else (if base = 0 then 8 else base, none, s)
    | [] => (if base = 0 then 8 else base, none, s)
  else (if base = 0 then 10 else base, none, s)

/-- `g_parse_long_long`, with `negative`; a base out of range gives `EINVAL`. -/
def gParseLongLong (nptr : Bytes) (base : UInt64) : Bool × Strtoull :=
  if base = 1 ∨ 36 < base then (false, { result := 0, erange := false, rest := nptr })
  else
    let s := nptr.dropWhile isSpace
    if s.isEmpty then (false, { result := 0, erange := false, rest := nptr })
    else
      let (negative, s) := readSign s
      let (base, x, save) := readBase base s
      let (ui64, overflow, s) := digitLoop base 0 false save
      if s.length = save.length then
        -- noconv: after the prefix of a hexadecimal number without digits, `*endptr` is the `x`
        (negative, { result := 0, erange := false, rest := match x with | some x => x :: save | none => nptr })
      else if overflow then (negative, { result := maxUInt64, erange := true, rest := s })
      else (negative, { result := ui64, erange := false, rest := s })

/-- `g_ascii_strtoull`. With `xlocale` it is the `strtoull_l` of the C library, which gives
`ULLONG_MAX` for a number out of range whatever its sign is. -/
def gAsciiStrtoull (xlocale : Bool) (nptr : Bytes) (base : UInt64) : Strtoull :=
  let (negative, conversion) := gParseLongLong nptr base
  if xlocale && conversion.erange then conversion
  else { conversion with result := if negative then -conversion.result else conversion.result }

/-- The value of a digit of a number, in a base up to 36. -/
def digitOf (base : Nat) (c : UInt8) : Option Nat :=
  let d :=
    if 48 ≤ c.toNat ∧ c.toNat ≤ 57 then c.toNat - 48
    else if 65 ≤ c.toNat ∧ c.toNat ≤ 90 then c.toNat - 55
    else if 97 ≤ c.toNat ∧ c.toNat ≤ 122 then c.toNat - 87
    else base
  if d < base then some d else none

/-- The number that a list of digits stands for, after the number `high`. -/
def numeral (base high : Nat) (digits : List Nat) : Nat := digits.foldl (fun v d => v * base + d) high

/-- The number that a non-empty string of digits stands for. -/
def wholeNumeral (base : Nat) (s : Bytes) : Option Nat :=
  if s ≠ [] ∧ s.all fun c => (digitOf base c).isSome then some (numeral base 0 (s.filterMap (digitOf base))) else none

/-- What the loop knows of the number `v` of the digits so far. -/
def Accumulates (ui64 : UInt64) (overflow : Bool) (v : Nat) : Prop :=
  if overflow then 2 ^ 64 ≤ v else ui64.toNat = v

theorem digitIn_below {c : UInt8} (digit : digitIn base c = some d) : d < base := by
  unfold digitIn at digit
  split at digit
  · split at digit
    · exact nomatch digit
    · rename_i above
      obtain rfl := Option.some.inj digit
      exact UInt64.not_le.mp above
  · exact nomatch digit

/-- The character arithmetic gives the value of a digit. -/
theorem digitIn_toNat (base : UInt64) (c : UInt8) :
    (digitIn base c).map UInt64.toNat = digitOf base.toNat c := by
  have nine : (char '0').toNat = 48 ∧ (char '9').toNat = 57 := by decide
  have upper : (char 'A').toNat = 65 ∧ (char 'Z').toNat = 90 := by decide
  have lower : (char 'a').toNat = 97 ∧ (char 'z').toNat = 122 := by decide
  have reads : ∀ d : UInt8, (if base ≤ d.toUInt64 then none else some d.toUInt64).map UInt64.toNat =
      if d.toNat < base.toNat then some d.toNat else none := by
    intro d
    have same : base ≤ d.toUInt64 ↔ base.toNat ≤ d.toNat := by rw [UInt64.le_iff_toNat_le, UInt8.toNat_toUInt64]
    by_cases below : d.toNat < base.toNat
    · have digit : ¬ base ≤ d.toUInt64 := same.not.mpr (by omega)
      rw [if_neg digit, if_pos below, Option.map_some, UInt8.toNat_toUInt64]
    · have digit : base ≤ d.toUInt64 := same.mpr (by omega)
      rw [if_pos digit, if_neg below, Option.map_none]
  unfold digitIn digitValue digitOf
  simp only [isUpper, isLower, Bool.and_eq_true, decide_eq_true_eq, UInt8.le_iff_toNat_le, nine, upper, lower]
  by_cases digit : 48 ≤ c.toNat ∧ c.toNat ≤ 57
  · have value : (c - char '0').toNat = c.toNat - 48 := by
      rw [UInt8.toNat_sub, nine.1]
      omega
    simp only [if_pos digit, reads, value]
  · by_cases capital : 65 ≤ c.toNat ∧ c.toNat ≤ 90
    · have plain : ¬ (97 ≤ c.toNat ∧ c.toNat ≤ 122) := by omega
      have value : (toUpper c - char 'A' + 10).toNat = c.toNat - 55 := by
        simp only [toUpper, isLower, Bool.and_eq_true, decide_eq_true_eq, UInt8.le_iff_toNat_le, lower, if_neg plain]
        rw [UInt8.toNat_add, UInt8.toNat_sub, upper.1, show (10 : UInt8).toNat = 10 from rfl]
        omega
      have letter : (65 ≤ c.toNat ∧ c.toNat ≤ 90) ∨ (97 ≤ c.toNat ∧ c.toNat ≤ 122) := Or.inl capital
      simp only [if_neg digit, if_pos letter, if_pos capital, reads, value]
    · by_cases small_letter : 97 ≤ c.toNat ∧ c.toNat ≤ 122
      · have value : (toUpper c - char 'A' + 10).toNat = c.toNat - 87 := by
          simp only [toUpper, isLower, Bool.and_eq_true, decide_eq_true_eq, UInt8.le_iff_toNat_le, lower, if_pos small_letter]
          rw [UInt8.toNat_add, UInt8.toNat_sub, UInt8.toNat_add, UInt8.toNat_sub, upper.1, lower.1,
            show (10 : UInt8).toNat = 10 from rfl]
          omega
        have letter : (65 ≤ c.toNat ∧ c.toNat ≤ 90) ∨ (97 ≤ c.toNat ∧ c.toNat ≤ 122) := Or.inr small_letter
        simp only [if_neg digit, if_pos letter, if_neg capital, if_pos small_letter, reads, value]
      · simp [digit, capital, small_letter]

/-- The test for overflow is exact. -/
theorem cut_iff (digit : d < base) :
    (maxUInt64 / base < ui64 ∨ (ui64 = maxUInt64 / base ∧ maxUInt64 % base < d)) ↔
      2 ^ 64 ≤ ui64.toNat * base.toNat + d.toNat := by
  have whole : base.toNat * ((2 ^ 64 - 1) / base.toNat) + (2 ^ 64 - 1) % base.toNat = 2 ^ 64 - 1 := Nat.div_add_mod _ _
  have below : d.toNat < base.toNat := UInt64.lt_iff_toNat_lt.mp digit
  have max : maxUInt64.toNat = 2 ^ 64 - 1 := rfl
  rw [UInt64.lt_iff_toNat_lt, UInt64.lt_iff_toNat_lt, ← UInt64.toNat_inj, UInt64.toNat_div, UInt64.toNat_mod, max]
  have limit : (2 ^ 64 - 1) % base.toNat < base.toNat := Nat.mod_lt _ (by omega)
  generalize (2 ^ 64 - 1) / base.toNat = cutoff at whole limit ⊢
  rw [Nat.mul_comm] at whole
  rcases Nat.lt_trichotomy ui64.toNat cutoff with less | same | more
  · have : (ui64.toNat + 1) * base.toNat ≤ cutoff * base.toNat := Nat.mul_le_mul_right _ less
    rw [Nat.add_mul] at this
    omega
  · rw [same]
    omega
  · have : (cutoff + 1) * base.toNat ≤ ui64.toNat * base.toNat := Nat.mul_le_mul_right _ more
    rw [Nat.add_mul] at this
    omega

theorem Accumulates.take (digit : d < base)
    (cut : maxUInt64 / base < ui64 ∨ (ui64 = maxUInt64 / base ∧ maxUInt64 % base < d))
    (before : Accumulates ui64 overflow v) : Accumulates ui64 true (v * base.toNat + d.toNat) := by
  have exceeds := (cut_iff digit).mp cut
  have positive : 0 < base.toNat := Nat.zero_lt_of_lt (UInt64.lt_iff_toNat_lt.mp digit)
  cases overflow with
  | false =>
    have same : ui64.toNat = v := before
    rw [← same]
    exact exceeds
  | true =>
    have large : 2 ^ 64 ≤ v := before
    calc 2 ^ 64 ≤ v * 1 := by omega
      _ ≤ v * base.toNat := Nat.mul_le_mul_left _ positive
      _ ≤ v * base.toNat + d.toNat := Nat.le_add_right _ _

theorem Accumulates.add (digit : d < base)
    (fits : ¬ (maxUInt64 / base < ui64 ∨ (ui64 = maxUInt64 / base ∧ maxUInt64 % base < d)))
    (before : Accumulates ui64 overflow v) : Accumulates (ui64 * base + d) overflow (v * base.toNat + d.toNat) := by
  have small : ui64.toNat * base.toNat + d.toNat < 2 ^ 64 := Nat.not_le.mp ((cut_iff digit).not.mp fits)
  have positive : 0 < base.toNat := Nat.zero_lt_of_lt (UInt64.lt_iff_toNat_lt.mp digit)
  cases overflow with
  | false =>
    have same : ui64.toNat = v := before
    have exact_sum : (ui64 * base + d).toNat = v * base.toNat + d.toNat := by
      rw [UInt64.toNat_add, UInt64.toNat_mul, Nat.mod_add_mod, Nat.mod_eq_of_lt small, same]
    exact exact_sum
  | true =>
    have large : 2 ^ 64 ≤ v := before
    calc 2 ^ 64 ≤ v * 1 := by omega
      _ ≤ v * base.toNat := Nat.mul_le_mul_left _ positive
      _ ≤ v * base.toNat + d.toNat := Nat.le_add_right _ _

def isDigitOf (base : Nat) (c : UInt8) : Bool := (digitOf base c).isSome

theorem digitLoop_spec (s : Bytes)
    (before : Accumulates ui64 overflow v) :
    ∃ ui64' overflow', digitLoop base ui64 overflow s = (ui64', overflow', s.dropWhile (isDigitOf base.toNat)) ∧
      Accumulates ui64' overflow' (numeral base.toNat v ((s.takeWhile (isDigitOf base.toNat)).filterMap (digitOf base.toNat))) := by
  -- over the text: once a digit has overflowed the value is no longer kept, only the digits are passed
  induction s generalizing ui64 overflow v with
  | nil => exact ⟨ui64, overflow, rfl, before⟩
  | cons c s ih =>
    rw [digitLoop]
    have value := digitIn_toNat base c
    cases digit : digitIn base c with
    | none =>
      rw [digit, Option.map_none] at value
      have stops : isDigitOf base.toNat c = false := by rw [isDigitOf, ← value]; rfl
      refine ⟨ui64, overflow, ?_, ?_⟩
      · rw [List.dropWhile_cons_of_neg (by simp [stops])]
      · rw [List.takeWhile_cons_of_neg (by simp [stops])]
        exact before
    | some d =>
      rw [digit, Option.map_some] at value
      have below := digitIn_below digit
      have digital : isDigitOf base.toNat c = true := by rw [isDigitOf, ← value]; rfl
      rw [List.dropWhile_cons_of_pos digital, List.takeWhile_cons_of_pos digital, List.filterMap_cons_some value.symm]
      dsimp only
      split
      · rename_i cut
        exact ih (before.take below cut)
      · rename_i fits
        exact ih (before.add below fits)

theorem toUpper_x (x : UInt8) : toUpper x = char 'X' ↔ x = char 'x' ∨ x = char 'X' := by
  have a : (char 'a').toNat = 97 ∧ (char 'A').toNat = 65 := by decide
  have x' : (char 'x').toNat = 120 ∧ (char 'X').toNat = 88 := by decide
  have z : (char 'z').toNat = 122 := by decide
  simp only [toUpper, isLower, Bool.and_eq_true, decide_eq_true_eq, UInt8.le_iff_toNat_le, a, z, ← UInt8.toNat_inj, x']
  split
  · rw [UInt8.toNat_add, UInt8.toNat_sub, a.1, a.2]
    omega
  · omega

/-- The result for a number `v` that is read whole. -/
def saturated (v : Nat) : UInt64 := if v < 2 ^ 64 then UInt64.ofNat v else maxUInt64

theorem Accumulates.saturated (value : Accumulates ui64 overflow v) :
    overflow = decide (2 ^ 64 ≤ v) ∧ (if overflow then maxUInt64 else ui64) = saturated v := by
  cases overflow with
  | false =>
    have same : ui64.toNat = v := value
    have small : v < 2 ^ 64 := same ▸ ui64.toNat_lt
    refine ⟨(decide_eq_false (Nat.not_le.mpr small)).symm, ?_⟩
    rw [Text.saturated, if_pos small, ← same, UInt64.ofNat_toNat, if_neg Bool.false_ne_true]
  | true =>
    have large : 2 ^ 64 ≤ v := value
    refine ⟨(decide_eq_true large).symm, ?_⟩
    rw [Text.saturated, if_neg (Nat.not_lt.mpr large), if_pos rfl]

theorem saturated_toNat (small : v < 2 ^ 64) : (saturated v).toNat = v := by
  rw [saturated, if_pos small]
  exact UInt64.toNat_ofNat_of_lt' small

end Xpl.Text
