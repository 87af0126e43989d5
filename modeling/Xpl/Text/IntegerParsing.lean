import Xpl.Text.Strtoull

/-! Reading a signed number, and what `g_ascii_strtoull` and `g_ascii_strtoll` are documented to
read: the longest numeral behind white space and a sign. -/

set_option autoImplicit false

namespace Xpl.Text
open Xpl.Library
variable {base v : Nat} {c : UInt8} {text nptr rest : Bytes}

/-- What a conversion to a signed number leaves. -/
structure Strtoll where
  result : Int64
  erange : Bool
  rest : Bytes
  deriving DecidableEq, Repr

def gAsciiStrtoll (nptr : Bytes) (base : UInt64) : Strtoll :=
  let (negative, conversion) := gParseLongLong nptr base
  if negative && 0x8000000000000000 < conversion.result then
    { result := Int64.minValue, erange := true, rest := conversion.rest }
  else if !negative && 0x7fffffffffffffff < conversion.result then
    { result := Int64.maxValue, erange := true, rest := conversion.rest }
  else if negative then
    { result := -conversion.result.toInt64, erange := conversion.erange, rest := conversion.rest }
  else { result := conversion.result.toInt64, erange := conversion.erange, rest := conversion.rest }

/-! ## Numerals -/

/-- The base that a numeral without prefix has: base zero takes an octal numeral for one that begins with a zero. -/
def impliedBase (base : Nat) (text : Bytes) : Nat :=
  if base = 0 then if text.head? = some (char '0') then 8 else 10 else base

inductive Numeral (base : Nat) : Bytes → Nat → Prop where
  | digits {text : Bytes} {v : Nat} : wholeNumeral (impliedBase base text) text = some v → Numeral base text v
  | hexadecimal {x : UInt8} {digits : Bytes} {v : Nat} : base = 0 ∨ base = 16 → x = char 'x' ∨ x = char 'X' →
      wholeNumeral 16 digits = some v → Numeral base (char '0' :: x :: digits) v

inductive Sign : Bool → Bytes → Prop where
  | none : Sign false []
  | plus : Sign false [char '+']
  | minus : Sign true [char '-']

/-- White space, a sign and a numeral stand at the front of the string. -/
def Spells (base : Nat) (nptr : Bytes) (negative : Bool) (v : Nat) (rest : Bytes) : Prop :=
  ∃ spaces sign text, nptr = spaces ++ sign ++ text ++ rest ∧ (∀ c ∈ spaces, isSpace c = true) ∧ Sign negative sign ∧
    Numeral base text v

def SpellsLongest (base : Nat) (nptr : Bytes) (negative : Bool) (v : Nat) (rest : Bytes) : Prop :=
  Spells base nptr negative v rest ∧
    ∀ negative' v' rest', Spells base nptr negative' v' rest' → rest.length ≤ rest'.length

/-- The unsigned result for a number behind a sign, and whether `ERANGE` is set. -/
def unsignedValue (negative : Bool) (v : Nat) : UInt64 × Bool :=
  if v < 2 ^ 64 then (if negative then -UInt64.ofNat v else UInt64.ofNat v, false) else (maxUInt64, true)

def signedValue (negative : Bool) (v : Nat) : Int64 × Bool :=
  let number : Int := if negative then -v else v
  if -2 ^ 63 ≤ number ∧ number < 2 ^ 63 then (Int64.ofInt number, false)
  else (if negative then Int64.minValue else Int64.maxValue, true)

/-- A conversion is exact: the longest numeral is read, or nothing. -/
def Exact {R : Type} (base : Nat) (nptr : Bytes) (value : Bool → Nat → R × Bool) (result : R) (erange : Bool)
    (rest : Bytes) : Prop :=
  (∃ negative v, SpellsLongest base nptr negative v rest ∧ (result, erange) = value negative v) ∨
    ((∀ negative v other, ¬Spells base nptr negative v other) ∧ (result, erange) = value false 0 ∧ rest = nptr)

/-! ## Where a numeral begins -/

theorem wholeNumeral_eq_some {s : Bytes} : wholeNumeral base s = some v ↔
    s ≠ [] ∧ (∀ c ∈ s, isDigitOf base c = true) ∧ numeral base 0 (s.filterMap (digitOf base)) = v := by
  unfold wholeNumeral
  split
  case isTrue whole => simpa [whole.1, isDigitOf] using fun _ => List.all_eq_true.mp whole.2
  case isFalse not_whole =>
    simp only [reduceCtorEq, false_iff]
    rintro ⟨some_digit, digits, -⟩
    exact not_whole ⟨some_digit, List.all_eq_true.mpr digits⟩

/-- Neither white space nor a sign. -/
def startsNumber (c : UInt8) : Bool := !isSpace c && c ≠ char '-' && c ≠ char '+'

theorem isDigitOf_range (digit : isDigitOf base c = true) :
    48 ≤ c.toNat ∧ c.toNat ≤ 57 ∨ 65 ≤ c.toNat ∧ c.toNat ≤ 90 ∨ 97 ≤ c.toNat ∧ c.toNat ≤ 122 := by
  unfold isDigitOf digitOf at digit
  by_contra outside
  have not_one : ¬(48 ≤ c.toNat ∧ c.toNat ≤ 57) ∧ ¬(65 ≤ c.toNat ∧ c.toNat ≤ 90) ∧ ¬(97 ≤ c.toNat ∧ c.toNat ≤ 122) := by
    simpa only [not_or] using outside
  simp only [not_one, if_false, Nat.lt_irrefl, Option.isSome_none, Bool.false_eq_true] at digit

theorem startsNumber_digit (digit : isDigitOf base c = true) : startsNumber c = true := by
  have range := isDigitOf_range digit
  have codes : (char ' ').toNat = 32 ∧ (char '\n').toNat = 10 ∧ (char '\r').toNat = 13 ∧ (char '\t').toNat = 9 ∧
      (char '-').toNat = 45 ∧ (char '+').toNat = 43 ∧ (12 : UInt8).toNat = 12 ∧ (11 : UInt8).toNat = 11 := by decide
  simp only [startsNumber, isSpace, Bool.and_eq_true, Bool.not_eq_true', Bool.or_eq_false_iff, decide_eq_false_iff_not,
    decide_eq_true_eq, ← UInt8.toNat_inj, codes, ne_eq]
  omega

theorem Numeral.starts (numeral : Numeral base text v) :
    ∃ c rest, text = c :: rest ∧ startsNumber c = true := by
  cases numeral with
  | digits whole =>
    obtain ⟨some_digit, digits, -⟩ := wholeNumeral_eq_some.mp whole
    obtain ⟨c, rest, rfl⟩ := List.exists_cons_of_ne_nil some_digit
    exact ⟨c, rest, rfl, startsNumber_digit (digits c List.mem_cons_self)⟩
  | hexadecimal _ _ _ => exact ⟨_, _, rfl, by decide⟩

/-- What stands behind white space and a sign. -/
def unsigned (nptr : Bytes) : Bytes := (readSign (nptr.dropWhile isSpace)).2

theorem readSign_other (starts : startsNumber c = true) (rest : Bytes) :
    readSign (c :: rest) = (false, c :: rest) := by
  simp only [startsNumber, Bool.and_eq_true, decide_eq_true_eq] at starts
  rw [readSign, if_neg starts.1.2, if_neg starts.2]

theorem dropWhile_spaces {spaces : Bytes} (all : ∀ c ∈ spaces, isSpace c = true) (stops : isSpace c = false)
    (rest : Bytes) : (spaces ++ c :: rest).dropWhile isSpace = c :: rest := by
  rw [List.dropWhile_append_of_pos all, List.dropWhile_cons_of_neg (by simp [stops])]

theorem reads_iff {negative : Bool} :
    Spells base nptr negative v rest ↔
      negative = (readSign (nptr.dropWhile isSpace)).1 ∧ ∃ text, unsigned nptr = text ++ rest ∧ Numeral base text v := by
  constructor
  · rintro ⟨spaces, sign, text, rfl, all, signed, numeral⟩
    obtain ⟨c, tail, rfl, starts⟩ := numeral.starts
    have plain : isSpace c = false := by
      simp only [startsNumber, Bool.and_eq_true, Bool.not_eq_true'] at starts
      exact starts.1.1
    unfold unsigned
    cases signed with
    | none =>
      rw [List.append_nil, List.append_assoc, List.cons_append, dropWhile_spaces all plain, readSign_other starts]
      exact ⟨rfl, c :: tail, rfl, numeral⟩
    | plus =>
      rw [List.append_assoc, List.append_assoc, List.cons_append, dropWhile_spaces all (by decide)]
      exact ⟨rfl, c :: tail, rfl, numeral⟩
    | minus =>
      rw [List.append_assoc, List.append_assoc, List.cons_append, dropWhile_spaces all (by decide)]
      exact ⟨rfl, c :: tail, rfl, numeral⟩
  · rintro ⟨rfl, text, shape, numeral⟩
    have whole := List.takeWhile_append_dropWhile (p := isSpace) (l := nptr)
    have all : ∀ c ∈ nptr.takeWhile isSpace, isSpace c = true := fun c => List.mem_takeWhile_imp
    obtain ⟨sign, signed, after⟩ : ∃ sign, Sign (readSign (nptr.dropWhile isSpace)).1 sign ∧
        nptr.dropWhile isSpace = sign ++ unsigned nptr := by
      unfold unsigned
      cases nptr.dropWhile isSpace with
      | nil => exact ⟨[], .none, rfl⟩
      | cons c tail =>
        rw [readSign]
        split
        case isTrue minus => exact ⟨[char '-'], .minus, by rw [minus]; rfl⟩
        case isFalse =>
          split
          case isTrue plus => exact ⟨[char '+'], .plus, by rw [plus]; rfl⟩
          case isFalse => exact ⟨[], .none, rfl⟩
    refine ⟨nptr.takeWhile isSpace, sign, text, ?_, all, signed, numeral⟩
    rw [List.append_assoc, List.append_assoc, ← shape, ← after, whole]

/-! ## The longest numeral at the front of a string -/

/-- The numeral at the front of a string that leaves the least. -/
def Front (base : Nat) (s : Bytes) (v : Nat) (rest : Bytes) : Prop :=
  (∃ text, s = text ++ rest ∧ Numeral base text v) ∧
    ∀ text v' rest', s = text ++ rest' → Numeral base text v' → rest.length ≤ rest'.length

theorem readsLongest_iff {negative : Bool} :
    SpellsLongest base nptr negative v rest ↔
      negative = (readSign (nptr.dropWhile isSpace)).1 ∧ Front base (unsigned nptr) v rest := by
  unfold SpellsLongest Front
  simp only [reads_iff]
  constructor
  · rintro ⟨⟨same, read⟩, least⟩
    exact ⟨same, read, fun text v' rest' shape numeral => least negative v' rest' ⟨same, text, shape, numeral⟩⟩
  · rintro ⟨same, read, least⟩
    exact ⟨⟨same, read⟩, fun _ v' rest' ⟨_, text, shape, numeral⟩ => least text v' rest' shape numeral⟩

theorem length_dropWhile_le {p : UInt8 → Bool} {text rest : Bytes} (all : ∀ c ∈ text, p c = true) :
    ((text ++ rest).dropWhile p).length ≤ rest.length := by
  rw [List.dropWhile_append_of_pos all]
  exact (List.dropWhile_sublist p).length_le

/-- The digits at the front of a string, as a number. -/
def runValue (base : Nat) (s : Bytes) : Nat :=
  numeral base 0 ((s.takeWhile (isDigitOf base)).filterMap (digitOf base))

theorem wholeNumeral_run {s : Bytes} (some_digit : s.takeWhile (isDigitOf base) ≠ []) :
    wholeNumeral base (s.takeWhile (isDigitOf base)) = some (runValue base s) :=
  wholeNumeral_eq_some.mpr ⟨some_digit, fun _ => List.mem_takeWhile_imp, rfl⟩

theorem impliedBase_append (some_byte : text ≠ []) :
    impliedBase base (text ++ rest) = impliedBase base text := by
  obtain ⟨c, tail, rfl⟩ := List.exists_cons_of_ne_nil some_byte
  rfl

section Front
variable {base : Nat} {s : Bytes}

theorem numeral_digits (plain : ∀ x rest, s = char '0' :: x :: rest → base = 0 ∨ base = 16 → ¬(x = char 'x' ∨ x = char 'X'))
    {text rest : Bytes} {v : Nat} (shape : s = text ++ rest) (numeral : Numeral base text v) :
    text ≠ [] ∧ ∀ c ∈ text, isDigitOf (impliedBase base s) c = true := by
  cases numeral with
  | digits whole =>
    obtain ⟨some_digit, digits, -⟩ := wholeNumeral_eq_some.mp whole
    rw [shape, impliedBase_append some_digit]
    exact ⟨some_digit, digits⟩
  | hexadecimal based prefixed _ => exact absurd prefixed (plain _ _ shape based)

theorem front_digits (plain : ∀ x rest, s = char '0' :: x :: rest → base = 0 ∨ base = 16 → ¬(x = char 'x' ∨ x = char 'X'))
    (some_digit : s.takeWhile (isDigitOf (impliedBase base s)) ≠ []) :
    Front base s (runValue (impliedBase base s) s) (s.dropWhile (isDigitOf (impliedBase base s))) := by
  have whole := (List.takeWhile_append_dropWhile (p := isDigitOf (impliedBase base s)) (l := s)).symm
  constructor
  · refine ⟨_, whole, .digits ?_⟩
    have same : impliedBase base (s.takeWhile (isDigitOf (impliedBase base s))) = impliedBase base s := by
      conv => rhs; rw [whole]
      exact (impliedBase_append some_digit).symm
    rw [same]
    exact wholeNumeral_run some_digit
  · intro text v' rest' shape numeral
    have least := @length_dropWhile_le _ _ rest' (numeral_digits plain shape numeral).2
    rwa [← shape] at least

theorem no_digits (plain : ∀ x rest, s = char '0' :: x :: rest → base = 0 ∨ base = 16 → ¬(x = char 'x' ∨ x = char 'X'))
    (none_there : s.takeWhile (isDigitOf (impliedBase base s)) = []) (text : Bytes) (v : Nat) (rest : Bytes)
    (shape : s = text ++ rest) : ¬Numeral base text v := by
  intro numeral
  obtain ⟨some_digit, digits⟩ := numeral_digits plain shape numeral
  obtain ⟨c, tail, rfl⟩ := List.exists_cons_of_ne_nil some_digit
  rw [shape, List.cons_append, List.takeWhile_cons_of_pos] at none_there
  · exact nomatch none_there
  · rw [← List.cons_append, ← shape]
    exact digits c List.mem_cons_self

variable {x : UInt8} {save : Bytes}

theorem x_no_digit (based : base = 0 ∨ base = 16) (prefixed : x = char 'x' ∨ x = char 'X') (text : Bytes) :
    isDigitOf (impliedBase base (char '0' :: text)) x = false := by
  rcases based with rfl | rfl <;> rcases prefixed with rfl | rfl <;> rfl

theorem numeral_prefixed (based : base = 0 ∨ base = 16) (prefixed : x = char 'x' ∨ x = char 'X') {text rest : Bytes} {v : Nat}
    (shape : char '0' :: x :: save = text ++ rest) (numeral : Numeral base text v) :
    rest = x :: save ∨ ∃ digits, digits ≠ [] ∧ (∀ c ∈ digits, isDigitOf 16 c = true) ∧ save = digits ++ rest := by
  cases numeral with
  | digits whole =>
    obtain ⟨some_digit, digits, -⟩ := wholeNumeral_eq_some.mp whole
    obtain ⟨c, tail, rfl⟩ := List.exists_cons_of_ne_nil some_digit
    rw [List.cons_append, List.cons.injEq] at shape
    obtain ⟨rfl, shape⟩ := shape
    cases tail with
    | nil => exact .inl shape.symm
    | cons y more =>
      rw [List.cons_append, List.cons.injEq] at shape
      have digit := digits y (by simp)
      rw [← shape.1, x_no_digit based prefixed] at digit
      exact nomatch digit
  | hexadecimal _ _ whole =>
    obtain ⟨some_digit, digits, -⟩ := wholeNumeral_eq_some.mp whole
    simp only [List.cons_append, List.cons.injEq, true_and] at shape
    exact .inr ⟨_, some_digit, digits, shape.2⟩

theorem front_hexadecimal (based : base = 0 ∨ base = 16) (prefixed : x = char 'x' ∨ x = char 'X')
    (some_digit : save.takeWhile (isDigitOf 16) ≠ []) :
    Front base (char '0' :: x :: save) (runValue 16 save) (save.dropWhile (isDigitOf 16)) := by
  have whole := (List.takeWhile_append_dropWhile (p := isDigitOf 16) (l := save)).symm
  constructor
  · refine ⟨char '0' :: x :: save.takeWhile (isDigitOf 16), ?_, .hexadecimal based prefixed (wholeNumeral_run some_digit)⟩
    rw [List.cons_append, List.cons_append, ← whole]
  · intro text v' rest' shape numeral
    rcases numeral_prefixed based prefixed shape numeral with rfl | ⟨digits, -, all, rfl⟩
    · exact Nat.le_succ_of_le (List.dropWhile_sublist _).length_le
    · exact length_dropWhile_le all

theorem front_zero (based : base = 0 ∨ base = 16) (prefixed : x = char 'x' ∨ x = char 'X')
    (none_there : save.takeWhile (isDigitOf 16) = []) : Front base (char '0' :: x :: save) 0 (x :: save) := by
  constructor
  · refine ⟨[char '0'], rfl, .digits ?_⟩
    rcases based with rfl | rfl <;> rfl
  · intro text v' rest' shape numeral
    rcases numeral_prefixed based prefixed shape numeral with rfl | ⟨digits, some_digit, all, rfl⟩
    · exact Nat.le_refl _
    · obtain ⟨c, tail, rfl⟩ := List.exists_cons_of_ne_nil some_digit
      rw [List.cons_append, List.takeWhile_cons_of_pos (all c List.mem_cons_self)] at none_there
      exact nomatch none_there

end Front

/-! ## The parser -/

theorem readBase_cases (base : UInt64) (s : Bytes) :
    (∃ x save, s = char '0' :: x :: save ∧ (base.toNat = 0 ∨ base.toNat = 16) ∧ (x = char 'x' ∨ x = char 'X') ∧
      readBase base s = (16, some x, save)) ∨
    ((∀ x rest, s = char '0' :: x :: rest → base.toNat = 0 ∨ base.toNat = 16 → ¬(x = char 'x' ∨ x = char 'X')) ∧
      ∃ inferred : UInt64, readBase base s = (inferred, none, s) ∧ inferred.toNat = impliedBase base.toNat s) := by
  have zero : base = 0 ↔ base.toNat = 0 := by rw [← UInt64.toNat_inj]; rfl
  have sixteen : base = 16 ↔ base.toNat = 16 := by rw [← UInt64.toNat_inj]; rfl
  have eight : (if base = 0 then 8 else base).toNat = if base.toNat = 0 then 8 else base.toNat := by
    simp only [← zero]
    split <;> rfl
  have ten : (if base = 0 then 10 else base).toNat = if base.toNat = 0 then 10 else base.toNat := by
    simp only [← zero]
    split <;> rfl
  unfold readBase impliedBase
  by_cases leads : s.head? = some (char '0')
  · obtain ⟨rest, rfl⟩ := List.head?_eq_some_iff.mp leads
    simp only [if_pos leads, List.tail_cons]
    cases rest with
    | nil => exact .inr ⟨by simp, _, rfl, eight⟩
    | cons x save =>
      dsimp only
      by_cases prefixed : (base = 0 ∨ base = 16) ∧ toUpper x = char 'X'
      · rw [if_pos prefixed]
        exact .inl ⟨x, save, rfl, by simpa only [zero, sixteen] using prefixed.1, (toUpper_x x).mp prefixed.2, rfl⟩
      · rw [if_neg prefixed]
        refine .inr ⟨?_, _, rfl, eight⟩
        rintro y rest ⟨⟩ based written
        exact prefixed ⟨by simpa only [zero, sixteen] using based, (toUpper_x x).mpr written⟩
  · simp only [if_neg leads]
    refine .inr ⟨?_, _, rfl, ten⟩
    rintro x rest rfl
    exact absurd rfl leads

theorem digitLoop_run (base : UInt64) (save : Bytes) :
    ∃ ui64 overflow, digitLoop base 0 false save = (ui64, overflow, save.dropWhile (isDigitOf base.toNat)) ∧
      overflow = decide (2 ^ 64 ≤ runValue base.toNat save) ∧
      (if overflow then maxUInt64 else ui64) = saturated (runValue base.toNat save) := by
  obtain ⟨ui64, overflow, loop, value⟩ := digitLoop_spec save (show Accumulates 0 false 0 from rfl)
  exact ⟨ui64, overflow, loop, value.saturated⟩

theorem length_run (base : Nat) (save : Bytes) :
    (save.dropWhile (isDigitOf base)).length = save.length ↔ save.takeWhile (isDigitOf base) = [] := by
  have whole := congrArg List.length (List.takeWhile_append_dropWhile (p := isDigitOf base) (l := save))
  rw [List.length_append] at whole
  rw [← List.length_eq_zero_iff]
  omega

theorem gParseLongLong_spec (nptr : Bytes) {base : UInt64} (valid : base = 0 ∨ 2 ≤ base ∧ base ≤ 36) :
    (∃ v rest, SpellsLongest base.toNat nptr (gParseLongLong nptr base).1 v rest ∧
      (gParseLongLong nptr base).2 = { result := saturated v, erange := decide (2 ^ 64 ≤ v), rest }) ∨
    ((∀ negative v rest, ¬Spells base.toNat nptr negative v rest) ∧
      (gParseLongLong nptr base).2 = { result := 0, erange := false, rest := nptr }) := by
  have accepted : ¬(base = 1 ∨ 36 < base) := by
    simp only [← UInt64.toNat_inj, UInt64.lt_iff_toNat_lt, UInt64.le_iff_toNat_le] at valid ⊢
    have codes : (0 : UInt64).toNat = 0 ∧ (1 : UInt64).toNat = 1 ∧ (2 : UInt64).toNat = 2 ∧ (36 : UInt64).toNat = 36 := by decide
    omega
  simp only [gParseLongLong, if_neg accepted]
  split
  case isTrue blank =>
    have none_left : nptr.dropWhile isSpace = [] := by simpa using blank
    refine .inr ⟨fun negative v rest read => ?_, rfl⟩
    obtain ⟨-, text, shape, numeral⟩ := reads_iff.mp read
    obtain ⟨c, tail, rfl, -⟩ := numeral.starts
    rw [unsigned, none_left] at shape
    cases shape
  case isFalse =>
    have behind : (readSign (nptr.dropWhile isSpace)).2 = unsigned nptr := rfl
    rw [behind]
    rcases readBase_cases base (unsigned nptr) with
      ⟨x, save, shape, based, prefixed, reads⟩ | ⟨plain, inferred, reads, same⟩
    · -- behind a prefix, with or without hexadecimal digits
      obtain ⟨ui64, overflow, loop, exceeds, value⟩ := digitLoop_run 16 save
      have sixteen : (16 : UInt64).toNat = 16 := rfl
      rw [sixteen] at loop exceeds value
      rw [reads]
      rw [loop]
      refine .inl ?_
      by_cases none_there : save.takeWhile (isDigitOf 16) = []
      · rw [if_pos ((length_run 16 save).mpr none_there)]
        refine ⟨0, x :: save, readsLongest_iff.mpr ⟨rfl, ?_⟩, rfl⟩
        rw [shape]
        exact front_zero based prefixed none_there
      · rw [if_neg ((length_run 16 save).not.mpr none_there)]
        refine ⟨runValue 16 save, save.dropWhile (isDigitOf 16), readsLongest_iff.mpr ⟨?_, ?_⟩, ?_⟩
        · split <;> rfl
        · rw [shape]
          exact front_hexadecimal based prefixed none_there
        · rw [← exceeds, ← value]
          cases overflow <;> rfl
    · obtain ⟨ui64, overflow, loop, exceeds, value⟩ := digitLoop_run inferred (unsigned nptr)
      rw [same] at loop exceeds value
      rw [reads]
      rw [loop]
      by_cases none_there : (unsigned nptr).takeWhile (isDigitOf (impliedBase base.toNat (unsigned nptr))) = []
      · rw [if_pos ((length_run _ _).mpr none_there)]
        refine .inr ⟨fun negative v rest read => ?_, rfl⟩
        obtain ⟨-, text, shape, numeral⟩ := reads_iff.mp read
        exact no_digits plain none_there text v rest shape numeral
      · rw [if_neg ((length_run _ _).not.mpr none_there)]
        refine .inl ⟨_, _, readsLongest_iff.mpr ⟨?_, front_digits plain none_there⟩, ?_⟩
        · split <;> rfl
        · rw [← exceeds, ← value]
          cases overflow <;> rfl


theorem Numeral.unique {v' : Nat} (first : Numeral base text v) (second : Numeral base text v') : v = v' := by
  cases first with
  | digits whole =>
    cases second with
    | digits whole' => exact Option.some.inj (whole.symm.trans whole')
    | hexadecimal based prefixed _ =>
      have digit := (wholeNumeral_eq_some.mp whole).2.1 _ (List.mem_cons_of_mem _ List.mem_cons_self)
      rw [x_no_digit based prefixed] at digit
      exact nomatch digit
  | hexadecimal based prefixed whole =>
    cases second with
    | digits whole' =>
      have digit := (wholeNumeral_eq_some.mp whole').2.1 _ (List.mem_cons_of_mem _ List.mem_cons_self)
      rw [x_no_digit based prefixed] at digit
      exact nomatch digit
    | hexadecimal _ _ whole' => exact Option.some.inj (whole.symm.trans whole')

theorem SpellsLongest.unique {v' : Nat} {rest' : Bytes} {negative negative' : Bool}
    (first : SpellsLongest base nptr negative v rest) (second : SpellsLongest base nptr negative' v' rest') :
    negative = negative' ∧ v = v' ∧ rest = rest' := by
  obtain ⟨rfl, ⟨text, shape, numeral⟩, least⟩ := readsLongest_iff.mp first
  obtain ⟨rfl, ⟨text', shape', numeral'⟩, least'⟩ := readsLongest_iff.mp second
  have same : rest.length = rest'.length := Nat.le_antisymm (least _ _ _ shape' numeral') (least' _ _ _ shape numeral)
  obtain ⟨rfl, rfl⟩ := List.append_inj' (shape.symm.trans shape') same
  exact ⟨rfl, numeral.unique numeral', rfl⟩

/-! ## Literals -/

/-- The number that an integer literal without a sign stands for: decimal digits, or octal digits
with a `0` before them, or hexadecimal digits with `0x` before them. -/
def magnitude (s : Bytes) : Option Nat :=
  if s.head? = some (char '0') then
    match s.tail with
    | x :: rest => if x = char 'x' ∨ x = char 'X' then wholeNumeral 16 rest else wholeNumeral 8 s
    | [] => wholeNumeral 8 s
  else wholeNumeral 10 s

theorem magnitude_eq_some : magnitude text = some v ↔ Numeral 0 text v := by
  unfold magnitude
  constructor
  · intro found
    split at found
    case isTrue leads =>
      obtain ⟨rest, rfl⟩ := List.head?_eq_some_iff.mp leads
      cases rest with
      | nil => exact .digits found
      | cons x rest =>
        dsimp only [List.tail_cons] at found
        split at found
        · exact .hexadecimal (.inl rfl) ‹_› found
        · exact .digits found
    case isFalse other => exact .digits (by rwa [impliedBase, if_pos rfl, if_neg other])
  · intro numeral
    cases numeral with
    | hexadecimal _ prefixed whole => exact (if_pos prefixed).trans whole
    | digits whole =>
      rw [impliedBase, if_pos rfl] at whole
      by_cases leads : text.head? = some (char '0')
      · obtain ⟨rest, rfl⟩ := List.head?_eq_some_iff.mp leads
        rw [if_pos leads] at whole ⊢
        cases rest with
        | nil => exact whole
        | cons x rest =>
          refine (if_neg fun prefixed => ?_).trans whole
          have digit := (wholeNumeral_eq_some.mp whole).2.1 x (List.mem_cons_of_mem _ List.mem_cons_self)
          exact Bool.false_ne_true ((x_no_digit (.inl rfl) prefixed rest).symm.trans digit)
      · rw [if_neg leads] at whole ⊢
        exact whole

def signedResult (xlocale negative : Bool) (v : Nat) : UInt64 :=
  if xlocale && decide (2 ^ 64 ≤ v) then maxUInt64 else if negative then -saturated v else saturated v

theorem gAsciiStrtoull_magnitude (xlocale : Bool) (some_byte : nptr ≠ []) (plain : nptr.dropWhile isSpace = nptr) :
    match magnitude (readSign nptr).2 with
    | some v => gAsciiStrtoull xlocale nptr 0 =
        { result := signedResult xlocale (readSign nptr).1 v, erange := decide (2 ^ 64 ≤ v), rest := [] }
    | none => (gAsciiStrtoull xlocale nptr 0).rest ≠ [] := by
  have spelled : ∀ negative v, Spells 0 nptr negative v [] ↔ negative = (readSign nptr).1 ∧ magnitude (readSign nptr).2 = some v := by
    intro negative v
    simp only [reads_iff, unsigned, plain, List.append_nil, exists_eq_left', magnitude_eq_some]
  have spec := gParseLongLong_spec nptr (.inl rfl : (0 : UInt64) = 0 ∨ _)
  unfold gAsciiStrtoull
  generalize gParseLongLong nptr 0 = parsed at spec ⊢
  obtain ⟨negative, conversion⟩ := parsed
  cases read : magnitude (readSign nptr).2 with
  | some v =>
    have whole := (spelled _ v).mpr ⟨rfl, read⟩
    rcases spec with ⟨v', rest, longest, rfl⟩ | ⟨nothing, -⟩
    · obtain ⟨rfl, rfl, rfl⟩ := SpellsLongest.unique ⟨whole, fun _ _ _ _ => Nat.zero_le _⟩ longest
      dsimp only [signedResult]
      split
      · rename_i both
        have large : 2 ^ 64 ≤ v := of_decide_eq_true (Bool.and_eq_true_iff.mp both).2
        rw [saturated, if_neg (Nat.not_lt.mpr large)]
      · rfl
    · exact absurd whole (nothing _ _ _)
  | none =>
    have left : conversion.rest ≠ [] := by
      rcases spec with ⟨v, rest, longest, rfl⟩ | ⟨-, rfl⟩
      · rintro rfl
        exact Option.some_ne_none _ (((spelled _ _).mp longest.1).2.symm.trans read)
      · exact some_byte
    dsimp only
    split
    · exact left
    · exact left

theorem magnitude_sign (sign : c = char '-' ∨ c = char '+') (s : Bytes) : magnitude (c :: s) = none := by
  rcases sign with rfl | rfl <;> rfl

/-! ## The two functions -/

/-- The sign and the limits that `g_ascii_strtoll` puts on a conversion. -/
def limited (negative : Bool) (result : UInt64) (erange : Bool) : Int64 × Bool :=
  if negative && 0x8000000000000000 < result then (Int64.minValue, true)
  else if !negative && 0x7fffffffffffffff < result then (Int64.maxValue, true)
  else (if negative then -result.toInt64 else result.toInt64, erange)

theorem saturated_limited (negative : Bool) (v : Nat) :
    limited negative (saturated v) (decide (2 ^ 64 ≤ v)) = signedValue negative v := by
  have value : (saturated v).toNat = if v < 2 ^ 64 then v else 2 ^ 64 - 1 := by
    unfold saturated
    split
    case isTrue small => exact UInt64.toNat_ofNat_of_lt' small
    case isFalse large => rfl
  have codes : (0x8000000000000000 : UInt64).toNat = 2 ^ 63 ∧ (0x7fffffffffffffff : UInt64).toNat = 2 ^ 63 - 1 := by decide
  have word : v < 2 ^ 64 → (saturated v).toInt64 = Int64.ofInt v := by
    intro small
    rw [saturated, if_pos small, UInt64.toInt64_ofNat', Int64.ofInt_eq_ofNat]
  unfold limited signedValue
  simp only [UInt64.lt_iff_toNat_lt, codes, value]
  cases negative with
  | true =>
    simp only [Bool.true_and, decide_eq_true_eq, Bool.not_true, Bool.false_and, Bool.false_eq_true, if_false, if_true]
    by_cases representable : v ≤ 2 ^ 63
    · have small : v < 2 ^ 64 := by omega
      have range : -2 ^ 63 ≤ -(v : Int) ∧ -(v : Int) < 2 ^ 63 := by omega
      have below : ¬2 ^ 64 ≤ v := by omega
      have within : ¬2 ^ 63 < v := by omega
      rw [if_pos range, if_pos small, if_neg within, word small, decide_eq_false below, Int64.ofInt_neg]
    · have range : ¬(-2 ^ 63 ≤ -(v : Int) ∧ -(v : Int) < 2 ^ 63) := by omega
      have beyond : 2 ^ 63 < if v < 2 ^ 64 then v else 2 ^ 64 - 1 := by split <;> omega
      rw [if_neg range, if_pos beyond]
  | false =>
    simp only [Bool.false_and, Bool.false_eq_true, if_false, Bool.not_false, Bool.true_and, decide_eq_true_eq]
    by_cases representable : v < 2 ^ 63
    · have small : v < 2 ^ 64 := by omega
      have range : -2 ^ 63 ≤ (v : Int) ∧ (v : Int) < 2 ^ 63 := by omega
      have below : ¬2 ^ 64 ≤ v := by omega
      have within : ¬2 ^ 63 - 1 < v := by omega
      rw [if_pos range, if_pos small, if_neg within, word small, decide_eq_false below]
    · have range : ¬(-2 ^ 63 ≤ (v : Int) ∧ (v : Int) < 2 ^ 63) := by omega
      have beyond : 2 ^ 63 - 1 < if v < 2 ^ 64 then v else 2 ^ 64 - 1 := by split <;> omega
      rw [if_neg range, if_pos beyond]

section Functions
variable {base : UInt64}

theorem gAsciiStrtoll_eq (nptr : Bytes) (base : UInt64) :
    let conversion := (gParseLongLong nptr base).2
    let signed := limited (gParseLongLong nptr base).1 conversion.result conversion.erange
    gAsciiStrtoll nptr base = { result := signed.1, erange := signed.2, rest := conversion.rest } := by
  unfold gAsciiStrtoll limited
  dsimp only
  split_ifs <;> rfl

theorem gAsciiStrtoll_exact (nptr : Bytes) (valid : base = 0 ∨ 2 ≤ base ∧ base ≤ 36) :
    Exact base.toNat nptr signedValue (gAsciiStrtoll nptr base).result (gAsciiStrtoll nptr base).erange
      (gAsciiStrtoll nptr base).rest := by
  rw [gAsciiStrtoll_eq]
  rcases gParseLongLong_spec nptr valid with ⟨v, rest, longest, parsed⟩ | ⟨nothing, parsed⟩
  · rw [parsed]
    exact .inl ⟨_, v, longest, saturated_limited _ v⟩
  · have zero : ∀ negative : Bool, limited negative 0 false = signedValue false 0 := by decide
    rw [parsed]
    exact .inr ⟨nothing, zero _, rfl⟩

theorem gAsciiStrtoull_exact_iff (nptr : Bytes) (valid : base = 0 ∨ 2 ≤ base ∧ base ≤ 36) :
    Exact base.toNat nptr unsignedValue (gAsciiStrtoull false nptr base).result (gAsciiStrtoull false nptr base).erange
        (gAsciiStrtoull false nptr base).rest ↔
      ¬∃ v rest, SpellsLongest base.toNat nptr true v rest ∧ 2 ^ 64 ≤ v := by
  unfold gAsciiStrtoull
  simp only [Bool.false_and, Bool.false_eq_true, if_false]
  rcases gParseLongLong_spec nptr valid with ⟨v, rest, longest, parsed⟩ | ⟨nothing, parsed⟩
  · rw [parsed]
    generalize (gParseLongLong nptr base).1 = negative at longest
    constructor
    · rintro documented ⟨v', other, longest', large⟩
      obtain ⟨rfl, rfl, rfl⟩ := longest.unique longest'
      -- the code returns the negation of the largest number, which is 1
      rcases documented with ⟨negative, v', reads, value⟩ | ⟨nothing, -⟩
      · obtain ⟨rfl, rfl, -⟩ := longest.unique reads
        have small : ¬v < 2 ^ 64 := by omega
        rw [unsignedValue, if_neg small, saturated, if_neg small] at value
        have negated : -maxUInt64 = maxUInt64 := congrArg Prod.fst value
        exact absurd negated (by decide)
      · exact nothing true v rest longest.1
    · intro fits
      refine .inl ⟨negative, v, longest, ?_⟩
      unfold unsignedValue saturated
      by_cases small : v < 2 ^ 64
      · rw [if_pos small, if_pos small, decide_eq_false (Nat.not_le.mpr small)]
      · have plus : negative = false := by
          by_contra minus
          rw [Bool.not_eq_false] at minus
          exact fits ⟨v, rest, minus ▸ longest, Nat.le_of_not_lt small⟩
        rw [if_neg small, if_neg small, plus, decide_eq_true (Nat.le_of_not_lt small)]
        rfl
  · have zero : ∀ negative : Bool, (if negative then -(0 : UInt64) else 0, false) = unsignedValue false 0 := by decide
    rw [parsed]
    refine iff_of_true (.inr ⟨nothing, zero _, rfl⟩) ?_
    rintro ⟨v, rest, longest, -⟩
    exact nothing true v rest longest.1

/-- Both functions read what they are documented to read, but for a number out of range behind a minus sign, whose
unsigned result is not the largest number. -/
theorem integerParsing_exact_iff (nptr : Bytes) (valid : base = 0 ∨ 2 ≤ base ∧ base ≤ 36) :
    Exact base.toNat nptr unsignedValue (gAsciiStrtoull false nptr base).result (gAsciiStrtoull false nptr base).erange
          (gAsciiStrtoull false nptr base).rest ∧
        Exact base.toNat nptr signedValue (gAsciiStrtoll nptr base).result (gAsciiStrtoll nptr base).erange
          (gAsciiStrtoll nptr base).rest ↔
      ¬∃ v rest, SpellsLongest base.toNat nptr true v rest ∧ 2 ^ 64 ≤ v :=
  (and_iff_left (gAsciiStrtoll_exact nptr valid)).trans (gAsciiStrtoull_exact_iff nptr valid)

end Functions

/-- The text of −2^64. -/
def minusTwoTo64 : Bytes := "-18446744073709551616".toList.map char

theorem minusTwoTo64_spells : SpellsLongest 10 minusTwoTo64 true (2 ^ 64) [] := by
  refine ⟨⟨[], [char '-'], "18446744073709551616".toList.map char, by decide, by simp, .minus, .digits (by decide)⟩, ?_⟩
  intro _ _ _ _
  exact Nat.zero_le _

/-- The text of −12 with a letter behind it. -/
def minusTwelve : Bytes := "-12x".toList.map char

theorem minusTwelve_spells : SpellsLongest 10 minusTwelve true 12 [char 'x'] :=
  readsLongest_iff.mpr ⟨by decide,
    @front_digits 10 (unsigned minusTwelve) (fun _ _ _ based => absurd based (by decide)) (by decide)⟩

theorem integerParsing_exact_iff_short :
    Exact 10 minusTwelve unsignedValue (gAsciiStrtoull false minusTwelve 10).result (gAsciiStrtoull false minusTwelve 10).erange
        (gAsciiStrtoull false minusTwelve 10).rest ∧
      Exact 10 minusTwelve signedValue (gAsciiStrtoll minusTwelve 10).result (gAsciiStrtoll minusTwelve 10).erange
        (gAsciiStrtoll minusTwelve 10).rest := by
  apply (@integerParsing_exact_iff 10 minusTwelve (.inr ⟨by decide, by decide⟩)).mpr
  rintro ⟨v, rest, longest, large⟩
  obtain ⟨-, rfl, -⟩ := longest.unique minusTwelve_spells
  exact absurd large (by decide)

theorem integerParsing_negative_overflow :
    gAsciiStrtoull false minusTwoTo64 10 = { result := 1, erange := true, rest := [] } ∧
    ¬Exact 10 minusTwoTo64 unsignedValue (gAsciiStrtoull false minusTwoTo64 10).result
      (gAsciiStrtoull false minusTwoTo64 10).erange (gAsciiStrtoull false minusTwoTo64 10).rest := by
  constructor
  · decide
  · intro documented
    exact (@gAsciiStrtoull_exact_iff 10 minusTwoTo64 (.inr ⟨by decide, by decide⟩)).mp documented
      ⟨2 ^ 64, [], minusTwoTo64_spells, Nat.le_refl _⟩

end Xpl.Text
