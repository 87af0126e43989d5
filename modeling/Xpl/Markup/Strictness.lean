import Xpl.Markup.Unescape
import Xpl.Text.RoundTrip

/-! Unescaping stays behind what it has read. What it accepts is what `strtoul` accepts, up to the first NUL. -/

set_option autoImplicit false

namespace Xpl.Markup
open Xpl.Library Xpl.Text
variable {base v : Nat} {digits : Bytes}

/-! ## Stores -/

theorem put_ok {buffer bytes : Bytes} {unread offset : Nat} (read : offset + bytes.length ≤ unread) (inside : unread ≤ buffer.length) :
    ∃ stored, put buffer unread offset bytes = .ok stored ∧ stored.length = buffer.length ∧
      stored.drop unread = buffer.drop unread ∧ stored.take (offset + bytes.length) = buffer.take offset ++ bytes := by
  have before : (buffer.take offset).length = offset := by
    rw [List.length_take]
    omega
  have front : (buffer.take offset ++ bytes).length = offset + bytes.length := by rw [List.length_append, before]
  refine ⟨_, if_pos read, ?_, ?_, ?_⟩
  · rw [List.length_append, front, List.length_drop]
    omega
  · obtain ⟨gap, rfl⟩ := Nat.exists_eq_add_of_le read
    rw [List.drop_append, front, List.drop_eq_nil_of_le (by omega), List.nil_append, Nat.add_sub_cancel_left, List.drop_drop]
  · rw [List.take_append_of_le_length (by omega), List.take_of_length_le (by omega)]

theorem cString_drop {buffer : Bytes} {count : Nat} (within : count ≤ (cString buffer).length) :
    cString (buffer.drop count) = (cString buffer).drop count := by
  induction buffer generalizing count with
  | nil => simp [cString]
  | cons b buffer ih =>
    cases count with
    | zero => rfl
    | succ count =>
      by_cases zero : b = 0
      · subst zero
        exact absurd within (by simp [cString])
      · have shape : cString (b :: buffer) = b :: cString buffer := List.takeWhile_cons_of_pos (decide_eq_true zero)
        rw [shape] at within ⊢
        exact ih (Nat.le_of_succ_le_succ within)

/-! ## Numerals in references -/

theorem strtoul_spec (string : Bytes) {base : UInt64} (valid : base = 0 ∨ 2 ≤ base ∧ base ≤ 36) :
    (∃ negative v rest, SpellsLongest base.toNat string negative v rest ∧ gAsciiStrtoull true string base =
        { result := (unsignedValue negative v).1, erange := (unsignedValue negative v).2, rest := rest }) ∨
      ((∀ negative v rest, ¬Spells base.toNat string negative v rest) ∧
        gAsciiStrtoull true string base = { result := 0, erange := false, rest := string }) := by
  simp only [gAsciiStrtoull, Bool.true_and]
  rcases gParseLongLong_spec string valid with ⟨v, rest, longest, parsed⟩ | ⟨nothing, parsed⟩
  · refine .inl ⟨_, v, rest, longest, ?_⟩
    rw [parsed]
    unfold unsignedValue saturated
    by_cases small : v < 2 ^ 64
    · rw [if_pos small, if_pos small, decide_eq_false (Nat.not_le.mpr small)]
      rfl
    · rw [if_neg small, if_neg small, decide_eq_true (Nat.le_of_not_lt small)]
      rfl
  · refine .inr ⟨nothing, ?_⟩
    generalize (gParseLongLong string base).1 = negative
    rw [parsed]
    cases negative with
    | false => rfl
    | true => simp

theorem semicolon_outside {spaces sign text : Bytes} {negative : Bool} (blank : ∀ c ∈ spaces, isSpace c = true)
    (signed : Sign negative sign) (numeral : Numeral base text v) : char ';' ∉ spaces ++ sign ++ text := by
  rw [List.mem_append, List.mem_append]
  rintro ((held | held) | held)
  · exact absurd (blank _ held) (by decide)
  · cases signed with
    | none => cases held
    | plus => exact absurd held (by decide)
    | minus => exact absurd held (by decide)
  · have outside : ∀ base', isDigitOf base' (char ';') = true → False := by
      intro base' digit
      have range := isDigitOf_range digit
      have code : (char ';').toNat = 59 := by decide
      omega
    cases numeral with
    | digits whole => exact outside _ ((wholeNumeral_eq_some.mp whole).2.1 _ held)
    | @hexadecimal x digits _ _ prefixed whole =>
      rcases List.mem_cons.mp held with zero | held
      · exact absurd zero (by decide)
      · rcases List.mem_cons.mp held with same | held
        · rw [← same] at prefixed
          exact absurd prefixed (by decide)
        · exact outside _ ((wholeNumeral_eq_some.mp whole).2.1 _ held)

theorem spellsLongest_semicolon {negative : Bool} (spells : Spells base digits negative v [])
    (rest : Bytes) : SpellsLongest base (digits ++ char ';' :: rest) negative v (char ';' :: rest) := by
  obtain ⟨spaces, sign, text, rfl, blank, signed, numeral⟩ := spells
  rw [List.append_nil]
  refine ⟨⟨spaces, sign, text, rfl, blank, signed, numeral⟩, ?_⟩
  rintro negative' v' rest' ⟨spaces', sign', text', shape, blank', signed', numeral'⟩
  by_contra shorter
  have lengths := congrArg List.length shape
  simp only [List.length_append] at lengths shorter
  -- the other number would go on over the semicolon
  have index : (spaces' ++ sign' ++ text')[(spaces ++ sign ++ text).length]? = some (char ';') := by
    have inside : (spaces ++ sign ++ text).length < (spaces' ++ sign' ++ text').length := by
      simp only [List.length_append]
      omega
    have whole := congrArg (·[(spaces ++ sign ++ text).length]?) shape
    rw [List.getElem?_append_left inside, List.getElem?_append_right (Nat.le_refl _), Nat.sub_self] at whole
    exact whole.symm
  exact semicolon_outside blank' signed' numeral' (List.mem_of_getElem? index)

theorem permitted_lt (valid : permitted v = true) : v < 0x110000 ∧ v ≠ 0 := by
  simp only [permitted, Bool.or_eq_true, Bool.and_eq_true, decide_eq_true_eq] at valid
  omega

theorem permitted_scalar (valid : permitted v = true) : IsScalar v := by
  simp only [permitted, Bool.or_eq_true, Bool.and_eq_true, decide_eq_true_eq] at valid
  unfold IsScalar
  omega

theorem numeric_of_digits (based : base = 10 ∨ base = 16) (valid : permitted v = true)
    (read : Digits base digits v) : Numeric base digits v := by
  have small := (permitted_lt valid).1
  refine ⟨false, v, ⟨[], [], digits, by simp, List.forall_mem_nil _, .none, .digits ?_⟩, if_pos (by omega)⟩
  rcases based with rfl | rfl
  · exact read
  · exact read

theorem digitOf_lt {d : Nat} {c : UInt8} (found : digitOf base c = some d) : d < base := by
  unfold digitOf at found
  rw [Option.ite_none_right_eq_some] at found
  obtain ⟨below, same⟩ := found
  cases same
  exact below

/-- "Meeks' theorem": only one digit is shorter than the longest character, and it is below 16. -/
theorem length_utf8_numeric (based : base = 10 ∨ base = 16) (valid : permitted v = true)
    (read : Numeric base digits v) : 0 < digits.length ∧ (utf8 v).length ≤ digits.length + 2 := by
  have four : (utf8 v).length ≤ 4 := by
    unfold utf8
    split_ifs <;> simp
  obtain ⟨negative, m, ⟨spaces, sign, text, rfl, -, signed, numeral⟩, value⟩ := read
  obtain ⟨first, others, rfl, -⟩ := numeral.starts
  simp only [List.append_nil, List.length_append, List.length_cons]
  by_cases single : spaces.length + sign.length + others.length = 0
  · have one : others = [] := List.length_eq_zero_iff.mp (by omega)
    have unsigned : sign = [] := List.length_eq_zero_iff.mp (by omega)
    subst one unsigned
    have below : m < 16 := by
      cases numeral with
      | digits whole =>
        obtain ⟨-, digit, sum⟩ := wholeNumeral_eq_some.mp whole
        have same : impliedBase base [first] = base := by
          rcases based with rfl | rfl <;> rfl
        rw [same] at digit sum
        have held := digit first List.mem_cons_self
        unfold isDigitOf at held
        cases found : digitOf base first with
        | none =>
          rw [found] at held
          cases held
        | some d =>
          rw [List.filterMap_cons_some found] at sum
          have small := digitOf_lt found
          change 0 * base + d = m at sum
          omega
    cases signed
    rw [unsignedValue, if_pos (by omega)] at value
    have same := congrArg (fun pair => pair.1.toNat) value
    have bound := (permitted_lt valid).1
    rw [if_neg Bool.false_ne_true, UInt64.toNat_ofNat_of_lt' (by omega : m < 2 ^ 64),
      UInt64.toNat_ofNat_of_lt' (by omega : v < 2 ^ 64)] at same
    rw [utf8_one (by omega)]
    simp
  · omega

/-! ## References -/

theorem referenceBase_spec (behind : Bytes) : ∃ base, (base = 10 ∨ base = 16) ∧ (referenceBase behind).1.toNat = base ∧
    behind = markOf base ++ (referenceBase behind).2 := by
  unfold referenceBase
  by_cases hexadecimal : behind.head? = some (char 'x')
  · obtain ⟨digits, rfl⟩ := List.head?_eq_some_iff.mp hexadecimal
    exact ⟨16, .inr rfl, rfl, rfl⟩
  · rw [if_neg hexadecimal]
    exact ⟨10, .inl rfl, rfl, rfl⟩

/-- A decimal number does not begin with the mark of a hexadecimal one. -/
theorem head_numeric (read : Numeric 10 digits v) (rest : Bytes) :
    (digits ++ rest).head? ≠ some (char 'x') := by
  obtain ⟨negative, m, ⟨spaces, sign, text, rfl, blank, signed, numeral⟩, -⟩ := read
  intro begins
  cases spaces with
  | cons c spaces =>
    cases Option.some.inj begins
    exact absurd (blank _ List.mem_cons_self) (by decide)
  | nil =>
    cases signed with
    | plus => cases Option.some.inj begins
    | minus => cases Option.some.inj begins
    | none =>
      cases numeral with
      | hexadecimal based _ _ => omega
      | digits whole =>
        obtain ⟨filled, digit, -⟩ := wholeNumeral_eq_some.mp whole
        obtain ⟨c, text, rfl⟩ := List.exists_cons_of_ne_nil filled
        cases Option.some.inj begins
        have letter : isDigitOf 10 (char 'x') = false := by decide
        exact Bool.false_ne_true (letter.symm.trans (digit _ List.mem_cons_self))

theorem referenceBase_numeric (based : base = 10 ∨ base = 16)
    (read : Numeric base digits v) (rest : Bytes) :
    referenceBase (markOf base ++ digits ++ rest) = (UInt64.ofNat base, digits ++ rest) := by
  rcases based with rfl | rfl
  · exact if_neg (head_numeric read rest)
  · exact if_pos rfl

variable {lineNumber : Int32}

theorem characterReference_numeric {base : Nat} {digits : Bytes} {v : Nat} (based : base = 10 ∨ base = 16)
    (read : Numeric base digits v) (valid : permitted v = true) (rest : Bytes) :
    characterReference lineNumber (markOf base ++ digits ++ char ';' :: rest) = .ok (v, (markOf base ++ digits).length + 1) := by
  have small := (permitted_lt valid).1
  have some_digit := (length_utf8_numeric based valid read).1
  obtain ⟨negative, m, spells, value⟩ := id read
  have longest := spellsLongest_semicolon spells rest
  have word : (UInt64.ofNat base).toNat = base := by
    rcases based with rfl | rfl <;> rfl
  have in_range : UInt64.ofNat base = 0 ∨ 2 ≤ UInt64.ofNat base ∧ UInt64.ofNat base ≤ 36 := by
    rcases based with rfl | rfl
    · exact .inr ⟨by decide, by decide⟩
    · exact .inr ⟨by decide, by decide⟩
  rcases strtoul_spec (digits ++ char ';' :: rest) in_range with ⟨negative', m', rest', longest', conversion⟩ | ⟨nothing, -⟩
  · rw [word] at longest'
    obtain ⟨rfl, rfl, rfl⟩ := longest.unique longest'
    rw [value] at conversion
    have result : (UInt64.ofNat v).toNat = v := UInt64.toNat_ofNat_of_lt' (show v < 2 ^ 64 by omega)
    unfold characterReference
    rw [referenceBase_numeric based read]
    dsimp only
    rw [conversion]
    dsimp only
    rw [if_neg, if_neg, if_pos, result]
    · congr 2
      simp only [List.length_append]
      omega
    · rw [result]
      exact valid
    · exact fun other => other rfl
    · rw [List.length_append]
      rintro (none_read | range)
      · omega
      · cases range
  · rw [word] at nothing
    exact absurd longest.1 (nothing _ _ _)

theorem characterReference_ok {behind : Bytes} {read : Nat} (found : characterReference lineNumber behind = .ok (v, read)) :
    ∃ base digits rest, behind = markOf base ++ digits ++ char ';' :: rest ∧ (base = 10 ∨ base = 16) ∧ Numeric base digits v ∧
      permitted v = true ∧ read = (markOf base ++ digits).length + 1 := by
  obtain ⟨base, based, word, shape⟩ := referenceBase_spec behind
  have in_range : (referenceBase behind).1 = 0 ∨ 2 ≤ (referenceBase behind).1 ∧ (referenceBase behind).1 ≤ 36 := by
    right
    rw [UInt64.le_iff_toNat_le, UInt64.le_iff_toNat_le, word]
    rcases based with rfl | rfl
    · exact ⟨by decide, by decide⟩
    · exact ⟨by decide, by decide⟩
  unfold characterReference at found
  dsimp only at found
  generalize (referenceBase behind).2 = string at shape found
  subst shape
  rcases strtoul_spec string in_range with ⟨negative, m, rest, longest, conversion⟩ | ⟨-, conversion⟩
  · rw [word] at longest
    rw [conversion] at found
    split at found
    · cases found
    · rename_i converted
      split at found
      · cases found
      · rename_i ended
        split at found
        · rename_i valid
          obtain ⟨spaces, sign, text, rfl, blank, signed, numeral⟩ := longest.1
          obtain ⟨tail, rfl⟩ := List.head?_eq_some_iff.mp (Decidable.not_not.mp ended)
          cases found
          refine ⟨base, spaces ++ sign ++ text, tail, (List.append_assoc _ _ _).symm, based, ⟨negative, m, ?_, ?_⟩, valid, ?_⟩
          · exact ⟨spaces, sign, text, (List.append_nil _).symm, blank, signed, numeral⟩
          · rw [UInt64.ofNat_toNat]
            refine Prod.ext rfl ?_
            exact Bool.eq_false_iff.mpr fun range => converted (.inr range)
          · simp only [List.length_append]
            omega
        · cases found
  · rw [conversion] at found
    rw [if_pos (.inl rfl)] at found
    cases found

theorem characterReference_error {behind : Bytes} {stop : UnescapeStop} (failed : characterReference lineNumber behind = .error stop) :
    ∃ line message text, stop = .parse line message text := by
  unfold characterReference unescapeError at failed
  dsimp only at failed
  split at failed
  · cases failed
    exact ⟨_, _, _, rfl⟩
  · split at failed
    · cases failed
      exact ⟨_, _, _, rfl⟩
    · split at failed
      · cases failed
      · cases failed
        exact ⟨_, _, _, rfl⟩

/-! ## Entities -/

theorem entities_apart : ∀ one ∈ entities, ∀ other ∈ entities, one.1 <+: other.1 → one = other := by decide

theorem entities_named : ∀ named ∈ entities, 0 < named.1.length ∧ named.1.head? ≠ some (char '#') ∧ named.2.toNat < 0x80 ∧
    0 ∉ named.1 ∧ named.2 ≠ 0 := by decide

theorem entities_unique {name name' rest rest' : Bytes} {c c' : UInt8} (known : (name, c) ∈ entities) (known' : (name', c') ∈ entities)
    (same : name ++ rest = name' ++ rest') : name = name' ∧ c = c' ∧ rest = rest' := by
  have equal : (name, c) = (name', c') := by
    rcases List.prefix_or_prefix_of_prefix (List.prefix_append name rest) (same ▸ List.prefix_append name' rest') with begins | begins
    · exact entities_apart _ known _ known' begins
    · exact (entities_apart _ known' _ known begins).symm
  cases equal
  exact ⟨rfl, rfl, List.append_cancel_left same⟩

theorem entity_unnumbered {name : Bytes} {c : UInt8} (known : (name, c) ∈ entities) (rest behind : Bytes) :
    name ++ rest ≠ char '#' :: behind := by
  obtain ⟨filled, unmarked, -⟩ := entities_named _ known
  obtain ⟨first, others, rfl⟩ := List.exists_cons_of_length_pos filled
  exact fun same => unmarked (congrArg some (List.cons.inj same).1)

theorem entity_spec (lineNumber : Int32) (behind : Bytes) :
    (∃ name c rest, (name, c) ∈ entities ∧ behind = name ++ rest ∧ entity lineNumber behind = .ok (c, name.length)) ∨
      ((∃ line message text, entity lineNumber behind = .error (.parse line message text)) ∧
        ∀ name c rest, (name, c) ∈ entities → behind ≠ name ++ rest) := by
  unfold entity
  cases found : entities.find? (·.1.isPrefixOf behind) with
  | some named =>
    have begins := List.find?_some found
    obtain ⟨rest, rfl⟩ := List.isPrefixOf_iff_prefix.mp begins
    exact .inl ⟨named.1, named.2, rest, List.mem_of_find?_eq_some found, rfl, rfl⟩
  | none =>
    right
    constructor
    · dsimp only
      split
      · exact ⟨_, _, _, rfl⟩
      · split
        · exact ⟨_, _, _, rfl⟩
        · exact ⟨_, _, _, rfl⟩
    · rintro name c rest known rfl
      have missing := List.find?_eq_none.mp found _ known
      exact missing (List.isPrefixOf_iff_prefix.mpr (List.prefix_append name rest))

/-! ## One turn -/

section Turns

variable {normalizeAttribute : Bool}

/-- The first bytes of a string stand for a piece of the text, whatever follows. -/
structure Turn (normalizeAttribute : Bool) (string : Bytes) (count : Nat) (piece : Bytes) : Prop where
  read : 0 < count ∧ count ≤ string.length
  forth : ∀ text, Unescapes Numeric normalizeAttribute (string.drop count) text →
    Unescapes Numeric normalizeAttribute string (piece ++ text)
  back : ∀ text, Unescapes Numeric normalizeAttribute string text →
    ∃ rest, Unescapes Numeric normalizeAttribute (string.drop count) rest ∧ text = piece ++ rest

theorem turn_plain {c : UInt8} {behind : Bytes} (other : c ≠ char '&') (single : ¬(c = char '\r' ∧ behind.head? = some (char '\n'))) :
    Turn normalizeAttribute (c :: behind) 1 [copied normalizeAttribute c] where
  read := ⟨Nat.zero_lt_one, Nat.succ_le_succ (Nat.zero_le _)⟩
  forth := fun _ rest => .plain other (fun same next => single ⟨same, next⟩) rest
  back := by
    intro text unescapes
    cases unescapes with
    | plain _ _ rest => exact ⟨_, rest, rfl⟩
    | lineEnd rest => exact absurd ⟨rfl, rfl⟩ single
    | named known rest => exact absurd rfl other
    | numbered based read valid rest => exact absurd rfl other

theorem turn_lineEnd (behind : Bytes) :
    Turn normalizeAttribute (char '\r' :: char '\n' :: behind) 2 [copied normalizeAttribute (char '\r')] where
  read := ⟨Nat.zero_lt_succ _, Nat.succ_le_succ (Nat.succ_le_succ (Nat.zero_le _))⟩
  forth := fun _ rest => .lineEnd rest
  back := by
    intro text unescapes
    generalize shape : char '\r' :: char '\n' :: behind = string at unescapes
    cases unescapes with
    | nil => cases shape
    | plain other single rest =>
      cases shape
      exact absurd rfl (single rfl)
    | lineEnd rest =>
      cases shape
      exact ⟨_, rest, rfl⟩
    | named known rest => exact absurd (List.cons.inj shape).1 (by decide)
    | numbered based read valid rest => exact absurd (List.cons.inj shape).1 (by decide)

theorem turn_named {name : Bytes} {c : UInt8} (known : (name, c) ∈ entities) (behind : Bytes) :
    Turn normalizeAttribute (char '&' :: (name ++ behind)) (1 + name.length) [c] where
  read := by
    rw [List.length_cons, List.length_append]
    omega
  forth := by
    intro text rest
    rw [Nat.add_comm, List.drop_succ_cons, List.drop_left] at rest
    exact .named known rest
  back := by
    intro text unescapes
    rw [Nat.add_comm, List.drop_succ_cons, List.drop_left]
    generalize shape : char '&' :: (name ++ behind) = string at unescapes
    cases unescapes with
    | nil => cases shape
    | plain other single rest => exact absurd (List.cons.inj shape).1.symm other
    | lineEnd rest => exact absurd (List.cons.inj shape).1 (by decide)
    | named known' rest =>
      obtain ⟨-, rfl, rfl⟩ := entities_unique known known' (List.cons.inj shape).2
      exact ⟨_, rest, rfl⟩
    | numbered based read valid rest => exact absurd (List.cons.inj shape).2 (entity_unnumbered known _ _)

theorem turn_numbered {base : Nat} {digits : Bytes} {v : Nat} (based : base = 10 ∨ base = 16) (read : Numeric base digits v)
    (valid : permitted v = true) (behind : Bytes) :
    Turn normalizeAttribute (char '&' :: char '#' :: (markOf base ++ digits ++ char ';' :: behind))
      (2 + ((markOf base ++ digits).length + 1)) (utf8 v) := by
  have cut : ∀ (front : Bytes) (string : Bytes),
      (char '&' :: char '#' :: (front ++ char ';' :: string)).drop (2 + (front.length + 1)) = string := by
    intro front string
    rw [Nat.add_comm, List.drop_succ_cons, List.drop_succ_cons, ← List.drop_drop, List.drop_left]
    rfl
  constructor
  · simp only [List.length_cons, List.length_append]
    omega
  · intro text rest
    rw [cut] at rest
    exact .numbered based read valid rest
  · intro text unescapes
    rw [cut]
    generalize shape : char '&' :: char '#' :: (markOf base ++ digits ++ char ';' :: behind) = string at unescapes
    cases unescapes with
    | nil => cases shape
    | plain other single rest => exact absurd (List.cons.inj shape).1.symm other
    | lineEnd rest => exact absurd (List.cons.inj shape).1 (by decide)
    | named known rest => exact absurd (List.cons.inj shape).2.symm (entity_unnumbered known _ _)
    | numbered based' read' valid' rest =>
      rename_i base' digits' v' string text
      -- the two references are read by the same call
      have same := (List.cons.inj (List.cons.inj shape).2).2
      have one := @characterReference_numeric 0 _ _ _ based read valid behind
      have other := @characterReference_numeric 0 _ _ _ based' read' valid' string
      rw [same, other] at one
      have equal := Prod.mk.inj (Except.ok.inj one)
      obtain ⟨rfl, lengths⟩ := equal
      have tails := (List.append_inj same (by omega)).2
      cases tails
      exact ⟨_, rest, rfl⟩

/-- An ampersand that begins nothing. -/
theorem no_turn {behind : Bytes} (unnamed : ∀ name c rest, (name, c) ∈ entities → behind ≠ name ++ rest)
    (unnumbered : ∀ base digits v rest, (base = 10 ∨ base = 16) → Numeric base digits v → permitted v = true →
      behind ≠ char '#' :: (markOf base ++ digits ++ char ';' :: rest)) (text : Bytes) :
    ¬Unescapes Numeric normalizeAttribute (char '&' :: behind) text := by
  intro unescapes
  generalize shape : char '&' :: behind = string at unescapes
  cases unescapes with
  | nil => cases shape
  | plain other single rest => exact absurd (List.cons.inj shape).1.symm other
  | lineEnd rest => exact absurd (List.cons.inj shape).1 (by decide)
  | named known rest => exact unnamed _ _ _ known (List.cons.inj shape).2
  | numbered based read valid rest => exact unnumbered _ _ _ _ based read valid (List.cons.inj shape).2

end Turns

/-! ## The mask -/

theorem high_bit (b : UInt8) : b &&& 0x80 = 0 ↔ b.toNat < 0x80 := by
  have bits : ∀ n < 256, n &&& 0x80 = 0 ↔ n < 0x80 := by decide +kernel
  rw [← UInt8.toNat_inj, UInt8.toNat_and]
  exact bits _ b.toNat_lt

theorem mask_or (mask b : UInt8) : (mask ||| b) &&& 0x80 = 0 ↔ mask &&& 0x80 = 0 ∧ b.toNat < 0x80 := by
  have each : ∀ b : UInt8, b &&& 0x80 = 0 ↔ b.toNat &&& 0x80 = 0 := by
    intro b
    rw [← UInt8.toNat_inj, UInt8.toNat_and]
    rfl
  rw [← high_bit b, each, each mask, each b, UInt8.toNat_or, Nat.and_or_distrib_right, Nat.or_eq_zero_iff]

theorem copied_ascii (normalizeAttribute : Bool) (c : UInt8) : (copied normalizeAttribute c).toNat < 0x80 ↔ c.toNat < 0x80 := by
  unfold copied
  split
  · rename_i blank
    simp only [Bool.and_eq_true, Bool.or_eq_true, decide_eq_true_eq] at blank
    rcases blank.2 with rfl | rfl
    · exact iff_of_true (by decide) (by decide)
    · exact iff_of_true (by decide) (by decide)
  · split
    · rename_i ended
      rw [ended]
      split
      · decide
      · decide
    · exact Iff.rfl

theorem utf8_ascii (below : v < 0x110000) : (∀ b ∈ utf8 v, b.toNat < 0x80) ↔ v < 0x80 := by
  by_cases one : v < 0x80
  · rw [utf8_one one]
    simp [one, Nat.mod_eq_of_lt (show v < 256 by omega)]
  · refine iff_of_false ?_ one
    intro ascii
    by_cases two : v < 0x800
    · rw [utf8_two (by omega) two] at ascii
      have first := ascii _ List.mem_cons_self
      rw [toNat_byte (by omega)] at first
      omega
    · by_cases three : v < 0x10000
      · rw [utf8_three (by omega) three] at ascii
        have first := ascii _ List.mem_cons_self
        rw [toNat_byte (by omega)] at first
        omega
      · rw [utf8_four (by omega)] at ascii
        have first := ascii _ List.mem_cons_self
        rw [toNat_byte (by omega)] at first
        omega

/-! ## The loop -/

section Loop

variable {normalizeAttribute : Bool}

/-- The loop puts the one text that the string stands for behind what is written, and not beyond the string; or it ends
in an error, and the string stands for no text. -/
def Outcome (normalizeAttribute : Bool) (string buffer : Bytes) (source target : Nat) (mask : UInt8)
    (result : Except UnescapeStop (Bytes × Nat × UInt8)) : Prop :=
  (∃ text stored mask', result = .ok (stored, target + text.length, mask') ∧ Unescapes Numeric normalizeAttribute string text ∧
      (∀ other, Unescapes Numeric normalizeAttribute string other → other = text) ∧
      stored.take (target + text.length) = buffer.take target ++ text ∧ target + text.length ≤ source + string.length ∧
      (mask' &&& 0x80 = 0 ↔ mask &&& 0x80 = 0 ∧ ∀ b ∈ text, b.toNat < 0x80)) ∨
    ((∃ line message named, result = .error (.parse line message named)) ∧
      ∀ text, ¬Unescapes Numeric normalizeAttribute string text)

theorem Turn.outcome {string buffer stored piece : Bytes} {source target count : Nat} {mask mask' : UInt8}
    {result : Except UnescapeStop (Bytes × Nat × UInt8)} (turn : Turn normalizeAttribute string count piece)
    (wrote : stored.take (target + piece.length) = buffer.take target ++ piece)
    (masked : mask' &&& 0x80 = 0 ↔ mask &&& 0x80 = 0 ∧ ∀ b ∈ piece, b.toNat < 0x80)
    (later : Outcome normalizeAttribute (string.drop count) stored (source + count) (target + piece.length) mask' result) :
    Outcome normalizeAttribute string buffer source target mask result := by
  have read := turn.read
  rcases later with ⟨text, final, mask'', done, unescapes, only, written, bounded, ascii⟩ | ⟨failed, nothing⟩
  · left
    refine ⟨piece ++ text, final, mask'', ?_, turn.forth text unescapes, ?_, ?_, ?_, ?_⟩
    · rw [done, List.length_append, Nat.add_assoc]
    · intro other unescapes'
      obtain ⟨rest, later, rfl⟩ := turn.back other unescapes'
      rw [only rest later]
    · rw [List.length_append, ← Nat.add_assoc, written, wrote, List.append_assoc]
    · rw [List.length_append]
      rw [List.length_drop] at bounded
      omega
    · rw [ascii, masked, List.forall_mem_append, and_assoc]
  · right
    refine ⟨failed, ?_⟩
    intro text unescapes
    obtain ⟨rest, later, -⟩ := turn.back text unescapes
    exact nothing rest later

theorem unescapeLoop_spec (lineNumber : Int32) (fuel : Nat) {buffer : Bytes} {source target : Nat} (mask : UInt8)
    (behind : target ≤ source) (ended : source + (cString (buffer.drop source)).length < buffer.length)
    (enough : (cString (buffer.drop source)).length < fuel) :
    Outcome normalizeAttribute (cString (buffer.drop source)) buffer source target mask
      (unescapeLoop normalizeAttribute lineNumber fuel buffer source target mask) := by
  induction fuel generalizing buffer source target mask with
  | zero => omega
  | succ fuel ih =>
    have later : ∀ {stored : Bytes} {count : Nat}, stored.length = buffer.length →
        stored.drop (source + count) = buffer.drop (source + count) → count ≤ (cString (buffer.drop source)).length →
        cString (stored.drop (source + count)) = (cString (buffer.drop source)).drop count := by
      intro stored count _ same within
      rw [same, ← List.drop_drop]
      exact cString_drop within
    rw [unescapeLoop]
    cases string : cString (buffer.drop source) with
    | nil =>
      left
      refine ⟨[], buffer, mask, rfl, .nil, ?_, by simp, by simpa using behind, by simp⟩
      intro other unescapes
      cases unescapes
      rfl
    | cons c rest =>
      rw [string] at ended enough later
      simp only [List.length_cons] at ended enough
      obtain ⟨copy, copied_ok, same_length, same_rest, wrote⟩ :=
        @put_ok buffer [copied normalizeAttribute c] (source + 1) target (Nat.succ_le_succ behind) (by omega)
      have front : copy.take target = buffer.take target := by
        have taken := congrArg (List.take target) wrote
        rw [List.take_take, List.length_singleton, Nat.min_eq_left (Nat.le_succ target),
          List.take_append_of_le_length (by rw [List.length_take]; omega), List.take_take, Nat.min_self] at taken
        exact taken
      have unread : cString (copy.drop (source + 1)) = rest := later same_length same_rest (Nat.succ_le_succ (Nat.zero_le _))
      dsimp only
      rw [copied_ok]
      change Outcome _ _ _ _ _ _ (if c = char '\r' ∧ (cString (copy.drop (source + 1))).head? = some (char '\n') then _ else _)
      rw [unread]
      -- what follows the turn, from the state that the turn leaves
      have next : ∀ {stored piece : Bytes} {count : Nat} {mask' : UInt8}, Turn normalizeAttribute (c :: rest) count piece →
          stored.length = buffer.length → stored.drop (source + count) = buffer.drop (source + count) →
          stored.take (target + piece.length) = buffer.take target ++ piece → target + piece.length ≤ source + count →
          (mask' &&& 0x80 = 0 ↔ mask &&& 0x80 = 0 ∧ ∀ b ∈ piece, b.toNat < 0x80) →
          Outcome normalizeAttribute (c :: rest) buffer source target mask
            (unescapeLoop normalizeAttribute lineNumber fuel stored (source + count) (target + piece.length) mask') := by
        intro stored piece count mask' turn length same_drop written room masked
        have read := turn.read
        have follows := later length same_drop read.2
        rw [List.length_cons] at read
        refine turn.outcome written masked ?_
        rw [← follows]
        apply ih mask' room
        · rw [follows, List.length_drop, List.length_cons, length]
          omega
        · rw [follows, List.length_drop, List.length_cons]
          omega
      have moved : ∀ k, copy.drop (source + (1 + k)) = buffer.drop (source + (1 + k)) := by
        intro k
        rw [← Nat.add_assoc, ← List.drop_drop, same_rest, List.drop_drop]
      have copied_mask : (mask ||| c) &&& 0x80 = 0 ↔ mask &&& 0x80 = 0 ∧ ∀ b ∈ [copied normalizeAttribute c], b.toNat < 0x80 := by
        rw [mask_or, List.forall_mem_singleton, copied_ascii]
      by_cases line_end : c = char '\r' ∧ rest.head? = some (char '\n')
      · obtain ⟨rfl, newline⟩ := line_end
        obtain ⟨rest, rfl⟩ := List.head?_eq_some_iff.mp newline
        exact next (turn_lineEnd rest) same_length (moved 1) wrote (by rw [List.length_singleton]; omega) copied_mask
      · rw [if_neg line_end]
        by_cases ampersand : c = char '&'
        · subst ampersand
          have ascii : (mask ||| char '&') &&& 0x80 = 0 ↔ mask &&& 0x80 = 0 := by
            rw [mask_or]
            exact and_iff_left (by decide)
          -- a store over the copied ampersand
          have overwrite : ∀ {count : Nat} {bytes : Bytes}, target + bytes.length ≤ source + count → source + count ≤ buffer.length →
              1 ≤ count → ∃ stored, put copy (source + count) target bytes = .ok stored ∧ stored.length = buffer.length ∧
                stored.drop (source + count) = buffer.drop (source + count) ∧
                stored.take (target + bytes.length) = buffer.take target ++ bytes := by
            intro count bytes room inside some_read
            obtain ⟨stored, did, length, unchanged, written⟩ := put_ok room (same_length.symm ▸ inside)
            obtain ⟨k, rfl⟩ := Nat.exists_eq_add_of_le some_read
            exact ⟨stored, did, length.trans same_length, unchanged.trans (moved k), written.trans (by rw [front])⟩
          by_cases numeric : rest.head? = some (char '#')
          · rw [if_pos numeric]
            obtain ⟨rest, rfl⟩ := List.head?_eq_some_iff.mp numeric
            rw [List.tail_cons]
            cases reference : characterReference lineNumber rest with
            | error stop =>
              obtain ⟨line, message, named, rfl⟩ := characterReference_error reference
              refine .inr ⟨⟨line, message, named, rfl⟩, ?_⟩
              apply no_turn
              · exact fun name c' rest' known same => entity_unnumbered known _ _ same.symm
              · intro base digits v rest' based read valid same
                rw [(List.cons.inj same).2, characterReference_numeric based read valid] at reference
                cases reference
            | ok found =>
              obtain ⟨v, read⟩ := found
              obtain ⟨base, digits, rest', rfl, based, numeral, valid, rfl⟩ := characterReference_ok reference
              have bound := length_utf8_numeric based valid numeral
              have below := (permitted_lt valid).1
              simp only [List.length_cons, List.length_append] at ended bound
              obtain ⟨stored, did, length, unchanged, written⟩ := @overwrite (2 + ((markOf base ++ digits).length + 1)) (utf8 v ++ [0])
                (by simp only [List.length_append, List.length_singleton]; omega)
                (by simp only [List.length_append]; omega) (by omega)
              change Outcome _ _ _ _ _ _ ((put copy (source + 2 + ((markOf base ++ digits).length + 1)) target
                (xunicharToUtf8 v ++ [0])).bind fun stored => _)
              rw [xunicharToUtf8_eq below, Nat.add_assoc source 2, did]
              refine next (turn_numbered based numeral valid rest') length unchanged ?_ ?_ ?_
              · have taken := congrArg (List.take (target + (utf8 v).length)) written
                rw [List.take_take, List.length_append, ← Nat.add_assoc, Nat.min_eq_left (Nat.le_add_right _ _), ← List.append_assoc] at taken
                rw [taken]
                apply List.take_left'
                rw [List.length_append, List.length_take]
                omega
              · simp only [List.length_append]
                omega
              · rw [utf8_ascii below, mask_or, ascii]
                refine and_congr_right fun _ => ?_
                split
                · exact iff_of_false (by decide) (by omega)
                · exact iff_of_true (by decide) (by omega)
          · rw [if_neg numeric]
            rcases entity_spec lineNumber rest with ⟨name, character, rest', known, rfl, found⟩ | ⟨⟨line, message, named, failed⟩, unknown⟩
            · rw [found]
              rw [List.length_append] at ended
              obtain ⟨stored, did, length, unchanged, written⟩ := @overwrite (1 + name.length) [character]
                (by rw [List.length_singleton]; omega) (by omega) (by omega)
              change Outcome _ _ _ _ _ _ ((put copy (source + 1 + name.length) target [character]).bind fun stored => _)
              rw [Nat.add_assoc source 1, did]
              refine next (turn_named known rest') length unchanged written (by rw [List.length_singleton]; omega) ?_
              rw [ascii, List.forall_mem_singleton]
              exact (and_iff_left (entities_named _ known).2.2.1).symm
            · rw [failed]
              refine .inr ⟨⟨line, message, named, rfl⟩, ?_⟩
              apply no_turn unknown
              intro base digits v rest' based read valid same
              rw [same] at numeric
              exact numeric rfl
        · rw [if_neg ampersand]
          exact next (turn_plain ampersand line_end) same_length (moved 0) wrote (by rw [List.length_singleton]; omega) copied_mask

end Loop

/-! ## The function -/

section Function
variable {string text : Bytes}
variable {normalizeAttribute : Bool}

theorem cString_terminated (string : Bytes) : cString (string ++ [0]) = cString string := by
  obtain ⟨junk, shape⟩ := exists_terminated string
  rw [shape]
  exact cString_append (not_mem_cString string) junk

/-- The function succeeds with the one text that the string stands for up to its first NUL, or fails with an error. -/
theorem unescapeXstringInplace_spec (normalizeAttribute : Bool) (lineNumber : Int32) (string : Bytes) :
    (∃ text, unescapeXstringInplace normalizeAttribute lineNumber string = .ok (text, text.all (·.toNat < 0x80)) ∧
        Unescapes Numeric normalizeAttribute (cString string) text ∧
        ∀ other, Unescapes Numeric normalizeAttribute (cString string) other → other = text) ∨
      ((∃ line message named, unescapeXstringInplace normalizeAttribute lineNumber string = .error (.parse line message named)) ∧
        ∀ text, ¬Unescapes Numeric normalizeAttribute (cString string) text) := by
  have short : (cString string).length ≤ string.length := (List.takeWhile_prefix _).length_le
  have outcome := @unescapeLoop_spec normalizeAttribute lineNumber (string.length + 1) (string ++ [0]) 0 0 0 (Nat.le_refl 0)
    (by rw [List.drop_zero, cString_terminated, List.length_append, List.length_singleton]; omega)
    (by rw [List.drop_zero, cString_terminated]; omega)
  rw [List.drop_zero, cString_terminated] at outcome
  unfold unescapeXstringInplace
  rcases outcome with ⟨text, stored, mask, done, unescapes, only, written, bounded, ascii⟩ | ⟨⟨line, message, named, failed⟩, nothing⟩
  · refine .inl ⟨text, ?_, unescapes, only⟩
    simp only [Nat.zero_add, List.take_zero, List.nil_append] at done written bounded ascii
    rw [done]
    change (if text.length ≤ string.length then Except.ok (stored.take text.length, decide (mask &&& 0x80 = 0)) else _) = _
    rw [if_pos (by omega), written]
    congr 2
    rw [Bool.eq_iff_iff, decide_eq_true_eq, List.all_eq_true]
    simpa only [decide_eq_true_eq] using ascii.trans (and_iff_right rfl)
  · rw [failed]
    exact .inr ⟨⟨line, message, named, rfl⟩, nothing⟩

/-- What is written with digits only is read. -/
theorem Unescapes.numeric (unescapes : Unescapes Digits normalizeAttribute string text) :
    Unescapes Numeric normalizeAttribute string text := by
  induction unescapes with
  | nil => exact .nil
  | plain other single _ ih => exact .plain other single ih
  | lineEnd _ ih => exact .lineEnd ih
  | named known _ ih => exact .named known ih
  | numbered based read valid _ ih => exact .numbered based (numeric_of_digits based valid read) valid ih

theorem copied_zero (c : UInt8) : copied normalizeAttribute c = 0 ↔ c = 0 := by
  unfold copied
  split
  · rename_i blank
    simp only [Bool.and_eq_true, Bool.or_eq_true, decide_eq_true_eq] at blank
    rcases blank.2 with rfl | rfl
    · exact iff_of_false (by decide) (by decide)
    · exact iff_of_false (by decide) (by decide)
  · split
    · rename_i ended
      rw [ended]
      split
      · decide
      · decide
    · exact Iff.rfl

/-- No NUL comes from elsewhere. -/
theorem Unescapes.zero_string {reading : Reading} (unescapes : Unescapes reading normalizeAttribute string text)
    (zero : 0 ∈ text) : 0 ∈ string := by
  induction unescapes with
  | nil => exact zero
  | plain _ _ _ ih =>
    rcases List.mem_cons.mp zero with first | later
    · exact List.mem_cons.mpr (.inl ((copied_zero _).mp first.symm).symm)
    · exact List.mem_cons_of_mem _ (ih later)
  | lineEnd _ ih =>
    rcases List.mem_cons.mp zero with first | later
    · exact absurd ((copied_zero _).mp first.symm) (by decide)
    · exact List.mem_cons_of_mem _ (List.mem_cons_of_mem _ (ih later))
  | named known _ ih =>
    rcases List.mem_cons.mp zero with first | later
    · exact absurd first.symm (entities_named _ known).2.2.2.2
    · exact List.mem_cons_of_mem _ (List.mem_append_right _ (ih later))
  | numbered _ _ valid _ ih =>
    rcases List.mem_append.mp zero with first | later
    · have range := utf8_byte (permitted_scalar valid) (permitted_lt valid).2 first
      exact absurd range.1 (by decide)
    · simp [ih later]

/-- Every NUL is represented. -/
theorem Unescapes.zero_text (unescapes : Unescapes Digits normalizeAttribute string text)
    (zero : 0 ∈ string) : 0 ∈ text := by
  -- no reference is spelled with a zero, so the zero was copied
  induction unescapes with
  | nil => exact zero
  | plain _ _ _ ih =>
    rcases List.mem_cons.mp zero with first | later
    · exact List.mem_cons.mpr (.inl ((copied_zero _).mpr first.symm).symm)
    · exact List.mem_cons_of_mem _ (ih later)
  | lineEnd _ ih =>
    simp only [List.mem_cons] at zero
    rcases zero with first | second | later
    · exact absurd first (by decide)
    · exact absurd second (by decide)
    · exact List.mem_cons_of_mem _ (ih later)
  | named known _ ih =>
    simp only [List.mem_cons, List.mem_append] at zero
    rcases zero with first | inside | later
    · exact absurd first (by decide)
    · exact absurd inside (entities_named _ known).2.2.2.1
    · exact List.mem_cons_of_mem _ (ih later)
  | numbered based read _ _ ih =>
    simp only [List.mem_cons, List.mem_append] at zero
    rcases zero with first | second | (mark | digit) | last | later
    · exact absurd first (by decide)
    · exact absurd second (by decide)
    · unfold markOf at mark
      split at mark
      · exact absurd mark (by decide)
      · cases mark
    · have range := isDigitOf_range ((wholeNumeral_eq_some.mp read).2.1 _ digit)
      exact absurd range (by decide)
    · exact absurd last (by decide)
    · exact List.mem_append_right _ (ih later)

/-- No store reaches a byte that has not been read, and the length never grows. What is accepted stands for its text
byte for byte unless the string has a NUL behind acceptable text, or a number in a reference that is not of digits
only. -/
theorem unescaping_strict_iff (normalizeAttribute : Bool) (lineNumber : Int32) (string : Bytes) :
    ((∃ text ascii, unescapeXstringInplace normalizeAttribute lineNumber string = .ok (text, ascii)) ∨
      ∃ line message named, unescapeXstringInplace normalizeAttribute lineNumber string = .error (.parse line message named)) ∧
    ((∀ text ascii, unescapeXstringInplace normalizeAttribute lineNumber string = .ok (text, ascii) →
        Unescapes Digits normalizeAttribute string text) ↔
      (∀ text, ¬Unescapes Numeric normalizeAttribute (cString string) text) ∨
        0 ∉ string ∧ ∃ text, Unescapes Digits normalizeAttribute string text) := by
  rcases unescapeXstringInplace_spec normalizeAttribute lineNumber string with
    ⟨text, done, unescapes, only⟩ | ⟨failed, nothing⟩
  · refine ⟨.inl ⟨text, _, done⟩, ?_⟩
    constructor
    · intro strict
      have digits := strict text _ done
      refine .inr ⟨?_, text, digits⟩
      intro zero
      exact not_mem_cString string (unescapes.zero_string (digits.zero_text zero))
    · rintro (nothing | ⟨clean, other, digits⟩) found ascii done'
      · exact absurd unescapes (nothing text)
      · rw [cString_clean clean] at only
        cases done'.symm.trans done
        rwa [only other digits.numeric] at digits
  · refine ⟨.inr failed, iff_of_true ?_ (.inl nothing)⟩
    intro text ascii done
    obtain ⟨line, message, named, failed⟩ := failed
    cases done.symm.trans failed

/-- White space, a sign or a prefix before the digits is accepted, and what stands behind a NUL is dropped. -/
theorem unescaping_not_strict :
    unescapeXstringInplace false 1 ("&# 65;".toList.map char) = .ok ([char 'A'], true) ∧
      unescapeXstringInplace false 1 ("&#x0x41;".toList.map char) = .ok ([char 'A'], true) ∧
      unescapeXstringInplace false 1 [char 'a', 0, char 'b'] = .ok ([char 'a'], true) ∧
      ¬Unescapes Digits false ("&# 65;".toList.map char) [char 'A'] ∧
      ¬Unescapes Digits false [char 'a', 0, char 'b'] [char 'a'] := by
  refine ⟨by decide, by decide, by decide, ?_, ?_⟩
  · intro strict
    generalize shape : "&# 65;".toList.map char = string at strict
    generalize [char 'A'] = text at strict
    cases strict with
    | nil => cases shape
    | plain other single rest => exact absurd (List.cons.inj shape).1.symm other
    | lineEnd rest => exact absurd (List.cons.inj shape).1 (by decide)
    | named known rest =>
      obtain ⟨filled, unmarked, -⟩ := entities_named _ known
      obtain ⟨first, others, rfl⟩ := List.exists_cons_of_length_pos filled
      exact absurd (congrArg some (List.cons.inj (List.cons.inj shape).2).1.symm) unmarked
    | numbered based read valid rest =>
      have behind := (List.cons.inj (List.cons.inj shape).2).2
      obtain ⟨filled, digit, -⟩ := wholeNumeral_eq_some.mp read
      obtain ⟨first, others, rfl⟩ := List.exists_cons_of_ne_nil filled
      rcases based with rfl | rfl
      · -- the first digit would be the space
        have space : char ' ' = first := (List.cons.inj behind).1
        have held := digit first List.mem_cons_self
        rw [← space] at held
        exact absurd held (by decide)
      · exact absurd (List.cons.inj behind).1 (by decide)
  · intro strict
    exact absurd (strict.zero_text (by decide)) (by decide)

end Function

end Xpl.Markup
