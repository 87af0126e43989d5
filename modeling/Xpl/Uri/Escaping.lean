import Xpl.Text.Exactness
import Xpl.Uri.DotSegments

/-! Percent-encoding of guri.c: the decoder with its flags, the encoder, and the functions
that escape and unescape strings and bytes. -/

set_option autoImplicit false

namespace Xpl.Uri
open Xpl.Library Xpl.Text
variable {allowed : Option Bytes}

def percent : UInt8 := 37

/-! ## Characters -/

def xuriCharIsUnreserved (c : UInt8) : Bool := asciiIsalnum c || c = 45 || c = 46 || c = 95 || c = 126

def xdigit (c : UInt8) : UInt8 := if c ≤ 57 then c - 48 else (c &&& 0x4f) - 65 + 10

def hexchar (high low : UInt8) : UInt8 := (xdigit high <<< 4) + xdigit low

def hexDigit (value : UInt8) : UInt8 := if value < 10 then 48 + value else 55 + value

/-- The flags that the decoder looks at. -/
structure XuriFlags where
  parseRelaxed : Bool
  encoded : Bool
  deriving DecidableEq, Repr

/-! ## The decoder -/

inductive UriDecodeError where
  | invalidEncoding
  | illegalCharacter
  | nonUtf8
  deriving DecidableEq, Repr

section Decoder
variable (illegalChars : Option Bytes) (justNormalize wwwForm : Bool) (flags : XuriFlags)

def decodedEscape (high low : UInt8) : Bytes :=
  if justNormalize && !xuriCharIsUnreserved (hexchar high low) then [percent, asciiToupper high, asciiToupper low]
  else [hexchar high low]

def decodedByte (s : UInt8) : Except UriDecodeError Bytes :=
  if s = percent then if flags.parseRelaxed then .ok [s] else .error .invalidEncoding
  else if wwwForm && s = 43 then .ok [32]
  else if justNormalize && !asciiIsgraph s then .ok [percent, hexDigit (s >>> 4), hexDigit (s &&& 0xf)]
  else .ok [s]

def uriDecoderLoop : Bytes → Except UriDecodeError Bytes
  | [] => .ok []
  | s :: high :: low :: after => do
    if s = percent && asciiIsxdigit high && asciiIsxdigit low then
      if illegalChars.any (strchr · (hexchar high low)) then throw .illegalCharacter
      return decodedEscape justNormalize high low ++ (← uriDecoderLoop after)
    else return (← decodedByte justNormalize wwwForm flags s) ++ (← uriDecoderLoop (high :: low :: after))
  | s :: rest => return (← decodedByte justNormalize wwwForm flags s) ++ (← uriDecoderLoop rest)

def uriDecoder (bytes : Bytes) : Except UriDecodeError Bytes := do
  let decoded ← uriDecoderLoop illegalChars (justNormalize && flags.encoded) wwwForm flags bytes
  if !flags.encoded && !(xutf8ValidateBounded decoded).any Prod.fst then throw .nonUtf8
  return decoded

end Decoder

/-! ## The encoder -/

section Encoder
variable (reservedCharsAllowed : Option Bytes)

def isValid (c : UInt8) : Bool := xuriCharIsUnreserved c || reservedCharsAllowed.any (strchr · c)

def multibyteUtf8Char (allowUtf8 : Bool) (p : UInt8) (rest : Bytes) : Option Nat :=
  if allowUtf8 && 0x80 ≤ p then xutf8GetCharValidated (p :: rest) 0 (some (rest.length + 1)) else some 0

/-- The loop of the encoder; `none` where it would read outside of its input. -/
def uriEncoderLoop (allowUtf8 : Bool) : Nat → Bytes → Option Bytes
  | 0, _ => none
  | _ + 1, [] => some []
  | fuel + 1, p :: rest => do
    let c ← multibyteUtf8Char allowUtf8 p rest
    if 0 < c ∧ c ≠ malformedSequence ∧ c ≠ partialSequence then
      let len := utf8Skip p
      if rest.length + 1 < len then none
      else (uriEncoderLoop allowUtf8 fuel ((p :: rest).drop len)).map ((p :: rest).take len ++ ·)
    else if isValid reservedCharsAllowed p then (uriEncoderLoop allowUtf8 fuel rest).map (p :: ·)
    else (uriEncoderLoop allowUtf8 fuel rest).map (percent :: hexDigit (p >>> 4) :: hexDigit (p &&& 0xf) :: ·)

def uriEncoder (allowUtf8 : Bool) (bytes : Bytes) : Option Bytes :=
  uriEncoderLoop reservedCharsAllowed allowUtf8 (bytes.length + 1) bytes

end Encoder

/-! ## Strings and bytes -/

def unescapeFlags : XuriFlags := { parseRelaxed := false, encoded := true }

def bounded (string : Bytes) : Option Nat → Bytes
  | none => cString string
  | some length => string.take length

/-- The buffer that is returned ends where the C string in it does. -/
def xuriEscapeBytes (unescaped : Bytes) (reservedCharsAllowed : Option Bytes) : Option Bytes :=
  uriEncoder reservedCharsAllowed false unescaped

def xuriEscapeString (unescaped : Bytes) (reservedCharsAllowed : Option Bytes) (allowUtf8 : Bool) : Option Bytes :=
  uriEncoder reservedCharsAllowed allowUtf8 (cString unescaped)

def xuriUnescapeBytes (escapedString : Bytes) (length : Option Nat) (illegalCharacters : Option Bytes) :
    Except UriDecodeError Bytes :=
  uriDecoder illegalCharacters false false unescapeFlags (bounded escapedString length)

def xuriUnescapeSegment (escapedString : Option Bytes) (length : Option Nat) (illegalCharacters : Option Bytes) :
    Option Bytes := do
  let string ← escapedString
  let unescaped ←
    (uriDecoder illegalCharacters false false unescapeFlags (bounded string length)).toOption
  if unescaped.contains 0 then none else return unescaped

def xuriUnescapeString (escapedString illegalCharacters : Option Bytes) : Option Bytes :=
  xuriUnescapeSegment escapedString none illegalCharacters

/-! Percent-encoding loses nothing, and what strict decoding refuses. -/

/-! ## Strict decoding -/

def hexValue (c : UInt8) : Option UInt8 :=
  if 48 ≤ c ∧ c ≤ 57 then some (c - 48)
  else if 65 ≤ c ∧ c ≤ 70 then some (c - 55)
  else if 97 ≤ c ∧ c ≤ 102 then some (c - 87)
  else none

/-- The byte that two hex digits at the front stand for. -/
def hexPair : Bytes → Option UInt8
  | high :: low :: _ => do return 16 * (← hexValue high) + (← hexValue low)
  | _ => none

/-- Some percent sign is followed by `fault`. -/
def PercentSign (fault : Option UInt8 → Prop) (string : Bytes) : Prop :=
  ∃ front rest, string = front ++ percent :: rest ∧ fault (hexPair rest)

/-- Some percent sign is not followed by two hex digits. -/
def Malformed (string : Bytes) : Prop := PercentSign (· = none) string

def Escapes (string : Bytes) (byte : UInt8) : Prop := PercentSign (· = some byte) string

def EscapesListed (string : Bytes) (illegal : Option Bytes) : Prop :=
  ∃ characters ∈ illegal, ∃ byte ∈ cString characters, Escapes string byte

theorem percentSign_nil (fault : Option UInt8 → Prop) : ¬PercentSign fault [] := by
  rintro ⟨front, rest, shape, -⟩
  simp at shape

theorem percentSign_cons {fault : Option UInt8 → Prop} {c : UInt8} {rest : Bytes} :
    PercentSign fault (c :: rest) ↔ c = percent ∧ fault (hexPair rest) ∨ PercentSign fault rest := by
  constructor
  · rintro ⟨front, after, shape, found⟩
    cases front with
    | nil =>
      obtain ⟨rfl, rfl⟩ := List.cons.inj shape
      exact Or.inl ⟨rfl, found⟩
    | cons _ front =>
      obtain ⟨rfl, rfl⟩ := List.cons.inj shape
      exact Or.inr ⟨front, after, rfl, found⟩
  · rintro (⟨rfl, found⟩ | ⟨front, after, rfl, found⟩)
    · exact ⟨[], rest, rfl, found⟩
    · exact ⟨c :: front, after, rfl, found⟩

/-- A byte as a digit, and the digits of a byte. -/
def HexFacts (c : UInt8) : Prop :=
  hexValue c = (if asciiIsxdigit c then some (xdigit c) else none) ∧ c <<< 4 = 16 * c ∧
    (asciiIsxdigit (hexDigit (c >>> 4)) = true ∧ asciiIsxdigit (hexDigit (c &&& 0xf)) = true ∧
      hexchar (hexDigit (c >>> 4)) (hexDigit (c &&& 0xf)) = c) ∧
    hexDigit (c >>> 4) ≠ 0 ∧ hexDigit (c &&& 0xf) ≠ 0

instance (c : UInt8) : Decidable (HexFacts c) := inferInstanceAs (Decidable (_ ∧ _))

theorem hexFacts (c : UInt8) : HexFacts c := @forall_byte HexFacts (by decide +kernel) c

theorem hexPair_cons (high low : UInt8) (after : Bytes) :
    hexPair (high :: low :: after) = if asciiIsxdigit high && asciiIsxdigit low then some (hexchar high low) else none := by
  rw [hexPair, (hexFacts high).1, (hexFacts low).1, hexchar, (hexFacts (xdigit high)).2.1]
  cases asciiIsxdigit high <;> cases asciiIsxdigit low <;> rfl

theorem percentSign_digits {fault : Option UInt8 → Prop} {high low : UInt8} {after : Bytes}
    (digits : asciiIsxdigit high = true ∧ asciiIsxdigit low = true) :
    PercentSign fault (high :: low :: after) ↔ PercentSign fault after := by
  have other : ∀ {c : UInt8}, asciiIsxdigit c = true → c ≠ percent := by
    rintro c digit rfl
    cases digit
  simp only [percentSign_cons, other digits.1, other digits.2, false_and, false_or]

/-- What the decoder takes for a fault. -/
def Refused (illegal : Option Bytes) (pair : Option UInt8) : Prop :=
  ∀ byte, pair = some byte → illegal.any (strchr · byte) = true

theorem uriDecoderLoop_step (illegal : Option Bytes) (s : UInt8) (rest : Bytes) :
    uriDecoderLoop illegal false false unescapeFlags (s :: rest) =
      if s = percent then
        match hexPair rest with
        | none => .error .invalidEncoding
        | some byte =>
          if illegal.any (strchr · byte) then .error .illegalCharacter
          else (uriDecoderLoop illegal false false unescapeFlags (rest.drop 2)).map (byte :: ·)
      else (uriDecoderLoop illegal false false unescapeFlags rest).map (s :: ·) := by
  have refused : decodedByte false false unescapeFlags percent = .error .invalidEncoding := rfl
  have kept : s ≠ percent → decodedByte false false unescapeFlags s = .ok [s] := by
    intro other
    simp [decodedByte, other]
  have joined : ∀ (front : Bytes) (tail : Except UriDecodeError Bytes),
      (tail.bind fun decoded => Except.ok (front ++ decoded)) = tail.map (front ++ ·) := by
    intro front tail
    cases tail <;> rfl
  by_cases escape : s = percent
  · subst escape
    match rest with
    | [] => rfl
    | [_] => rfl
    | high :: low :: after =>
      rw [hexPair_cons, uriDecoderLoop]
      by_cases digits : (asciiIsxdigit high && asciiIsxdigit low) = true
      · rw [if_pos digits, if_pos (by simpa using digits)]
        by_cases listed : illegal.any (strchr · (hexchar high low)) = true
        · simp only [listed, if_true]
          rfl
        · simp only [listed, if_false, Bool.false_eq_true]
          exact joined [hexchar high low] _
      · rw [if_neg digits, if_neg (by simpa using digits), refused]
        rfl
  · rw [if_neg escape]
    match rest with
    | [] =>
      have alone : uriDecoderLoop illegal false false unescapeFlags [s] =
          (decodedByte false false unescapeFlags s).bind fun front =>
            (uriDecoderLoop illegal false false unescapeFlags []).bind fun decoded => .ok (front ++ decoded) := rfl
      rw [alone, kept escape]
      exact joined [s] (.ok [])
    | [low] =>
      have alone : uriDecoderLoop illegal false false unescapeFlags [s, low] =
          (decodedByte false false unescapeFlags s).bind fun front =>
            (uriDecoderLoop illegal false false unescapeFlags [low]).bind fun decoded => .ok (front ++ decoded) := rfl
      rw [alone, kept escape]
      exact joined [s] _
    | high :: low :: after =>
      rw [uriDecoderLoop, if_neg (by simp [escape]), kept escape]
      exact joined [s] _

theorem map_fails {ε α β : Type} (f : α → β) (value : Except ε α) :
    (∃ fault, value.map f = .error fault) ↔ ∃ fault, value = .error fault := by
  cases value <;> simp [Except.map]

theorem uriDecoderLoop_fails (illegal : Option Bytes) (string : Bytes) :
    (∃ fault, uriDecoderLoop illegal false false unescapeFlags string = .error fault) ↔
      PercentSign (Refused illegal) string := by
  -- on the length: an escape takes three bytes, any other character one
  induction size : string.length using Nat.strong_induction_on generalizing string with
  | _ size ih =>
    cases string with
    | nil =>
      exact iff_of_false (fun ⟨_, failed⟩ => nomatch failed) (percentSign_nil _)
    | cons s rest =>
      rw [List.length_cons] at size
      rw [uriDecoderLoop_step]
      by_cases escape : s = percent
      · rw [if_pos escape]
        cases pair : hexPair rest with
        | none =>
          have refused : Refused illegal (hexPair rest) := by
            rw [pair]
            exact fun _ found => nomatch found
          exact iff_of_true ⟨_, rfl⟩ (percentSign_cons.mpr (Or.inl ⟨escape, refused⟩))
        | some byte =>
          dsimp only
          by_cases listed : illegal.any (strchr · byte) = true
          · have refused : Refused illegal (hexPair rest) := by
              rintro _ found
              rw [pair] at found
              cases found
              exact listed
            rw [if_pos listed]
            exact iff_of_true ⟨_, rfl⟩ (percentSign_cons.mpr (Or.inl ⟨escape, refused⟩))
          · have passed : ¬Refused illegal (hexPair rest) := fun refused => listed (refused byte pair)
            match rest, pair with
            | high :: low :: after, pair =>
              have digits : asciiIsxdigit high = true ∧ asciiIsxdigit low = true := by
                rw [hexPair_cons] at pair
                split at pair
                case isTrue digits => simpa using digits
                case isFalse => cases pair
              rw [if_neg listed, map_fails, ih _ (by simp at size ⊢; omega) _ rfl, percentSign_cons,
                percentSign_digits digits, or_iff_right fun found => passed found.2]
              rfl
      · rw [if_neg escape, map_fails, ih _ (by omega) _ rfl, percentSign_cons, or_iff_right fun found => escape found.1]

theorem xuriUnescapeBytes_eq (escaped : Bytes) (length : Option Nat) (illegal : Option Bytes) :
    xuriUnescapeBytes escaped length illegal =
      uriDecoderLoop illegal false false unescapeFlags (bounded escaped length) := by
  have encoded : (false && unescapeFlags.encoded) = false := rfl
  rw [xuriUnescapeBytes, uriDecoder, encoded]
  cases uriDecoderLoop illegal false false unescapeFlags (bounded escaped length) with
  | error fault => rfl
  | ok decoded => rfl

theorem xuriUnescapeBytes_fails (escaped : Bytes) (length : Option Nat) (illegal : Option Bytes) :
    (∃ fault, xuriUnescapeBytes escaped length illegal = .error fault) ↔
      (Malformed (bounded escaped length) ∨ EscapesListed (bounded escaped length) illegal) ∨
        illegal ≠ none ∧ Escapes (bounded escaped length) 0 := by
  rw [xuriUnescapeBytes_eq, uriDecoderLoop_fails]
  constructor
  · rintro ⟨front, rest, shape, refused⟩
    cases pair : hexPair rest with
    | none => exact Or.inl (Or.inl ⟨front, rest, shape, pair⟩)
    | some byte =>
      have found := refused byte pair
      cases illegal with
      | none => cases found
      | some characters =>
        simp only [Option.any_some, strchr, Bool.or_eq_true, decide_eq_true_eq, List.contains_iff_mem] at found
        rcases found with rfl | listed
        · exact Or.inr ⟨nofun, front, rest, shape, pair⟩
        · exact Or.inl (Or.inr ⟨characters, rfl, byte, listed, front, rest, shape, pair⟩)
  · rintro ((⟨front, rest, shape, pair⟩ | ⟨characters, rfl, byte, listed, front, rest, shape, pair⟩) |
      ⟨given, front, rest, shape, pair⟩)
    · refine ⟨front, rest, shape, fun byte found => ?_⟩
      rw [pair] at found
      cases found
    · refine ⟨front, rest, shape, fun other found => ?_⟩
      rw [pair] at found
      cases found
      simp [strchr, listed]
    · refine ⟨front, rest, shape, fun other found => ?_⟩
      rw [pair] at found
      cases found
      cases illegal with
      | none => exact absurd rfl given
      | some characters => simp [strchr]

/-! ## What the encoder writes -/

section Encoder
variable {allowed : Option Bytes} {allowUtf8 : Bool}

def encodedByte (allowed : Option Bytes) (byte : UInt8) : Bytes :=
  if isValid allowed byte then [byte] else [percent, hexDigit (byte >>> 4), hexDigit (byte &&& 0xf)]

/-- A loop that decodes `piece` to `bytes` and goes on. -/
def DecodesTo (piece bytes : Bytes) : Prop :=
  ∀ rest, uriDecoderLoop none false false unescapeFlags (piece ++ rest) =
    (uriDecoderLoop none false false unescapeFlags rest).map (bytes ++ ·)

theorem decodesTo_plain {bytes : Bytes} (plain : percent ∉ bytes) : DecodesTo bytes bytes := by
  intro rest
  induction bytes with
  | nil =>
    rw [List.nil_append]
    cases uriDecoderLoop none false false unescapeFlags rest <;> rfl
  | cons byte bytes ih =>
    have other : byte ≠ percent := fun same => plain (same ▸ List.mem_cons_self)
    rw [List.cons_append, uriDecoderLoop_step, if_neg other, ih fun found => plain (List.mem_cons_of_mem _ found)]
    cases uriDecoderLoop none false false unescapeFlags rest <;> rfl

theorem hexPair_byte (byte : UInt8) (rest : Bytes) :
    hexPair (hexDigit (byte >>> 4) :: hexDigit (byte &&& 0xf) :: rest) = some byte := by
  have digits := (hexFacts byte).2.2.1
  rw [hexPair_cons, digits.1, digits.2.1, digits.2.2]
  rfl

theorem decodesTo_byte (free : ¬allowed.any (strchr · percent)) (byte : UInt8) : DecodesTo (encodedByte allowed byte) [byte] := by
  unfold encodedByte
  split
  case isTrue valid =>
    apply decodesTo_plain
    rw [List.mem_singleton]
    rintro rfl
    rw [isValid, Bool.or_eq_true] at valid
    exact valid.elim (by decide) free
  case isFalse =>
    intro rest
    have step := uriDecoderLoop_step none percent (hexDigit (byte >>> 4) :: hexDigit (byte &&& 0xf) :: rest)
    rw [if_pos rfl, hexPair_byte] at step
    exact step

theorem zero_mem_encodedByte {byte : UInt8} (found : (0 : UInt8) ∈ encodedByte allowed byte) : byte = 0 ∧ allowed ≠ none := by
  have digits := (hexFacts byte).2.2.2
  unfold encodedByte at found
  split at found
  case isTrue valid =>
    rw [List.mem_singleton] at found
    subst found
    refine ⟨rfl, ?_⟩
    rintro rfl
    exact absurd valid (by decide)
  case isFalse =>
    simp only [List.mem_cons, List.not_mem_nil, or_false] at found
    rcases found with sign | high | low
    · exact absurd sign (by decide)
    · exact absurd high.symm digits.1
    · exact absurd low.symm digits.2

theorem utf8_large {c : Nat} (scalar : IsScalar c) (large : 0x80 ≤ c) {byte : UInt8} (found : byte ∈ utf8 c) :
    0x80 ≤ byte.toNat := by
  obtain ⟨first, tail, -, -, shape, above, -, continued, -, -⟩ := utf8_lead large scalar.lt
  rw [shape, List.mem_cons] at found
  rcases found with rfl | inside
  · exact above
  · exact ((isContinuation_iff byte).mp (List.all_eq_true.mp continued byte inside)).1

/-- One step encodes some bytes at the front so that they are decoded again. -/
theorem uriEncoderLoop_step (free : ¬allowed.any (strchr · percent)) (p : UInt8) (rest : Bytes) (fuel : Nat) :
    ∃ front after piece, p :: rest = front ++ after ∧ front ≠ [] ∧
      uriEncoderLoop allowed allowUtf8 (fuel + 1) (p :: rest) = (uriEncoderLoop allowed allowUtf8 fuel after).map (piece ++ ·) ∧
      DecodesTo piece front ∧ ((0 : UInt8) ∈ piece → (0 : UInt8) ∈ front ∧ allowed ≠ none) := by
  -- A byte on its own, whatever the flag.
  have alone : (∃ code, multibyteUtf8Char allowUtf8 p rest = some code ∧ (code = 0 ∨ IsErrorCode code)) →
      uriEncoderLoop allowed allowUtf8 (fuel + 1) (p :: rest) =
        (uriEncoderLoop allowed allowUtf8 fuel rest).map (encodedByte allowed p ++ ·) := by
    rintro ⟨code, read, none⟩
    have single : ¬(0 < code ∧ code ≠ malformedSequence ∧ code ≠ partialSequence) := by
      rintro ⟨positive, malformed, incomplete⟩
      rcases none with zero | malformedCode | partialCode
      · omega
      · exact malformed malformedCode
      · exact incomplete partialCode
    rw [uriEncoderLoop, encodedByte]
    simp only [read, some_bind, if_neg single]
    split <;> rfl
  have byteStep : uriEncoderLoop allowed allowUtf8 (fuel + 1) (p :: rest) =
        (uriEncoderLoop allowed allowUtf8 fuel rest).map (encodedByte allowed p ++ ·) →
      ∃ front after piece, p :: rest = front ++ after ∧ front ≠ [] ∧
        uriEncoderLoop allowed allowUtf8 (fuel + 1) (p :: rest) = (uriEncoderLoop allowed allowUtf8 fuel after).map (piece ++ ·) ∧
        DecodesTo piece front ∧ ((0 : UInt8) ∈ piece → (0 : UInt8) ∈ front ∧ allowed ≠ none) := by
    intro step
    refine ⟨[p], rest, encodedByte allowed p, rfl, by simp, step, decodesTo_byte free p, fun found => ?_⟩
    obtain ⟨rfl, given⟩ := zero_mem_encodedByte found
    exact ⟨List.mem_singleton_self _, given⟩
  by_cases wide : (allowUtf8 && 0x80 ≤ p) = true
  · cases lead : leadLength (p :: rest) with
    | none =>
      obtain ⟨code, read, error⟩ := @xutf8GetCharValidated_error (p :: rest) 0 lead
      exact byteStep (alone ⟨code, by rw [multibyteUtf8Char, if_pos wide]; exact read, Or.inr error⟩)
    | some size =>
      obtain ⟨c, ⟨scalar, nonzero, after, shape⟩, rfl⟩ := leads_of_leadLength lead
      obtain ⟨first, tail, bytes, skip⟩ := utf8Skip_utf8 scalar.lt
      have same : first = p := by
        rw [bytes, List.cons_append] at shape
        exact (List.cons.inj shape).1.symm
      subst same
      have above : 0x80 ≤ first.toNat := by
        rw [Bool.and_eq_true, decide_eq_true_eq, UInt8.le_iff_toNat_le] at wide
        exact wide.2
      have large : 0x80 ≤ c := by
        by_contra small
        rw [utf8_one (by omega)] at bytes
        have value : (UInt8.ofNat c).toNat = c := toNat_byte (by omega)
        rw [(List.cons.inj bytes).1] at value
        omega
      have length : rest.length + 1 = (utf8 c).length + after.length := by
        rw [← List.length_cons, shape, List.length_append]
      have read := @xutf8GetCharValidated_utf8 (first :: rest) 0 _ (rest.length + 1) scalar nonzero
        (by
          intro k bound
          rw [shape, Nat.zero_add, List.getElem?_append_left bound]) (by omega)
      have valid : 0 < c ∧ c ≠ malformedSequence ∧ c ≠ partialSequence := by
        have below := scalar.lt
        unfold malformedSequence partialSequence
        omega
      refine ⟨utf8 c, after, utf8 c, shape, utf8_ne_nil c, ?_, decodesTo_plain fun found => ?_, fun found => ?_⟩
      · rw [uriEncoderLoop, multibyteUtf8Char]
        simp only [if_pos wide, read, some_bind, if_pos valid, skip]
        rw [if_neg (by omega), shape, List.drop_left, List.take_left]
      · exact absurd (utf8_large scalar large found) (by decide)
      · exact absurd (utf8_large scalar large found) (by decide)
  · exact byteStep (alone ⟨0, if_neg wide, Or.inl rfl⟩)

theorem uriEncoder_decoded (free : ¬allowed.any (strchr · percent)) (bytes : Bytes) :
    ∃ escaped, uriEncoder allowed allowUtf8 bytes = some escaped ∧
      uriDecoderLoop none false false unescapeFlags escaped = .ok bytes ∧
      ((0 : UInt8) ∈ escaped → (0 : UInt8) ∈ bytes ∧ allowed ≠ none) := by
  unfold uriEncoder
  have enough : bytes.length < bytes.length + 1 := by omega
  generalize bytes.length + 1 = fuel at enough ⊢
  -- on the turns that are left: each encodes one byte or copies one character
  induction fuel generalizing bytes with
  | zero => omega
  | succ fuel ih =>
    cases bytes with
    | nil => exact ⟨[], rfl, rfl, nofun⟩
    | cons p rest =>
      obtain ⟨front, after, piece, shape, nonempty, step, decodes, zeros⟩ :=
        @uriEncoderLoop_step _ allowUtf8 free p rest fuel
      have length := congrArg List.length shape
      have positive := List.length_pos_iff.mpr nonempty
      rw [List.length_append] at length
      obtain ⟨escaped, encoded, decoded, inside⟩ := ih after (by omega)
      refine ⟨piece ++ escaped, by rw [step, encoded]; rfl, ?_, fun found => ?_⟩
      · rw [decodes, decoded, shape]
        rfl
      · rw [shape]
        rcases List.mem_append.mp found with early | late
        · exact ⟨List.mem_append_left _ (zeros early).1, (zeros early).2⟩
        · exact ⟨List.mem_append_right _ (inside late).1, (inside late).2⟩

theorem uriEncoder_plain (bytes : Bytes) : uriEncoder allowed false bytes = some (bytes.flatMap (encodedByte allowed)) := by
  have step : ∀ (fuel : Nat) (p : UInt8) (rest : Bytes), uriEncoderLoop allowed false (fuel + 1) (p :: rest) =
      (uriEncoderLoop allowed false fuel rest).map (encodedByte allowed p ++ ·) := by
    intro fuel p rest
    rw [uriEncoderLoop, encodedByte, multibyteUtf8Char]
    simp only [Bool.false_and, Bool.false_eq_true, if_false, some_bind, Nat.lt_irrefl, false_and]
    split <;> rfl
  unfold uriEncoder
  induction bytes with
  | nil => rfl
  | cons p rest ih =>
    rw [List.length_cons, step, ih]
    rfl

end Encoder

/-! ## Escaping and unescaping -/

/-- The allowed characters do not include the percent sign. -/
def Permits (allowed : Option Bytes) : Prop := ∀ characters ∈ allowed, percent ∉ cString characters

theorem permits_any (permits : Permits allowed) : ¬allowed.any (strchr · percent) := by
  cases allowed with
  | none => decide
  | some characters =>
    have free := permits characters rfl
    simp only [Option.any_some, strchr, Bool.or_eq_true, decide_eq_true_eq, List.contains_iff_mem]
    rintro (zero | found)
    · exact absurd zero (by decide)
    · exact free found

/-- Bytes survive unless one of them is a NUL, which a list of allowed characters always allows. -/
theorem unescape_escapeBytes (permits : Permits allowed) (bytes : Bytes) :
    ∃ escaped, xuriEscapeBytes bytes allowed = some escaped ∧
      (xuriUnescapeBytes escaped none none = .ok bytes ↔ allowed = none ∨ (0 : UInt8) ∉ bytes) := by
  have free := permits_any permits
  obtain ⟨escaped, encoded, decoded, zeros⟩ := @uriEncoder_decoded _ false free bytes
  refine ⟨escaped, encoded, ?_⟩
  rw [xuriUnescapeBytes_eq, bounded]
  by_cases safe : allowed = none ∨ (0 : UInt8) ∉ bytes
  · have whole : (0 : UInt8) ∉ escaped := fun found => safe.elim (zeros found).2 fun other => other (zeros found).1
    rw [cString_clean whole]
    exact iff_of_true decoded safe
  · obtain ⟨given, inside⟩ := not_or.mp safe
    obtain ⟨front, rest, shape, early⟩ := List.eq_append_cons_of_mem (not_not.mp inside)
    subst shape
    rw [uriEncoder_plain, List.flatMap_append, List.flatMap_cons] at encoded
    obtain ⟨escapedFront, encodedFront, decodedFront, zerosFront⟩ := @uriEncoder_decoded _ false free front
    have listed : isValid allowed 0 = true := by
      cases allowed with
      | none => exact absurd rfl given
      | some characters => rfl
    have raw : encodedByte allowed 0 = [0] := if_pos listed
    have shape : escaped = escapedFront ++ 0 :: rest.flatMap (encodedByte allowed) := by
      rw [uriEncoder_plain] at encodedFront
      rw [← Option.some.inj encoded, Option.some.inj encodedFront, raw]
      rfl
    rw [shape, cString_append fun found => early (zerosFront found).1, decodedFront]
    refine iff_of_false (fun same => ?_) (not_or.mpr ⟨given, inside⟩)
    have length := congrArg List.length (Except.ok.inj same)
    rw [List.length_append, List.length_cons] at length
    omega

theorem unescape_escapeString (permits : Permits allowed) (string : Bytes) (allowUtf8 : Bool)
    (free : (0 : UInt8) ∉ string) :
    ∃ escaped, xuriEscapeString string allowed allowUtf8 = some escaped ∧ xuriUnescapeString (some escaped) none = some string := by
  obtain ⟨escaped, encoded, decoded, zeros⟩ := @uriEncoder_decoded _ allowUtf8 (permits_any permits) string
  have whole : (0 : UInt8) ∉ escaped := fun found => free (zeros found).1
  have passed : uriDecoder none false false unescapeFlags escaped = .ok string := by
    have bytes := xuriUnescapeBytes_eq escaped none none
    rw [bounded, cString_clean whole, decoded, xuriUnescapeBytes, bounded, cString_clean whole] at bytes
    exact bytes
  refine ⟨escaped, by rw [xuriEscapeString, cString_clean free, encoded], ?_⟩
  rw [xuriUnescapeString, xuriUnescapeSegment]
  simp only [some_bind, bounded, cString_clean whole, passed, Except.toOption, List.contains_iff_mem,
    free, if_false]
  rfl

/-- What is escaped is unescaped again, but for a NUL that a list of allowed characters lets
through; what is refused is malformed or listed, but for a NUL that any list refuses. -/
theorem percentEscaping_lossless_iff (allowed : Option Bytes) (permits : Permits allowed) :
    (∀ bytes, (∃ escaped, xuriEscapeBytes bytes allowed = some escaped ∧ xuriUnescapeBytes escaped none none = .ok bytes) ↔
      allowed = none ∨ (0 : UInt8) ∉ bytes) ∧
    (∀ (string : Bytes) (allowUtf8 : Bool), (0 : UInt8) ∉ string →
      ∃ escaped, xuriEscapeString string allowed allowUtf8 = some escaped ∧ xuriUnescapeString (some escaped) none = some string) ∧
    (∀ (escaped : Bytes) (length : Option Nat) (illegal : Option Bytes),
      ((∃ fault, xuriUnescapeBytes escaped length illegal = .error fault) ↔
        Malformed (bounded escaped length) ∨ EscapesListed (bounded escaped length) illegal) ↔
      illegal = none ∨ ¬Escapes (bounded escaped length) 0 ∨
        Malformed (bounded escaped length) ∨ EscapesListed (bounded escaped length) illegal) := by
  refine ⟨fun bytes => ?_, unescape_escapeString permits, fun escaped length illegal => ?_⟩
  · obtain ⟨escaped, encoded, exact⟩ := unescape_escapeBytes permits bytes
    rw [← exact]
    constructor
    · rintro ⟨_, found, decoded⟩
      rw [encoded] at found
      rwa [Option.some.inj found]
    · exact fun decoded => ⟨escaped, encoded, decoded⟩
  · rw [xuriUnescapeBytes_fails]
    tauto

/-- A NUL is lost where the slash is allowed, and is not where nothing is. -/
theorem percentEscaping_lossless_slash :
    (∃ escaped, xuriEscapeBytes [37, 47, 255] (some [47]) = some escaped ∧ xuriUnescapeBytes escaped none none = .ok [37, 47, 255]) ∧
      (¬∃ escaped, xuriEscapeBytes [37, 0] (some [47]) = some escaped ∧ xuriUnescapeBytes escaped none none = .ok [37, 0]) ∧
      ∃ escaped, xuriEscapeBytes [37, 0] none = some escaped ∧ xuriUnescapeBytes escaped none none = .ok [37, 0] := by
  have slash : Permits (some [47]) := by
    rintro _ ⟨⟩
    decide
  refine ⟨((percentEscaping_lossless_iff (some [47]) slash).1 _).mpr (.inr (by decide)), ?_,
    ((percentEscaping_lossless_iff none nofun).1 _).mpr (.inl rfl)⟩
  rw [(percentEscaping_lossless_iff (some [47]) slash).1]
  decide

/-- A NUL is copied as it is when the list of allowed characters is empty. -/
theorem nul_lost : Permits (some []) ∧
    ¬∃ escaped, xuriEscapeBytes [0] (some []) = some escaped ∧ xuriUnescapeBytes escaped none none = .ok [0] := by
  refine ⟨?_, ?_⟩
  · rintro _ ⟨⟩
    decide
  · rintro ⟨escaped, encoded, decoded⟩
    have copied : xuriEscapeBytes [0] (some []) = some [0] := by decide +kernel
    cases encoded
    have lost : xuriUnescapeBytes [0] none none = .ok [] := rfl
    cases decoded

end Xpl.Uri
