import Xpl.Text.IntegerParsing
import Xpl.Text.Transcoding

/-! Unescaping within one buffer, as gmarkup.c does it. The buffer is the string and its terminator; a store is checked
against the bytes that have been read by then. -/

set_option autoImplicit false

namespace Xpl.Markup
open Xpl.Library Xpl.Text

/-- How unescaping ends without a result: by a store to a byte that has not been read, by the failed assertion, by too
many turns, or by an error with its line, its text and the bytes that the text names. -/
inductive UnescapeStop where
  | overrun
  | assertion
  | unfinished
  | parse (line : Int32) (message : String) (text : Bytes)
  deriving DecidableEq, Repr

/-- A store of bytes from an offset on, when the bytes below `unread` have been read. -/
def put (buffer : Bytes) (unread offset : Nat) (bytes : Bytes) : Except UnescapeStop Bytes :=
  if offset + bytes.length ≤ unread then
    .ok (buffer.take offset ++ bytes ++ buffer.drop (offset + bytes.length))
  else .error .overrun

/-- `set_unescape_error`: the newlines in the rest of the string are behind the line of the error. -/
def unescapeError {α : Type} (lineNumber : Int32) (remainingText : Bytes) (message : String) (text : Bytes) :
    Except UnescapeStop α :=
  .error (.parse (lineNumber - Int32.ofNat (remainingText.count (char '\n'))) message text)

def permitted (l : Nat) : Bool := 0 < l && l ≤ 0xD7FF || 0xE000 ≤ l && l ≤ 0xFFFD || 0x10000 ≤ l && l ≤ 0x10FFFF

def referenceBase (behind : Bytes) : UInt64 × Bytes :=
  if behind.head? = some (char 'x') then (16, behind.tail) else (10, behind)

/-- The character that is referred to behind `&#`, and how many bytes have been read up to its semicolon. -/
def characterReference (lineNumber : Int32) (behind : Bytes) : Except UnescapeStop (Nat × Nat) :=
  let digits := (referenceBase behind).2
  let conversion := gAsciiStrtoull true digits (referenceBase behind).1
  let read := digits.take (digits.length - conversion.rest.length)
  if conversion.rest.length = digits.length ∨ conversion.erange = true then
    unescapeError lineNumber digits
      "Failed to parse “%-.*s”, which should have been a digit inside a character reference (&#234; for example) — perhaps the digit is too large"
      read
  else if conversion.rest.head? ≠ some (char ';') then
    unescapeError lineNumber digits
      "Character reference did not end with a semicolon; most likely you used an ampersand character without intending to start an entity — escape ampersand as &amp;"
      []
  else if permitted conversion.result.toNat then
    .ok (conversion.result.toNat, behind.length - conversion.rest.length + 1)
  else unescapeError lineNumber digits "Character reference “%-.*s” does not encode a permitted character" read

/-- What is compared behind an ampersand, and the character that stands for it. -/
def entities : List (Bytes × UInt8) :=
  [("lt;".toList.map char, char '<'), ("gt;".toList.map char, char '>'), ("amp;".toList.map char, char '&'),
    ("quot;".toList.map char, char '"'), ("apos;".toList.map char, 39)]

/-- The entity behind an ampersand, and how many bytes its name and semicolon have. -/
def entity (lineNumber : Int32) (behind : Bytes) : Except UnescapeStop (UInt8 × Nat) :=
  match entities.find? (·.1.isPrefixOf behind) with
  | some (name, c) => .ok (c, name.length)
  | none =>
    if behind.head? = some (char ';') then
      unescapeError lineNumber behind "Empty entity “&;” seen; valid entities are: &amp; &quot; &lt; &gt; &apos;" []
    else if char ';' ∈ behind then
      unescapeError lineNumber behind "Entity name “%-.*s” is not known" (behind.takeWhile (· ≠ char ';'))
    else
      unescapeError lineNumber behind
        "Entity did not end with a semicolon; most likely you used an ampersand character without intending to start an entity — escape ampersand as &amp;"
        []

def copied (normalizeAttribute : Bool) (c : UInt8) : UInt8 :=
  if normalizeAttribute && (c = char '\t' || c = char '\n') then char ' '
  else if c = char '\r' then if normalizeAttribute then char ' ' else char '\n'
  else c

/-- The loop, with the indices of the next byte to read and to write; at the end, the buffer, the length of the result
and the mask. -/
def unescapeLoop (normalizeAttribute : Bool) (lineNumber : Int32) :
    Nat → Bytes → Nat → Nat → UInt8 → Except UnescapeStop (Bytes × Nat × UInt8)
  | 0, _, _, _, _ => .error .unfinished
  | fuel + 1, buffer, source, target, mask =>
    match cString (buffer.drop source) with
    | [] => .ok (buffer, target, mask)
    | c :: _ => do
      let buffer ← put buffer (source + 1) target [copied normalizeAttribute c]
      let behind := cString (buffer.drop (source + 1))
      if c = char '\r' ∧ behind.head? = some (char '\n') then
        unescapeLoop normalizeAttribute lineNumber fuel buffer (source + 2) (target + 1) (mask ||| c)
      else if c = char '&' then
        if behind.head? = some (char '#') then
          let (l, read) ← characterReference lineNumber behind.tail
          -- strcpy copies the terminator of the encoded character too
          let buffer ← put buffer (source + 2 + read) target (xunicharToUtf8 l ++ [0])
          unescapeLoop normalizeAttribute lineNumber fuel buffer (source + 2 + read) (target + (xunicharToUtf8 l).length)
            (mask ||| c ||| if 0x80 ≤ l then 0x80 else 0)
        else
          let (character, read) ← entity lineNumber behind
          let buffer ← put buffer (source + 1 + read) target [character]
          unescapeLoop normalizeAttribute lineNumber fuel buffer (source + 1 + read) (target + 1) (mask ||| c)
      else unescapeLoop normalizeAttribute lineNumber fuel buffer (source + 1) (target + 1) (mask ||| c)

/-- The string afterwards, and whether it is ASCII. -/
def unescapeXstringInplace (normalizeAttribute : Bool) (lineNumber : Int32) (string : Bytes) :
    Except UnescapeStop (Bytes × Bool) := do
  let (buffer, target, mask) ← unescapeLoop normalizeAttribute lineNumber (string.length + 1) (string ++ [0]) 0 0 0
  if target ≤ string.length then .ok (buffer.take target, mask &&& 0x80 = 0) else .error .assertion

/-! ## What is unescaped -/

/-- How the text of a numeral in a reference is read, in a base. -/
abbrev Reading := Nat → Bytes → Nat → Prop

def Digits : Reading := fun base text v => wholeNumeral base text = some v

/-- What `strtoul` reads: white space, a sign, a prefix, and a number that may be negated. -/
def Numeric : Reading := fun base text v =>
  ∃ negative m, Spells base text negative m [] ∧ unsignedValue negative m = (UInt64.ofNat v, false)

def markOf (base : Nat) : Bytes := if base = 16 then [char 'x'] else []

/-- The string stands for the text, byte for byte, entity for entity and reference for reference, with its line ends
and the white space of attributes normalized. -/
inductive Unescapes (reading : Reading) (normalizeAttribute : Bool) : Bytes → Bytes → Prop where
  | nil : Unescapes reading normalizeAttribute [] []
  | plain {c : UInt8} {string text : Bytes} (other : c ≠ char '&') (single : c = char '\r' → string.head? ≠ some (char '\n'))
      (rest : Unescapes reading normalizeAttribute string text) :
      Unescapes reading normalizeAttribute (c :: string) (copied normalizeAttribute c :: text)
  | lineEnd {string text : Bytes} (rest : Unescapes reading normalizeAttribute string text) :
      Unescapes reading normalizeAttribute (char '\r' :: char '\n' :: string) (copied normalizeAttribute (char '\r') :: text)
  | named {name : Bytes} {c : UInt8} {string text : Bytes} (known : (name, c) ∈ entities)
      (rest : Unescapes reading normalizeAttribute string text) :
      Unescapes reading normalizeAttribute (char '&' :: (name ++ string)) (c :: text)
  | numbered {base : Nat} {digits : Bytes} {v : Nat} {string text : Bytes} (based : base = 10 ∨ base = 16)
      (read : reading base digits v) (valid : permitted v = true) (rest : Unescapes reading normalizeAttribute string text) :
      Unescapes reading normalizeAttribute
        (char '&' :: char '#' :: (markOf base ++ digits ++ char ';' :: string)) (utf8 v ++ text)

end Xpl.Markup
