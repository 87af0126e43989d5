import Xpl.Text.Validation

/-! Names and lines of a key file: gkeyfile.c. A C string is the list of its bytes before the terminating zero. -/

set_option autoImplicit false

namespace Xpl.Keyfile
open Xpl.Library Xpl.Text

/-- What the key file code asks its surroundings: `xunichar_isalnum` and `g_get_language_names`. -/
structure Setting where
  isalnum : Nat → Bool
  languageNames : List Bytes

def tab : UInt8 := 9
def newline : UInt8 := 10
def carriageReturn : UInt8 := 13
def space : UInt8 := 32
def hash : UInt8 := 35
def equals : UInt8 := 61
def openBracket : UInt8 := 91
def backslash : UInt8 := 92
def closeBracket : UInt8 := 93

/-- `g_ascii_isspace`; the vertical tab is not one. -/
def isSpace (c : UInt8) : Bool := c == 32 || c == 9 || c == 10 || c == 12 || c == 13

/-- `g_ascii_iscntrl`. -/
def isCntrl (c : UInt8) : Bool := c < 32 || c == 127

/-- `*p` -/
def charAt (p : Bytes) : UInt8 := p.headD 0

def cString (bytes : Bytes) : Bytes := bytes.takeWhile (· ≠ 0)

/-- Steps of `xutf8_find_next_char` up to the first character on which the loop stops, or to the end. -/
def scan (stop : Bytes → Bool) : Bool → Bytes → Bytes
  | _, [] => []
  | inside, c :: rest =>
    if inside && isContinuation c then scan stop true rest
    else if stop (c :: rest) then c :: rest
    else scan stop true rest

/-! ## Names -/

def isGroupName (name : Bytes) : Bool :=
  let q := scan (fun q => charAt q == closeBracket || charAt q == openBracket || isCntrl (charAt q)) false name
  q.isEmpty && q.length != name.length

def isLocaleChar (setting : Setting) (q : Bytes) : Bool :=
  (xutf8GetCharValidated q 0 (some q.length)).any setting.isalnum ||
    charAt q == 45 || charAt q == 95 || charAt q == 46 || charAt q == 64

/-- The end of a key name: nothing, or a locale in brackets. `q` is what is left before `end`, and `after` what stands
at `end`: the byte there is looked at. -/
def isLocaleEnd (setting : Setting) (q after : Bytes) : Bool :=
  if charAt (q ++ after) = openBracket then
    let after := if q.isEmpty then after.tail else after
    let q := scan (fun q => !isLocaleChar setting q) false q.tail
    if charAt (q ++ after) ≠ closeBracket then false else decide (q.length ≤ 1)
  else q.isEmpty

def isKeyName (setting : Setting) (name : Bytes) (len : Nat) : Bool :=
  let within := name.take len
  let q := scan (fun q => charAt q == equals || charAt q == openBracket || charAt q == closeBracket) false within
  if q.length = within.length then false
  else if charAt name = space || name.getD (within.length - q.length - 1) 0 = space then false
  else isLocaleEnd setting q (name.drop len)

/-! ## Lines -/

def lineIsComment (line : Bytes) : Bool := charAt line == hash || charAt line == 0 || charAt line == newline

def lineIsGroup (line : Bytes) : Bool :=
  if charAt line ≠ openBracket then false
  else
    let p := scan (fun p => charAt p == closeBracket) false line.tail
    if charAt p ≠ closeBracket then false
    else
      -- the character after the bracket, as xutf8_find_next_char finds it
      let p := p.tail.dropWhile isContinuation
      (scan (fun p => !(charAt p == space || charAt p == tab)) false p).isEmpty

def lineIsKeyValuePair (line : Bytes) : Bool := line.contains equals && charAt line != equals

/-! ## Locales -/

/-- `xstrrstr` with a needle of one byte. -/
def lastFrom (c : UInt8) : Bytes → Option Bytes
  | [] => none
  | b :: rest => (lastFrom c rest).or (if b = c then some (b :: rest) else none)

def keyGetLocale (key : Bytes) : Option (Bytes × Nat) :=
  match lastFrom openBracket key with
  | some locale => if 2 < locale.length then some (locale.tail, locale.length - 2) else none
  | none => none

def toLower (c : UInt8) : UInt8 := if 65 ≤ c ∧ c ≤ 90 then c + 32 else c

def asciiStrncasecmp : Bytes → Bytes → Nat → Int
  | _, _, 0 => 0
  | a :: s1, b :: s2, n + 1 =>
    if toLower a ≠ toLower b then (toLower a).toNat - (toLower b).toNat else asciiStrncasecmp s1 s2 n
  | s1, s2, _ + 1 => (charAt s1).toNat - (charAt s2).toNat

def localeIsInteresting (setting : Setting) (keepTranslations : Bool) (locale : Bytes) (len : Nat) : Bool :=
  keepTranslations ||
    setting.languageNames.any fun name => asciiStrncasecmp name locale len == 0 && name.getD len 0 == 0

end Xpl.Keyfile
