import Xpl.Library.Unicode
import Xpl.Text.Utf8

/-! The three validators of UTF-8 text.

A position is an index into the string, and a function returns `none` where the program
reads outside of it. `fastValidateLen` is the bounded loop read off a list.
-/

set_option autoImplicit false

namespace Xpl.Text
open Xpl.Library

/-! ## The two loops -/

section Loops
variable (string : Bytes)

/-- The last byte of a character; the position after it, or nothing on `goto error`. -/
def validateLast (position : Nat) : Option (Option Nat) := do
  let last ← string[position]?
  if isContinuation last then return some (position + 1) else return none

/-- A character that is not ASCII. `room` is the test for the bytes that are left. -/
def validateCharacter (room : Nat → Bool) (position : Nat) (first : UInt8) : Option (Option Nat) :=
  if first < 0xe0 then
    if !room 2 || first < 0xc2 then some none else validateLast string (position + 1)
  else if first < 0xf0 then
    if !room 3 then some none
    else do
      let second ← string[position + 1]?
      if validSecondOfThree first second then validateLast string (position + 2) else return none
  else if first < 0xf5 then
    if !room 4 then some none
    else do
      let second ← string[position + 1]?
      if !validSecondOfFour first second then return none
      let third ← string[position + 2]?
      if isContinuation third then validateLast string (position + 3) else return none
  else some none

def validateLoop (more : Nat → Bool) (room : Nat → Nat → Bool) : Nat → Nat → Option Nat
  | 0, _ => none
  | fuel + 1, position =>
    if more position then do
      let first ← string[position]?
      if first = 0 then return position
      if first < 128 then validateLoop more room fuel (position + 1)
      else
        match ← validateCharacter string (room position) position first with
        | none => return position
        | some next => validateLoop more room fuel next
    else some position

end Loops

def fastValidate (string : Bytes) : Option Nat :=
  validateLoop string (fun _ => true) (fun _ _ => true) (string.length + 1) 0

/-- `fast_validate_len` with the string's length, which must not be negative as a signed
word. -/
def fastValidateBounded (string : Bytes) : Option Nat :=
  if string.length < 2 ^ 63 then
    validateLoop string (fun position => decide (position < string.length))
      (fun position count => decide (count ≤ string.length - position)) (string.length + 1) 0
  else none

/-- `xutf8_validate` with a negative length: the result and the end. -/
def xutf8Validate (string : Bytes) : Option (Bool × Nat) := do
  let stop ← fastValidate string
  let byte ← string[stop]?
  return (decide (byte = 0), stop)

def xutf8ValidateBounded (string : Bytes) : Option (Bool × Nat) := do
  let stop ← fastValidateBounded string
  return (decide (stop = string.length), stop)

/-! ## Characters one by one -/

/-- `(xunichar_t) -1`. -/
def malformedSequence : Nat := 2 ^ 32 - 1

/-- `(xunichar_t) -2`. -/
def partialSequence : Nat := 2 ^ 32 - 2

section Characters
variable (string : Bytes) (position : Nat)

/-- The check of a truncated character, from the byte `index` on. -/
def truncatedCharacter : Nat → Nat → Option Nat
  | 0, _ => some partialSequence
  | count + 1, index => do
    let byte ← string[position + index]?
    if byte &&& 0xc0 ≠ 0x80 then return malformedSequence else truncatedCharacter count (index + 1)

/-- The loop over the continuation bytes, with `count` of them left. -/
def continuedCharacter (minCode : Nat) : Nat → Nat → Nat → Option Nat
  | 0, _, wc => if wc < minCode then some malformedSequence else some wc
  | count + 1, index, wc => do
    let byte ← string[position + index]?
    if byte &&& 0xc0 ≠ 0x80 then
      if byte ≠ 0 then return malformedSequence else return partialSequence
    continuedCharacter minCode count (index + 1) (wc <<< 6 ||| (byte &&& 0x3f).toNat)

/-- A character of `length` bytes. `maxLen` is absent for a negative length. -/
def longCharacter (maxLen : Option Nat) (length wc minCode : Nat) : Option Nat :=
  match maxLen with
  | some limit =>
    if length > limit then truncatedCharacter string position (limit - 1) 1
    else continuedCharacter string position minCode (length - 1) 1 wc
  | none => continuedCharacter string position minCode (length - 1) 1 wc

def xutf8GetCharExtended (maxLen : Option Nat) : Option Nat := do
  let first ← string[position]?
  let wc := first.toNat
  if wc < 0x80 then return wc
  if wc < 0xc0 then return malformedSequence
  if wc < 0xe0 then longCharacter string position maxLen 2 (wc &&& 0x1f) (1 <<< 7)
  else if wc < 0xf0 then longCharacter string position maxLen 3 (wc &&& 0x0f) (1 <<< 11)
  else if wc < 0xf8 then longCharacter string position maxLen 4 (wc &&& 0x07) (1 <<< 16)
  else if wc < 0xfc then longCharacter string position maxLen 5 (wc &&& 0x03) (1 <<< 21)
  else if wc < 0xfe then longCharacter string position maxLen 6 (wc &&& 0x01) (1 <<< 26)
  else return malformedSequence

def unicodeValid (c : Nat) : Bool := c < 0x110000 && c &&& 0xFFFFF800 ≠ 0xD800

def xutf8GetCharValidated (maxLen : Option Nat) : Option Nat :=
  if maxLen = some 0 then some partialSequence
  else do
    let result ← xutf8GetCharExtended string position maxLen
    if result = 0 ∧ maxLen.any (0 < ·) then return partialSequence
    if result &&& 0x80000000 ≠ 0 then return result
    if unicodeValid result then return result else return malformedSequence

end Characters

def utf8Skip (first : UInt8) : Nat :=
  if first < 0xc0 then 1
  else if first < 0xe0 then 2
  else if first < 0xf0 then 3
  else if first < 0xf8 then 4
  else if first < 0xfc then 5
  else if first < 0xfe then 6
  else 1

theorem utf8Skip_pos (first : UInt8) : 0 < utf8Skip first := by
  unfold utf8Skip
  split_ifs <;> decide

/-- The position after as many characters as `xutf8_get_char_validated` returns in a row. -/
def validatedCharacters (string : Bytes) : Nat → Nat → Option Nat
  | 0, _ => none
  | fuel + 1, position => do
    let c ← xutf8GetCharValidated string position (some (string.length - position))
    if c = malformedSequence ∨ c = partialSequence then return position
    let first ← string[position]?
    validatedCharacters string fuel (position + utf8Skip first)

end Xpl.Text
