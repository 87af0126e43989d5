import Xpl.Library.Bytes

/-! Validation of UTF-8 text. -/

set_option autoImplicit false

namespace Xpl.Text
open Xpl.Library

def validateByte (byte mask expect : UInt8) : Bool := byte &&& mask = expect

/-- A byte of the form `10xxxxxx`. -/
def isContinuation (byte : UInt8) : Bool := validateByte byte 0xc0 0x80

def validSecondOfThree (first second : UInt8) : Bool :=
  if first &&& 0x0f = 0 then validateByte second 0xe0 0xa0
  else if first &&& 0x0f = 0x0d then validateByte second 0xe0 0x80
  else isContinuation second

/-- The second of four bytes: no overlong form and nothing above the last plane. -/
def validSecondOfFour (first second : UInt8) : Bool :=
  if first &&& 0x07 = 0 then isContinuation second && !(second &&& 0x30 = 0)
  else if first &&& 0x07 = 4 then validateByte second 0xf0 0x80
  else isContinuation second

/-- How many bytes are valid, up to a NUL or the end. -/
def fastValidateLen : Bytes → Nat
  | [] => 0
  | first :: rest =>
    if first = 0 then 0
    else if first < 128 then fastValidateLen rest + 1
    else if first < 0xe0 then
      match rest with
      | second :: rest =>
        if 0xc2 ≤ first ∧ isContinuation second then fastValidateLen rest + 2 else 0
      | _ => 0
    else if first < 0xf0 then
      match rest with
      | second :: third :: rest =>
        if validSecondOfThree first second && isContinuation third then fastValidateLen rest + 3 else 0
      | _ => 0
    else if first < 0xf5 then
      match rest with
      | second :: third :: fourth :: rest =>
        if validSecondOfFour first second && isContinuation third && isContinuation fourth then
          fastValidateLen rest + 4
        else 0
      | _ => 0
    else 0

def xutf8ValidateLen (string : Bytes) : Bool × Nat :=
  (decide (fastValidateLen string = string.length), fastValidateLen string)

end Xpl.Text
