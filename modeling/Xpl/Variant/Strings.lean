import Xpl.Text.Utf8
import Xpl.Variant.TypeString

/-! Strings, object paths and signatures as they are stored, with their terminator. -/

set_option autoImplicit false

namespace Xpl.Variant
open Xpl.Library Xpl.Text

def xvariantSerialiserIsString (data : Bytes) : Bool :=
  match data.getLast? with
  | none => false
  | some last => last = 0 && (xutf8ValidateLen data).2 = data.length - 1

def isAsciiAlnum (c : UInt8) : Bool :=
  (ascii '0' ≤ c && c ≤ ascii '9') || (ascii 'A' ≤ c && c ≤ ascii 'Z') || (ascii 'a' ≤ c && c ≤ ascii 'z')

/-- The elements of a path after `previous`, up to the NUL: the byte before it. -/
def scanObjectPath (previous : UInt8) : Bytes → Option UInt8
  | [] => none
  | c :: rest =>
    if c = 0 then some previous
    else if isAsciiAlnum c || c = ascii '_' then scanObjectPath c rest
    else if c = ascii '/' then
      if previous = ascii '/' then none else scanObjectPath c rest
    else none

def xvariantSerialiserIsObjectPath (data : Bytes) : Bool :=
  xvariantSerialiserIsString data &&
    match data with
    | [] => false
    | first :: rest =>
      first = ascii '/' &&
        match scanObjectPath first rest with
        | none => false
        -- A trailing slash is the root path or an error.
        | some last => !(rest.head? ≠ some 0 && last = ascii '/')

def signatureChars : List UInt8 := "ybnqiuxthdvasog(){}".toList.map ascii

/-- `while (*string) scan`; every scan consumes at least one byte. -/
def scanSignature : Nat → Bytes → Bool
  | 0, string => string.isEmpty
  | fuel + 1, string =>
    if string.isEmpty then true
    else
      match xvariantTypeStringScan string with
      | some rest => scanSignature fuel rest
      | none => false

def xvariantSerialiserIsSignature (data : Bytes) : Bool :=
  xvariantSerialiserIsString data &&
    let string := data.takeWhile (· ≠ 0)
    string.all (· ∈ signatureChars) && scanSignature string.length string

end Xpl.Variant
