import Xpl.Text.Validation

/-! Conversions among UTF-8, UTF-16 and UCS-4.

Each converter scans its input twice: once to count the output and once to write it. The
counters are 32-bit signed integers. A function returns `none` where the program reads
outside its input or writes outside the block that it allocated. A length is absent when
it is negative, and the input is then terminated by a zero.
-/

set_option autoImplicit false

namespace Xpl.Text
open Xpl.Library

inductive ConvertCode where
  | illegalSequence | noMemory | partialInput
  deriving DecidableEq, Repr

structure ConvertError where
  code : ConvertCode
  message : String
  deriving DecidableEq, Repr

def partialCharacter : ConvertError := ⟨.partialInput, "Partial character sequence at end of input"⟩
def invalidBytes : ConvertError := ⟨.illegalSequence, "Invalid byte sequence in conversion input"⟩
def invalidSequence : ConvertError := ⟨.illegalSequence, "Invalid sequence in conversion input"⟩
def beyondUtf8 : ConvertError := ⟨.illegalSequence, "Character out of range for UTF-8"⟩
def beyondUtf16 : ConvertError := ⟨.illegalSequence, "Character out of range for UTF-16"⟩
def outOfMemory : ConvertError := ⟨.noMemory, "Failed to allocate memory"⟩

/-- The units that were written, the terminator included, with `items_read` and
`items_written`; or the error with `items_read`. -/
inductive Conversion (α : Type) where
  | written (units : List α) (itemsRead itemsWritten : Nat)
  | failed (error : ConvertError) (itemsRead : Nat)
  deriving DecidableEq, Repr

/-- The value of an `xint_t` after an operation. -/
def wrapInt (n : Int) : Int := n.bmod (2 ^ 32)

section
variable (alloc : Nat → Bool)

/-- `try_malloc_n`. `alloc` says which requests the system serves. -/
def tryMallocN (blocks : Int) (blockBytes : Nat) : Bool :=
  let bytes := (blocks % 2 ^ 64).toNat * blockBytes
  bytes < 2 ^ 64 && bytes ≠ 0 && alloc bytes

/-! ## Characters -/

def utf8Length (c : Nat) : Nat :=
  if c < 0x80 then 1
  else if c < 0x800 then 2
  else if c < 0x10000 then 3
  else if c < 0x200000 then 4
  else if c < 0x4000000 then 5
  else 6

/-- The loop of `xunichar_to_utf8`, from the last byte to the first. -/
def trailingBytes : Nat → Nat → Nat × Bytes
  | 0, c => (c, [])
  | count + 1, c =>
    let (high, bytes) := trailingBytes count (c >>> 6)
    (high, bytes ++ [UInt8.ofNat (c &&& 0x3f ||| 0x80)])

def xunicharToUtf8 (c : Nat) : Bytes :=
  let (first, length) :=
    if c < 0x80 then (0, 1)
    else if c < 0x800 then (0xc0, 2)
    else if c < 0x10000 then (0xe0, 3)
    else if c < 0x200000 then (0xf0, 4)
    else if c < 0x4000000 then (0xf8, 5)
    else (0xfc, 6)
  let (high, bytes) := trailingBytes (length - 1) c
  UInt8.ofNat (high ||| first) :: bytes

def utf8Get (string : Bytes) (position : Nat) : Nat → Nat → Nat → Option Nat
  | 0, _, wc => some wc
  | count + 1, index, wc => do
    let byte ← string[position + index]?
    if byte &&& 0xc0 ≠ 0x80 then return malformedSequence
    utf8Get string position count (index + 1) (wc <<< 6 ||| (byte &&& 0x3f).toNat)

/-- `UTF8_COMPUTE` and `UTF8_GET`. -/
def xutf8GetChar (string : Bytes) (position : Nat) : Option Nat := do
  let first ← string[position]?
  let c := first.toNat
  if c < 128 then utf8Get string position 0 1 (c &&& 0x7f)
  else if c &&& 0xe0 = 0xc0 then utf8Get string position 1 1 (c &&& 0x1f)
  else if c &&& 0xf0 = 0xe0 then utf8Get string position 2 1 (c &&& 0x0f)
  else if c &&& 0xf8 = 0xf0 then utf8Get string position 3 1 (c &&& 0x07)
  else if c &&& 0xfc = 0xf8 then utf8Get string position 4 1 (c &&& 0x03)
  else if c &&& 0xfe = 0xfc then utf8Get string position 5 1 (c &&& 0x01)
  else return malformedSequence

def utf16Units (wc : Nat) : Except ConvertError Nat :=
  if wc < 0xd800 then .ok 1
  else if wc < 0xe000 then .error invalidSequence
  else if wc < 0x10000 then .ok 1
  else if wc < 0x110000 then .ok 2
  else .error beyondUtf16

/-- The units of a character as both writing passes store them. -/
def writeUtf16 (wc : Nat) : List Nat :=
  if wc < 0x10000 then [wc]
  else [((wc - 0x10000) / 0x400 + 0xd800) % 2 ^ 16, ((wc - 0x10000) % 0x400 + 0xdc00) % 2 ^ 16]

def surrogateValue (high low : Nat) : Nat :=
  ((high + (2 ^ 32 - 0xd800)) * 0x400 + low + (2 ^ 32 - 0xdc00) + 0x10000) % 2 ^ 32

/-! ## From UTF-8 -/

section FromUtf8
variable (string : Bytes) (len : Option Nat)

/-- The counting pass: the count and the position, or the error and the position.
`wantsRead` is whether the caller passes `items_read`. -/
def utf8Scan (units : Nat → Except ConvertError Nat) (wantsRead : Bool) :
    Nat → Nat → Int → Option (Except ConvertError Int × Nat)
  | 0, _, _ => none
  | fuel + 1, position, count =>
    if len.any (· ≤ position) then some (.ok count, position)
    else do
      let first ← string[position]?
      if first = 0 then return (.ok count, position)
      let wc ← xutf8GetCharExtended string position (some (len.elim 6 (· - position)))
      if wc &&& 0x80000000 ≠ 0 then
        if wc = partialSequence then
          if wantsRead then return (.ok count, position) else return (.error partialCharacter, position)
        return (.error invalidBytes, position)
      match units wc with
      | .error error => return (.error error, position)
      | .ok more => utf8Scan units wantsRead fuel (position + utf8Skip first) (wrapInt (count + more))

/-- The writing pass: the units and the position. `capacity` counts the units of the block. -/
def utf8Write (emit : Nat → List Nat) (count : Int) (capacity : Nat) : Nat → Nat → Nat → Option (List Nat × Nat × Nat)
  | 0, _, _ => none
  | fuel + 1, position, index =>
    if (index : Int) < count then do
      let wc ← xutf8GetChar string position
      let first ← string[position]?
      if index + (emit wc).length ≤ capacity then
        let (units, stop, total) ←
          utf8Write emit count capacity fuel (position + utf8Skip first) (index + (emit wc).length)
        return (emit wc ++ units, stop, total)
      else none
    else if index < capacity then some ([0], position, index)
    else none

/-- The two passes with what differs between the two targets. -/
def convertUtf8 (units : Nat → Except ConvertError Nat) (emit : Nat → List Nat) (unitBytes : Nat) (wantsRead : Bool) :
    Option (Conversion Nat) := do
  match ← utf8Scan string len units wantsRead (string.length + 1) 0 0 with
  | (.error error, position) => return .failed error position
  | (.ok count, position) =>
    if tryMallocN alloc (wrapInt (count + 1)) unitBytes then
      let (result, stop, _) ←
        utf8Write string emit count (wrapInt (count + 1)).toNat (string.length + 1) 0 0
      return .written result stop count.toNat
    else return .failed outOfMemory position

def xutf8ToUcs4 (wantsRead : Bool) : Option (Conversion Nat) :=
  convertUtf8 alloc string len (fun _ => .ok 1) (fun wc => [wc]) 4 wantsRead

def xutf8ToUtf16 (wantsRead : Bool) : Option (Conversion Nat) :=
  convertUtf8 alloc string len utf16Units writeUtf16 2 wantsRead

end FromUtf8

/-! ## From UTF-16 -/

/-- The counting pass: the count, the position and the pending high surrogate. `size` is
what a character adds. -/
def utf16Scan (size : Nat → Nat) :
    List Nat → Option Nat → Nat → Nat → Int → Option (Except ConvertError (Int × Nat) × Nat)
  | [], remaining, position, high, count => if remaining = some 0 then some (.ok (count, high), position) else none
  | c :: units, remaining, position, high, count =>
    if remaining = some 0 ∨ c = 0 then some (.ok (count, high), position)
    else if 0xdc00 ≤ c ∧ c < 0xe000 then
      if high ≠ 0 then
        utf16Scan size units (remaining.map (· - 1)) (position + 1) 0
          (wrapInt (count + size (surrogateValue high c)))
      else some (.error invalidSequence, position)
    else if high ≠ 0 then some (.error invalidSequence, position)
    else if 0xd800 ≤ c ∧ c < 0xdc00 then
      utf16Scan size units (remaining.map (· - 1)) (position + 1) c count
    else utf16Scan size units (remaining.map (· - 1)) (position + 1) 0 (wrapInt (count + size c))

def utf16Write {α : Type} (size : Nat → Nat) (emit : Nat → List α) (count : Int) (capacity : Nat) :
    List Nat → Nat → Nat → Nat → Option (List α × Nat × Nat)
  | [], position, _, out => if (out : Int) < count then none else some ([], position, out)
  | c :: units, position, high, out =>
    if (out : Int) < count then
      if 0xd800 ≤ c ∧ c < 0xdc00 then utf16Write size emit count capacity units (position + 1) c out
      else
        let wc := if 0xdc00 ≤ c ∧ c < 0xe000 then surrogateValue high c else c
        if out + size wc ≤ capacity then do
          let high := if 0xdc00 ≤ c ∧ c < 0xe000 then 0 else high
          let (written, stop, total) ←
            utf16Write size emit count capacity units (position + 1) high (out + size wc)
          return (emit wc ++ written, stop, total)
        else none
    else some ([], position, out)

/-- The two passes with what differs between the two targets; `unitBytes` is the size of a
unit of the output. -/
def convertUtf16 {α : Type} (size : Nat → Nat) (emit : Nat → List α) (zero : α) (unitBytes : Nat) (units : List Nat)
    (len : Option Nat) (wantsRead : Bool) : Option (Conversion α) := do
  match ← utf16Scan size units len 0 0 0 with
  | (.error error, position) => return .failed error position
  | (.ok (count, high), position) =>
    if high ≠ 0 ∧ !wantsRead then return .failed partialCharacter position
    if tryMallocN alloc (wrapInt (count + unitBytes)) 1 then
      let capacity := (wrapInt (count + unitBytes)).toNat
      let (written, stop, total) ← utf16Write size emit count capacity units 0 0 0
      if total + unitBytes ≤ capacity then return .written (written ++ [zero]) stop (total / unitBytes) else none
    else return .failed outOfMemory position

def xutf16ToUtf8 (units : List Nat) (len : Option Nat) (wantsRead : Bool) : Option (Conversion UInt8) :=
  convertUtf16 alloc utf8Length xunicharToUtf8 0 1 units len wantsRead

def xutf16ToUcs4 (units : List Nat) (len : Option Nat) (wantsRead : Bool) : Option (Conversion Nat) :=
  convertUtf16 alloc (fun _ => 4) (fun wc => [wc]) 0 4 units len wantsRead

/-! ## From UCS-4 -/

/-- `str[i]` with a signed index. -/
def unitAt (units : List Nat) (index : Int) : Option Nat := if index < 0 then none else units[index.toNat]?

section FromUcs4
variable (units : List Nat)

/-- The counting pass of both converters: the count and the index. -/
def ucs4Scan (size : Nat → Except ConvertError Nat) (len : Option Nat) :
    Nat → Int → Int → Option (Except ConvertError Int × Int)
  | 0, _, _ => none
  | fuel + 1, index, count =>
    if len.any fun (length : Nat) => decide ((length : Int) ≤ index) then some (.ok count, index)
    else do
      let c ← unitAt units index
      if c = 0 then return (.ok count, index)
      match size c with
      | .error error => return (.error error, index)
      | .ok more => ucs4Scan size len fuel (wrapInt (index + 1)) (wrapInt (count + more))

def ucs4Write {α : Type} (emit : Nat → List α) (zero : α) (count : Int) (capacity : Nat) :
    Nat → Int → Nat → Option (List α × Int × Nat)
  | 0, _, _ => none
  | fuel + 1, index, out =>
    if (out : Int) < count then do
      let c ← unitAt units index
      if out + (emit c).length ≤ capacity then
        let (written, stop, total) ←
          ucs4Write emit zero count capacity fuel (wrapInt (index + 1)) (out + (emit c).length)
        return (emit c ++ written, stop, total)
      else none
    else if out < capacity then some ([zero], index, out)
    else none

def convertUcs4 {α : Type} (size : Nat → Except ConvertError Nat) (emit : Nat → List α) (zero : α) (unitBytes : Nat)
    (len : Option Nat) : Option (Conversion α) := do
  match ← ucs4Scan units size len (units.length + 1) 0 0 with
  | (.error error, index) => return .failed error index.toNat
  | (.ok count, index) =>
    if tryMallocN alloc (wrapInt (count + 1)) unitBytes then
      let (written, stop, total) ←
        ucs4Write units emit zero count (wrapInt (count + 1)).toNat (units.length + 1) 0 0
      return .written written stop.toNat total
    else return .failed outOfMemory index.toNat

/-- The size that `g_ucs4_to_utf8` adds. -/
def utf8Size (c : Nat) : Except ConvertError Nat := if c ≥ 0x80000000 then .error beyondUtf8 else .ok (utf8Length c)

def gUcs4ToUtf8 (len : Option Nat) : Option (Conversion UInt8) :=
  convertUcs4 alloc units utf8Size xunicharToUtf8 0 1 len

def gUcs4ToUtf16 (len : Option Nat) : Option (Conversion Nat) :=
  convertUcs4 alloc units utf16Units writeUtf16 0 2 len

end FromUcs4

end

end Xpl.Text
