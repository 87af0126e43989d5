import Mathlib.Data.List.Nodup
import Xpl.Variant.Value

/-! D-Bus messages as they are held in memory, and what makes their headers acceptable.

Values are stored in the order of the machine, which is little-endian. The table of headers
is a list in the order of an iteration over it; no field is in it twice.
-/

set_option autoImplicit false

namespace Xpl.Dbus
open Xpl.Library Xpl.Variant

/-! ## Errors -/

inductive Argument where
  | text (string : Option Bytes)
  | number (n : Int)
  deriving DecidableEq, Repr

/-- An error of the code `INVALID_ARGUMENT`: its format and what is printed with it. -/
structure Failure where
  format : String
  arguments : List Argument := []
  deriving DecidableEq, Repr

/-! ## Messages -/

inductive ByteOrder where
  | bigEndian | littleEndian
  deriving DecidableEq, Repr

def ByteOrder.char : ByteOrder → UInt8
  | .bigEndian => ascii 'B'
  | .littleEndian => ascii 'l'

def typeInvalid : UInt8 := 0
def typeMethodCall : UInt8 := 1
def typeMethodReturn : UInt8 := 2
def typeError : UInt8 := 3
def typeSignal : UInt8 := 4

def fieldPath : UInt8 := 1
def fieldInterface : UInt8 := 2
def fieldMember : UInt8 := 3
def fieldErrorName : UInt8 := 4
def fieldReplySerial : UInt8 := 5
def fieldSignature : UInt8 := 8
def fieldNumUnixFds : UInt8 := 9

/-- What a message is made of. -/
structure Contents where
  byteOrder : ByteOrder
  type : UInt8
  flags : UInt8
  serial : UInt32
  headers : List (UInt8 × Value)
  body : Option Value

/-- A message that is built from well-formed values. -/
structure Message extends Contents where
  /-- The length of the list of file descriptors. -/
  numFds : Int32
  distinct : (headers.map Prod.fst).Nodup
  headersValid : ∀ header ∈ headers, header.2.wellFormed = true
  bodyValid : ∀ value ∈ body, value.wellFormed = true

namespace Contents

variable (m : Contents)

def getHeader (field : UInt8) : Option Value := m.headers.lookup field

def getBasicHeader (field : UInt8) (basic : Basic) : Option Bytes :=
  match m.getHeader field with
  | some (.leaf b bytes) => if b = basic then some bytes else none
  | _ => none

def getUint32Header (field : UInt8) : UInt32 := UInt32.ofNat (leValue ((m.getBasicHeader field .uint32).getD []))
def getStringHeader (field : UInt8) : Option Bytes := (m.getBasicHeader field .string).map List.dropLast
def getObjectPathHeader (field : UInt8) : Option Bytes := (m.getBasicHeader field .objectPath).map List.dropLast

def getNumUnixFds : UInt32 := m.getUint32Header fieldNumUnixFds
def getPath : Option Bytes := m.getObjectPathHeader fieldPath
def getInterface : Option Bytes := m.getStringHeader fieldInterface

def lacks (field : UInt8) : Bool := (m.getHeader field).isNone

def validateHeaders : Except String Unit :=
  if m.type = typeInvalid then .error "type is INVALID"
  else if m.type = typeMethodCall then
    if m.lacks fieldPath || m.lacks fieldMember then
      .error "METHOD_CALL message: PATH or MEMBER header field is missing"
    else .ok ()
  else if m.type = typeMethodReturn then
    if m.lacks fieldReplySerial then .error "METHOD_RETURN message: REPLY_SERIAL header field is missing"
    else .ok ()
  else if m.type = typeError then
    if m.lacks fieldErrorName || m.lacks fieldReplySerial then
      .error "ERROR message: REPLY_SERIAL or ERROR_NAME header field is missing"
    else .ok ()
  else if m.type = typeSignal then
    if m.lacks fieldPath || m.lacks fieldInterface || m.lacks fieldMember then
      .error "SIGNAL message: PATH, INTERFACE or MEMBER header field is missing"
    else if m.getPath = some ("/org/freedesktop/DBus/Local".toList.map ascii) then
      .error "SIGNAL message: The PATH header field is using the reserved value /org/freedesktop/DBus/Local"
    else if m.getInterface = some ("org.freedesktop.DBus.Local".toList.map ascii) then
      .error "SIGNAL message: The INTERFACE header field is using the reserved value org.freedesktop.DBus.Local"
    else .ok ()
  else .ok ()

end Contents

namespace Message

variable (m : Message)

def headerEntry (header : UInt8 × Value) : Value :=
  .node (.dictEntry .byte .variant) [.leaf .byte [header.1], .node .variant [header.2]]

/-- The headers as a value of type `a{yv}`. -/
def headerFields : Value := .node (.array (.dictEntry .byte .variant)) (m.headers.map headerEntry)

theorem headerFields_wellFormed : m.headerFields.wellFormed = true := by
  rw [headerFields, Value.wellFormed_node]
  constructor
  · simp [VariantType.admits, headerEntry, Value.type]
  · intro child member
    obtain ⟨header, held, rfl⟩ := List.mem_map.mp member
    have valid := m.headersValid header held
    simp [headerEntry, Value.wellFormed, Value.allWellFormed, Value.types, Value.type, VariantType.admits, Basic.accepts, Basic.info, valid]

end Message

/-! Messages as they are written to the wire.

The buffer is the bytes that are valid in it, and its position is their end but where a
length is filled in.
-/

def emptyStructure : Failure := ⟨"Empty structures (tuples) are not allowed in D-Bus", []⟩

def unserializable (typeString : Option Bytes) : Failure :=
  ⟨"Error serializing xvariant_t with type string “%s” to the D-Bus wire format", [.text typeString]⟩

def differingFds (inMessage accordingToHeader : Int32) : Failure :=
  ⟨"Number of file descriptors in message (%d) differs from header field (%d)", [.number inMessage.toInt, .number accordingToHeader.toInt]⟩

def cannotSerialize (text : String) : Failure := ⟨"Cannot serialize message: " ++ text, []⟩

def signatureOfWrongType : Failure := ⟨"Signature header found but is not of type signature", []⟩

def missingSignature (typeString : Bytes) : Failure :=
  ⟨"Message body has signature “%s” but there is no signature header", [.text typeString]⟩

def differingSignature (typeString tupledSignature : Bytes) : Failure :=
  ⟨"Message body has type signature “%s” but signature in the header field is “%s”", [.text typeString, .text tupledSignature]⟩

def missingBody (signature : Bytes) : Failure :=
  ⟨"Message body is empty but signature in the header field is “(%s)”", [.text signature]⟩

def tupleExpected : Failure := ⟨"Expected a tuple for the body of the xdbus_message_t.", []⟩

/-! ## Words -/

def ByteOrder.put (order : ByteOrder) (width value : Nat) : Bytes :=
  match order with
  | .bigEndian => beBytes width value
  | .littleEndian => leBytes width value

def ByteOrder.arrange (order : ByteOrder) (stored : Bytes) : Bytes :=
  match order with
  | .bigEndian => stored.reverse
  | .littleEndian => stored

def ByteOrder.get (order : ByteOrder) (bytes : Bytes) : Nat :=
  match order with
  | .bigEndian => leValue bytes.reverse
  | .littleEndian => leValue bytes

@[simp] theorem ByteOrder.length_put (order : ByteOrder) (width value : Nat) : (order.put width value).length = width := by
  cases order
  · exact length_beBytes width value
  · exact length_leBytes width value

theorem ByteOrder.get_put (order : ByteOrder) {width value : Nat} (fits : value < 256 ^ width) :
    order.get (order.put width value) = value := by
  cases order with
  | bigEndian =>
    rw [put, get, beBytes, List.reverse_reverse]
    exact leValue_leBytes width value fits
  | littleEndian => exact leValue_leBytes width value fits

/-! ## Values -/

/-- The multiple that the value of a basic type starts at. -/
def wireAlignment : Basic → Nat
  | .byte | .signature => 1
  | .int16 | .uint16 => 2
  | .boolean | .int32 | .uint32 | .handle | .string | .objectPath => 4
  | .int64 | .uint64 | .double => 8

/-- `get_type_fixed_size`. Booleans are not of the same size in both formats. -/
def getTypeFixedSize : VariantType → Nat
  | .basic .byte => 1
  | .basic .int16 | .basic .uint16 => 2
  | .basic .int32 | .basic .uint32 | .basic .handle => 4
  | .basic .int64 | .basic .uint64 | .basic .double => 8
  | _ => 0

def paddingNeeded (offset size : Nat) : Nat := roundUp offset (size - 1) - offset

def ensureOutputPadding (buffer : Bytes) (size : Nat) : Bytes × Nat :=
  (buffer ++ zeros (paddingNeeded buffer.length size), paddingNeeded buffer.length size)

def ByteOrder.putBasic (order : ByteOrder) (basic : Basic) (stored : Bytes) : Bytes :=
  match basic with
  | .boolean => order.put 4 (leValue stored)
  | .string | .objectPath => order.put 4 (stored.length - 1) ++ stored
  | .signature => UInt8.ofNat (stored.length - 1) :: stored
  | _ => order.arrange stored

/-- `append_value_to_blob` with no value, for the elements of an empty array. -/
def appendNoValue (buffer : Bytes) : VariantType → Except Failure (Bytes × Nat)
  | .basic basic => .ok (ensureOutputPadding buffer (wireAlignment basic))
  | .array _ => .ok (ensureOutputPadding buffer 4)
  | .tuple [] => .error emptyStructure
  | .tuple _ | .dictEntry _ _ => .ok (ensureOutputPadding buffer 8)
  | .variant => .ok (buffer, 0)
  | .maybe _ => .error (unserializable none)

/-- The length of an array stands in for this until the array is written. -/
def placeholder : Nat := 0xf00dface

/-- The elements of an array behind its length, and the padding before the first one. `items`
is what the children give when they are written one by one. -/
def appendElements (order : ByteOrder) (buffer : Bytes) (element : VariantType) (children : List Value)
    (items : Except Failure (Bytes × Nat)) : Except Failure (Bytes × Nat) :=
  if children.isEmpty then appendNoValue buffer element
  else if getTypeFixedSize element ≠ 0 then
    let padded := ensureOutputPadding buffer (getTypeFixedSize element)
    .ok (padded.1 ++ children.flatMap fun child => order.arrange child.encode, padded.2)
  else items

mutual
def appendValue (order : ByteOrder) (buffer : Bytes) : Value → Except Failure (Bytes × Nat)
  | .leaf basic stored =>
    let padded := ensureOutputPadding buffer (wireAlignment basic)
    .ok (padded.1 ++ order.putBasic basic stored, padded.2)
  -- no value of a basic type is a node
  | .node (.basic _) _ => .ok (buffer, 0)
  | .node (.array element) children => do
    let padded := ensureOutputPadding buffer 4
    let opened := padded.1 ++ order.put 4 placeholder
    let written ← appendElements order opened element children (appendItems order opened children)
    let arrayLen := written.1.length - (opened.length + written.2)
    return (splice written.1 padded.1.length (order.put 4 arrayLen), padded.2)
  | .node (.tuple []) _ => .error emptyStructure
  | .node (.tuple _) children | .node (.dictEntry _ _) children => do
    let padded := ensureOutputPadding buffer 8
    let written ← appendItems order padded.1 children
    return (written.1, padded.2)
  | .node .variant children => do
    -- the type string of the only child
    let signature := (Value.types children).flatMap VariantType.string
    let written ← appendItems order (buffer ++ UInt8.ofNat signature.length :: (signature ++ [0])) children
    return (written.1, 0)
  | .node (.maybe element) _ => .error (unserializable (some (VariantType.maybe element).string))

def appendItems (order : ByteOrder) (buffer : Bytes) : List Value → Except Failure (Bytes × Nat)
  | [] => .ok (buffer, 0)
  | item :: items => do
    let written ← appendValue order buffer item
    let rest ← appendItems order written.1 items
    return (rest.1, written.2)
end

def appendBody (order : ByteOrder) (buffer : Bytes) : Value → Except Failure Bytes
  | .node (.tuple _) children => do
    let written ← appendItems order buffer children
    return written.1
  | _ => .error tupleExpected

/-! ## Messages -/

namespace Message

variable (m : Message)

/-- The first twelve bytes, with a given length of the body. -/
def coreHeader (bodyLen : Nat) : Bytes :=
  [m.byteOrder.char, m.type, m.flags, 1] ++ m.byteOrder.put 4 bodyLen ++ m.byteOrder.put 4 m.serial.toNat

/-- What precedes the headers is checked before they are written. -/
def checkBefore : Except Failure Unit :=
  if m.numFds ≠ m.getNumUnixFds.toInt32 then .error (differingFds m.numFds m.getNumUnixFds.toInt32)
  else
    match m.validateHeaders with
    | .error text => .error (cannotSerialize text)
    | .ok () => .ok ()

def signatureHeader : Except Failure (Option Bytes) :=
  match m.getHeader fieldSignature with
  | none => .ok none
  | some (.leaf .signature stored) => .ok (some stored.dropLast)
  | some _ => .error signatureOfWrongType

def checkSignature (signature : Option Bytes) : Except Failure Unit :=
  match m.body, signature with
  | some body, none => .error (missingSignature body.type.string)
  | some body, some signature =>
    if ascii '(' :: (signature ++ [ascii ')']) ≠ body.type.string then
      .error (differingSignature body.type.string (ascii '(' :: (signature ++ [ascii ')'])))
    else .ok ()
  | none, some signature => if 0 < signature.length then .error (missingBody signature) else .ok ()
  | none, none => .ok ()

def appendOwnBody (opened : Bytes) : Except Failure Bytes :=
  match m.body with
  | some body => appendBody m.byteOrder opened body
  | none => .ok opened

/-- `xdbus_message_to_blob`. -/
def toBlob : Except Failure Bytes := do
  m.checkBefore
  let headers ← appendValue m.byteOrder (m.coreHeader placeholder) m.headerFields
  let opened := (ensureOutputPadding headers.1 8).1
  let signature ← m.signatureHeader
  m.checkSignature signature
  let written ← m.appendOwnBody opened
  let bodySize := written.length - opened.length
  return splice written 4 (m.byteOrder.put 4 bodySize)

end Message

end Xpl.Dbus
