import Xpl.Dbus.Writing
import Xpl.Library.Sequences

/-! Messages as they are read from the wire.

A reader takes the position in the blob and gives what it has read with the position behind
it. Every array leaves a frame: what its length says, and what its elements have taken.
-/

set_option autoImplicit false

namespace Xpl.Dbus
open Xpl.Library Xpl.Variant Xpl.Text

/-- A failure with its error, or an assertion that does not hold. -/
inductive Halt where
  | failure (failure : Failure)
  | assertion
  deriving DecidableEq, Repr

def fails {α : Type} (format : String) (arguments : List Argument) : Except Halt α := .error (.failure ⟨format, arguments⟩)

/-- The elements of an array, from the end of the padding in front of them. -/
structure Frame where
  start : Nat
  declared : Nat
  stop : Nat
  deriving DecidableEq, Repr

/-- The elements take as many bytes as are declared. -/
def Frame.Exact (frame : Frame) : Prop := frame.stop = frame.start + frame.declared

instance (frame : Frame) : Decidable frame.Exact := inferInstanceAs (Decidable (_ = _))

abbrev FramedValue := Value × List Frame

section Words
variable (order : ByteOrder) (blob : Bytes)

def inputPadding (position size : Nat) : Nat := roundUp position (size - 1)

def readByte (position : Nat) : Except Halt (UInt8 × Nat) :=
  match blob[position]? with
  | some byte => .ok (byte, position + 1)
  | none => fails "Unexpected end of message while reading byte." []

/-- A word in the order of the machine. No word is read before there are as many bytes as it takes. -/
def readWord (kind : String) (width position : Nat) : Except Halt (Bytes × Nat) :=
  if position + width ≤ blob.length then .ok (order.arrange (slice blob position (position + width)), position + width)
  else fails ("Unexpected end of message while reading " ++ kind ++ ".") []

def readUint32 (position : Nat) : Except Halt (Nat × Nat) := do
  let word ← readWord order blob "uint32" 4 position
  return (leValue word.1, word.2)

/-- The position is at the end by the time that the rest is printed. -/
def wantedBytes {α : Type} (len : Nat) : Except Halt α :=
  fails (if len = 1 then "Wanted to read %lu byte but only got %lu" else "Wanted to read %lu bytes but only got %lu")
    [.number len, .number 0]

def readString (len position : Nat) : Except Halt (Bytes × Nat) :=
  match blob[position + len]? with
  | none => wantedBytes len
  | some byte =>
    let string := (blob.drop position).takeWhile (· ≠ 0)
    if byte ≠ 0 then
      fails "Expected NUL byte after the string “%s” but found byte %d" [.text (some (string.take len)), .number byte.toInt8.toInt]
    else if !(xutf8ValidateLen string).1 then
      fails ("Expected valid UTF-8 string but found invalid bytes at byte offset %d (length of string is %d). " ++
        "The valid UTF-8 string up until that point was “%s”")
        [.number (xutf8ValidateLen string).2, .number len, .text (some (string.take (xutf8ValidateLen string).2))]
    else .ok (string, position + len + 1)

def readBytes (len position : Nat) : Except Halt (Bytes × Nat) :=
  if position + len ≤ blob.length then .ok (slice blob position (position + len), position + len)
  else wantedBytes len

/-- A value of a basic type as it is stored, with the padding before it. -/
def readBasic (basic : Basic) (position : Nat) : Except Halt (Bytes × Nat) :=
  match basic with
  | .boolean => do
    let value ← readUint32 order blob (inputPadding position 4)
    -- the boolean goes through a byte
    return ([UInt8.ofNat value.1], value.2)
  | .byte => do
    let byte ← readByte blob position
    return ([byte.1], byte.2)
  | .int16 => readWord order blob "int16" 2 (inputPadding position 2)
  | .uint16 => readWord order blob "uint16" 2 (inputPadding position 2)
  | .int32 | .handle => readWord order blob "int32" 4 (inputPadding position 4)
  | .uint32 => readWord order blob "uint32" 4 (inputPadding position 4)
  | .int64 => readWord order blob "int64" 8 (inputPadding position 8)
  | .uint64 | .double => readWord order blob "uint64" 8 (inputPadding position 8)
  | .string => do
    let len ← readUint32 order blob (inputPadding position 4)
    let string ← readString blob len.1 len.2
    return (string.1 ++ [0], string.2)
  | .objectPath => do
    let len ← readUint32 order blob (inputPadding position 4)
    let string ← readString blob len.1 len.2
    if xvariantSerialiserIsObjectPath (string.1 ++ [0]) then return (string.1 ++ [0], string.2)
    else fails "Parsed value “%s” is not a valid D-Bus object path" [.text (some string.1)]
  | .signature => do
    let len ← readByte blob position
    let string ← readString blob len.1.toNat len.2
    if xvariantSerialiserIsSignature (string.1 ++ [0]) then return (string.1 ++ [0], string.2)
    else fails "Parsed value “%s” is not a valid D-Bus signature" [.text (some string.1)]

end Words

/-! ## Values -/

def typeAlignment : VariantType → Nat
  | .basic basic => wireAlignment basic
  | .array _ => 4
  | .tuple _ | .dictEntry _ _ => 8
  | .variant | .maybe _ => 1

/-- `parse_value_from_blob` with `just_align`, which does nothing when the depth is used up. -/
def justAlign : Nat → VariantType → Nat → Nat
  | 0, _, position => position
  | _ + 1, type, position => inputPadding position (typeAlignment type)

def nestedTooDeeply {α : Type} : Except Halt α := fails "Value nested too deeply" []

section Values
variable (order : ByteOrder) (blob : Bytes)

/-- The elements of an array of numbers, which are swapped all at once. -/
def fixedArray (element : VariantType) (data : Bytes) : Value :=
  let size := getTypeFixedSize element
  match element with
  | .basic basic => .node (.array element)
      ((List.range (data.length / size)).map fun i => .leaf basic (order.arrange (slice data (i * size) (i * size + size))))
  | _ => .node (.array element) []

/-- An array, given the reader of its elements and the depth that is left for them. -/
def parseArray (item : Nat → Except Halt (FramedValue × Nat)) (depth : Nat) (element : VariantType) (position : Nat) :
    Except Halt (FramedValue × Nat) := do
  let len ← readUint32 order blob (inputPadding position 4)
  let arrayLen := len.1
  let offset := len.2
  if 2 <<< 26 < arrayLen then
    fails (if arrayLen = 1 then "Encountered array of length %u byte. Maximum length is 2<<26 bytes (64 MiB)."
      else "Encountered array of length %u bytes. Maximum length is 2<<26 bytes (64 MiB).") [.number arrayLen]
  else if getTypeFixedSize element ≠ 0 then
    if arrayLen % getTypeFixedSize element ≠ 0 then
      fails "Encountered array of type “a%c”, expected to have a length a multiple of %u bytes, but found to be %u bytes in length"
        [.text (some (element.string.take 1)), .number (getTypeFixedSize element), .number arrayLen]
    else if depth = 0 then nestedTooDeeply
    else do
      let start := inputPadding offset (getTypeFixedSize element)
      let data ← readBytes blob arrayLen start
      return ((fixedArray order element data.1, [⟨start, arrayLen, data.2⟩]), data.2)
  else if arrayLen = 0 then
    let start := justAlign depth element offset
    return ((.node (.array element) [], [⟨start, 0, start⟩]), start)
  else do
    let items ← readUntil item .assertion (offset + arrayLen) arrayLen offset
    return ((.node (.array element) (items.1.map Prod.fst),
      ⟨inputPadding offset (typeAlignment element), arrayLen, items.2⟩ :: items.1.flatMap Prod.snd), items.2)

def readVariantType (depth position : Nat) : Except Halt (VariantType × Nat) := do
  let len ← readByte blob position
  let signature ← readString blob len.1.toNat len.2
  match VariantType.ofString signature.1 with
  | some type =>
    if !(xvariantSerialiserIsSignature (signature.1 ++ [0]) && xvariantTypeStringIsValid signature.1) then
      fails "Parsed value “%s” for variant is not a valid D-Bus signature" [.text (some signature.1)]
    else if depth + 1 ≤ xvariantTypeStringGetDepth signature.1 then nestedTooDeeply
    else return (type, signature.2)
  -- signatures have no characters of indefinite types
  | none => fails "Parsed value “%s” for variant is not a valid D-Bus signature" [.text (some signature.1)]

/-- The items of a tuple or a dictionary entry, from the padding before them. -/
def parseFields (item : VariantType → Nat → Except Halt (FramedValue × Nat)) (type : VariantType) (items : List VariantType) (position : Nat) :
    Except Halt (FramedValue × Nat) := do
  let fields ← readEach item items (inputPadding position 8)
  return ((.node type (fields.1.map Prod.fst), fields.1.flatMap Prod.snd), fields.2)

def parseValue : Nat → VariantType → Nat → Except Halt (FramedValue × Nat)
  | 0, _, _ => nestedTooDeeply
  | depth + 1, type, position =>
    match type with
    | .basic basic => do
      let stored ← readBasic order blob basic position
      return ((.leaf basic stored.1, []), stored.2)
    | .array element => parseArray order blob (parseValue depth element) depth element position
    | .dictEntry key value => parseFields (parseValue depth) type [.basic key, value] position
    | .tuple [] => fails "Empty structures (tuples) are not allowed in D-Bus" []
    | .tuple items => parseFields (parseValue depth) type items position
    | .variant => do
      let child ← readVariantType blob depth position
      let value ← parseValue depth child.1 child.2
      return ((.node .variant [value.1.1], value.1.2), value.2)
    | .maybe _ => fails "Error deserializing xvariant_t with type string “%s” from the D-Bus wire format" [.text (some type.string)]

end Values

/-! ## Messages -/

structure CoreHeader where
  byteOrder : ByteOrder
  type : UInt8
  flags : UInt8
  bodyLen : Nat
  serial : Nat

/-- The first twelve bytes. -/
def readCoreHeader (blob : Bytes) : Except Halt CoreHeader := do
  let endianness ← readByte blob 0
  let order ← (if endianness.1 = ByteOrder.littleEndian.char then .ok .littleEndian
    else if endianness.1 = ByteOrder.bigEndian.char then .ok .bigEndian
    else fails "Invalid endianness value. Expected 0x6c (“l”) or 0x42 (“B”) but found value 0x%02x" [.number endianness.1.toNat] :
    Except Halt ByteOrder)
  let type ← readByte blob endianness.2
  let flags ← readByte blob type.2
  let version ← readByte blob flags.2
  if version.1 ≠ 1 then fails "Invalid major protocol version. Expected 1 but found %d" [.number version.1.toNat]
  else do
    let bodyLen ← readUint32 order blob version.2
    let serial ← readUint32 order blob bodyLen.2
    return ⟨order, type.1, flags.1, bodyLen.1, serial.1⟩

/-- `G_DBUS_MAX_TYPE_DEPTH`: sixty-four containers and a value in them. -/
def maxTypeDepth : Nat := 64 + 1

def headersType : VariantType := .array (.dictEntry .byte .variant)

def setHeader (headers : List (UInt8 × Value)) : Value → List (UInt8 × Value)
  | .node _ [.leaf .byte [field], .node .variant [value]] => (field, value) :: headers.filter (·.1 ≠ field)
  | _ => headers

def headerContents (core : CoreHeader) (headers : Value) : Contents where
  byteOrder := core.byteOrder
  type := core.type
  flags := core.flags
  serial := UInt32.ofNat core.serial
  headers :=
    match headers with
    | .node _ entries => entries.foldl setHeader []
    | .leaf _ _ => []
  body := none

def bodyType (contents : Contents) (bodyLen : Nat) : Except Halt (Option VariantType) :=
  match contents.getHeader fieldSignature with
  | none =>
    if bodyLen ≠ 0 then
      fails (if bodyLen = 1 then "No signature header in message but the message body is %u byte"
        else "No signature header in message but the message body is %u bytes") [.number bodyLen]
    else .ok none
  | some (.leaf .signature stored) =>
    let signature := stored.dropLast
    let tupled := ascii '(' :: (signature ++ [ascii ')'])
    if bodyLen = 0 ∧ 0 < signature.length then
      fails "Signature header with signature “%s” found but message body is empty" [.text (some signature)]
    else if signature.length = 0 then .ok none
    else if !(xvariantSerialiserIsSignature stored && xvariantTypeStringIsValid tupled) then
      fails "Parsed value “%s” is not a valid D-Bus signature (for body)" [.text (some signature)]
    else
      match VariantType.ofString tupled with
      | some type => .ok (some type)
      | none => fails "Parsed value “%s” is not a valid D-Bus signature (for body)" [.text (some signature)]
  | some _ => fails "Signature header found but is not of type signature" []

def readBody (order : ByteOrder) (blob : Bytes) (type : Option VariantType) (position : Nat) : Except Halt (Option Value × List Frame) :=
  match type with
  | none => .ok (none, [])
  | some type => do
    let body ← parseValue order blob (maxTypeDepth + 1) type position
    return (some body.1.1, body.1.2)

/-- `xdbus_message_new_from_blob`, with the frames of the arrays in the headers and the body. -/
def newFromBlob (blob : Bytes) : Except Halt (Contents × List Frame) := do
  let core ← readCoreHeader blob
  let headers ← parseValue core.byteOrder blob (maxTypeDepth + 2) headersType 12
  let contents := headerContents core headers.1.1
  let type ← bodyType contents core.bodyLen
  let body ← readBody core.byteOrder blob type headers.2
  match contents.validateHeaders with
  | .error text => fails ("Cannot deserialize message: " ++ text) []
  | .ok () => return ({ contents with body := body.1 }, headers.1.2 ++ body.2)

end Xpl.Dbus
