import Xpl.Variant.TypeInfo

/-! Reading serialised data: the children of a container and the bytes they occupy.

A function returns `none` where the program reads a byte outside the value, fails
an assertion or reports an index out of bounds.
-/

set_option autoImplicit false

namespace Xpl.Variant
open Xpl.Library

/-- A pointer and the size that goes with it. -/
inductive Data where
  | null (size : Nat)
  | span (address : Nat) (bytes : Bytes)
  deriving DecidableEq, Repr

def Data.size : Data → Nat
  | .null size => size
  | .span _ bytes => bytes.length

def Data.bytes : Data → Bytes
  | .null _ => []
  | .span _ bytes => bytes

def Data.isNull : Data → Bool
  | .null _ => true
  | .span _ _ => false

def Data.address : Data → Nat
  | .null _ => 0
  | .span address _ => address

/-- `data + start` with size `stop - start`. -/
def Data.range (data : Data) (start stop : Nat) : Data :=
  match data with
  | .null _ => .null (stop - start)
  | .span address bytes => .span (address + start) (slice bytes start stop)

def Data.byte (data : Data) (position : Nat) : Option UInt8 :=
  match data with
  | .null _ => none
  | .span _ bytes => bytes[position]?

structure Serialised where
  type : VariantType
  data : Data
  depth : Nat

def Serialised.size (value : Serialised) : Nat := value.data.size

def wordSize : Nat := 2 ^ 64

/-- The child of a range of the data; an empty one has no data. -/
def Serialised.childAt (value : Serialised) (type : VariantType) (start stop : Nat) : Serialised :=
  { type := type
    data := if start < stop then value.data.range start stop else .null 0
    depth := value.depth + 1 }

/-- `xvariant_serialised_check` on the fields that it reads. -/
def serialisedCheck (type : VariantType) (size : Nat) (isNull : Bool) (address : Nat) : Bool :=
  -- The mask is `sizeof (struct { char; union of 8-byte types }) - 9`.
  let alignment := type.alignment &&& 7
  if type.fixedSize ≠ 0 ∧ size ≠ type.fixedSize then false
  else if type.fixedSize = 0 ∧ ¬(size = 0 ∨ isNull = false) then false
  else decide (size ≤ alignment) || decide (alignment &&& address = 0)

def xvariantSerialisedCheck (value : Serialised) : Bool :=
  serialisedCheck value.type value.size value.data.isNull value.data.address

/-! ## Offsets -/

/-- The bytes at `data + position`; a null pointer is read as zero. -/
def gvsReadUnalignedLe (data : Data) (position size : Nat) : Option Nat :=
  match data with
  | .null _ => if position = 0 then some 0 else none
  | .span _ bytes =>
    if position + size ≤ bytes.length then some (leValue (slice bytes position (position + size))) else none

def gvsGetOffsetSize (size : Nat) : Nat :=
  if size > 2 ^ 32 - 1 then 8
  else if size > 2 ^ 16 - 1 then 4
  else if size > 2 ^ 8 - 1 then 2
  else if size > 0 then 1
  else 0

/-! ## Maybes -/

def gvsFixedSizedMaybeNChildren (element : VariantType) (value : Serialised) : Nat :=
  if element.fixedSize = value.size then 1 else 0

def gvsFixedSizedMaybeGetChild (element : VariantType) (value : Serialised) : Serialised :=
  { type := element, data := value.data, depth := value.depth + 1 }

def gvsVariableSizedMaybeNChildren (value : Serialised) : Nat := if value.size > 0 then 1 else 0

def gvsVariableSizedMaybeGetChild (element : VariantType) (value : Serialised) : Serialised :=
  { type := element
    data := if value.size - 1 = 0 then .null 0 else value.data.range 0 (value.size - 1)
    depth := value.depth + 1 }

/-! ## Arrays -/

def gvsFixedSizedArrayNChildren (element : VariantType) (value : Serialised) : Nat :=
  if value.size % element.fixedSize = 0 then value.size / element.fixedSize else 0

def gvsFixedSizedArrayGetChild (element : VariantType) (value : Serialised) (index : Nat) : Serialised :=
  let size := element.fixedSize
  { type := element, data := value.data.range (size * index) (size * index + size), depth := value.depth + 1 }

def gvsVariableSizedArrayNChildren (value : Serialised) : Option Nat :=
  if value.size = 0 then some 0
  else do
    let offsetSize := gvsGetOffsetSize value.size
    let lastEnd ← gvsReadUnalignedLe value.data (value.size - offsetSize) offsetSize
    if lastEnd > value.size then return 0
    let offsetsArraySize := value.size - lastEnd
    if offsetsArraySize % offsetSize ≠ 0 then return 0
    return offsetsArraySize / offsetSize

def gvsVariableSizedArrayGetChild (element : VariantType) (value : Serialised) (index : Nat) :
    Option Serialised := do
  let offsetSize := gvsGetOffsetSize value.size
  let lastEnd ← gvsReadUnalignedLe value.data (value.size - offsetSize) offsetSize
  let start ←
    if index > 0 then do
      let previous ← gvsReadUnalignedLe value.data (lastEnd + offsetSize * (index - 1)) offsetSize
      pure (alignUp previous element.alignment % wordSize)
    else pure 0
  let stop ← gvsReadUnalignedLe value.data (lastEnd + offsetSize * index) offsetSize
  return { type := element
           data := if start < stop ∧ stop ≤ value.size ∧ stop ≤ lastEnd then value.data.range start stop
             else .null 0
           depth := value.depth + 1 }

/-! ## Tuples -/

def gvsTupleNChildren (value : Serialised) : Nat := value.type.members.length

/-- The offset stored `count` places from the end of a tuple. -/
def gvsTupleOffset (value : Serialised) (count : Nat) : Option Nat :=
  let offsetSize := gvsGetOffsetSize value.size
  gvsReadUnalignedLe value.data (value.size - offsetSize * count) offsetSize

/-- The end of the last variable-sized member before this one. -/
def gvsTuplePrevEnd (value : Serialised) (member : MemberInfo) : Option Nat :=
  if member.i + 1 ≠ 0 then gvsTupleOffset value (member.i + 1).toNat else some 0

def gvsTupleEnd (value : Serialised) (member : MemberInfo) (start : Nat) : Option Nat :=
  match member.ending with
  | .last => some (value.size - gvsGetOffsetSize value.size * (member.i + 1).toNat)
  | .fixed => some ((start + member.typeInfo.fixedSize) % wordSize)
  | .offset => gvsTupleOffset value (member.i + 2).toNat

/-- `gvs_tuple_get_child` for a member; `lastEnd` bounds its end. -/
def gvsTupleChild (value : Serialised) (member : MemberInfo) (lastEnd : Nat → Option Nat) : Option Serialised :=
  let child := fun data : Data => { type := member.type, data := data, depth := value.depth + 1 : Serialised }
  let offsetSize := gvsGetOffsetSize value.size
  let fixedSize := member.typeInfo.fixedSize
  if value.data.isNull ∧ value.size ≠ 0 then
    if fixedSize ≠ 0 then some (child (.null fixedSize)) else none
  else if member.ending = .offset ∧ offsetSize * (member.i + 2).toNat > value.size then some (child (.null 0))
  else if member.ending ≠ .offset ∧ offsetSize * (member.i + 1).toNat > value.size then
    some (child (.null fixedSize))
  else do
    let prevEnd ← gvsTuplePrevEnd value member
    let start := member.start prevEnd
    let stop ← gvsTupleEnd value member start
    let lastEnd ← lastEnd stop
    return child (if start < stop ∧ stop ≤ value.size ∧ stop ≤ lastEnd then value.data.range start stop
      else .null (if member.ending = .fixed then fixedSize else 0))

/-- The last member, whose end bounds the others'. -/
def gvsTupleLastChild (value : Serialised) : Option Serialised := do
  let member ← value.type.members.getLast?
  gvsTupleChild value member some

def gvsTupleGetChild (value : Serialised) (index : Nat) : Option Serialised := do
  let member ← value.type.members[index]?
  if index ≠ value.type.members.length - 1 then
    gvsTupleChild value member fun _ => do
      let last ← gvsTupleLastChild value
      -- A null child leaves `size - data`, which wraps.
      return (last.data.address + last.size + (wordSize - value.data.address)) % wordSize
  else gvsTupleChild value member some

/-! ## Variants -/

/-- The position where the search for the last NUL stops. -/
def findNul (data : Data) : Nat → Option Nat
  | 0 => some 0
  | position + 1 => do
    let byte ← data.byte (position + 1)
    if byte = 0 then return position + 1 else findNul data position

def unitChild (value : Serialised) : Serialised :=
  { type := .tuple [], data := .null 1, depth := value.depth + 1 }

/-- `depth < G_VARIANT_MAX_RECURSION_DEPTH - typeDepth` on unsigned words. -/
def depthAllows (depth typeDepth : Nat) : Bool :=
  decide (depth < (maxRecursionDepth + (wordSize - typeDepth)) % wordSize)

def gvsVariantGetChild (value : Serialised) : Option Serialised :=
  if value.size = 0 then some (unitChild value)
  else do
    let position ← findNul value.data (value.size - 1)
    let byte ← value.data.byte position
    if byte ≠ 0 then return unitChild value
    let typeString := (value.data.range (position + 1) value.size).bytes
    if xvariantTypeStringIsValid typeString && xvariantTypeIsDefinite typeString then
      let type ← VariantType.ofString typeString
      let child : Serialised :=
        { type := type, data := if position ≠ 0 then value.data.range 0 position else .null 0
          depth := value.depth + 1 }
      if (type.fixedSize = 0 ∨ type.fixedSize = position) ∧
          depthAllows value.depth (xvariantTypeInfoQueryDepth type) then return child
      else return unitChild value
    else return unitChild value

/-! ## Entry points -/

def xvariantSerialisedNChildren (value : Serialised) : Option Nat :=
  if xvariantSerialisedCheck value then
    match value.type with
    | .maybe element =>
      if element.fixedSize ≠ 0 then some (gvsFixedSizedMaybeNChildren element value)
      else some (gvsVariableSizedMaybeNChildren value)
    | .array element =>
      if element.fixedSize ≠ 0 then some (gvsFixedSizedArrayNChildren element value)
      else gvsVariableSizedArrayNChildren value
    | .tuple _ | .dictEntry _ _ => some (gvsTupleNChildren value)
    | .variant => some 1
    | .basic _ => none
  else none

def gvsGetChild (value : Serialised) (index : Nat) : Option Serialised :=
  match value.type with
  | .maybe element =>
    if element.fixedSize ≠ 0 then some (gvsFixedSizedMaybeGetChild element value)
    else some (gvsVariableSizedMaybeGetChild element value)
  | .array element =>
    if element.fixedSize ≠ 0 then some (gvsFixedSizedArrayGetChild element value index)
    else gvsVariableSizedArrayGetChild element value index
  | .tuple _ | .dictEntry _ _ => gvsTupleGetChild value index
  | .variant => gvsVariantGetChild value
  | .basic _ => none

def xvariantSerialisedGetChild (value : Serialised) (index : Nat) : Option Serialised := do
  let length ← xvariantSerialisedNChildren value
  if index < length then
    let child ← gvsGetChild value index
    -- The two assertions on the child.
    if (child.size ≠ 0 ∨ child.data.isNull) ∧ xvariantSerialisedCheck child then return child else none
  else none

end Xpl.Variant
