import Xpl.Variant.Serialised
import Xpl.Variant.Strings

/-! The check for normal form.

A function returns `none` where the program reads through a null pointer or fails an
assertion. The check of a tuple looks one byte past the end of a value that ends before
its padding does; `memory` stands for the bytes outside.
-/

set_option autoImplicit false

namespace Xpl.Variant
open Xpl.Library

/-- `data[position]`, which may be the byte after the last one. -/
def Data.byteIn (memory : Nat → UInt8) (data : Data) (position : Nat) : Option UInt8 :=
  match data with
  | .null _ => none
  | .span address bytes => some (bytes.getD position (memory (address + position)))

/-- `while (offset & alignment)`: the offset after the padding, or nothing when a byte is
not padding. -/
def skipPadding (isPadding : Nat → Option Bool) (alignment : Nat) : Nat → Nat → Option (Option Nat)
  | 0, offset => if offset &&& alignment = 0 then some (some offset) else none
  | fuel + 1, offset =>
    if offset &&& alignment = 0 then some (some offset)
    else do
      if ← isPadding offset then skipPadding isPadding alignment fuel (offset + 1) else return none

section Containers
variable (memory : Nat → UInt8) (normal : Serialised → Option Bool)

def gvsFixedSizedMaybeIsNormal (element : VariantType) (value : Serialised) : Option Bool :=
  if value.size > 0 then
    if value.size ≠ element.fixedSize then some false
    else normal { type := element, data := value.data, depth := value.depth + 1 }
  else some true

def gvsVariableSizedMaybeIsNormal (element : VariantType) (value : Serialised) : Option Bool :=
  if value.size = 0 then some true
  else do
    let last ← value.data.byte (value.size - 1)
    if last ≠ 0 then return false
    -- The data pointer stays, also for a child without bytes.
    normal { type := element, data := value.data.range 0 (value.size - 1), depth := value.depth + 1 }

def allNormal : List Serialised → Option Bool
  | [] => some true
  | child :: children => do
    if ← normal child then allNormal children else return false

def gvsFixedSizedArrayIsNormal (element : VariantType) (value : Serialised) : Option Bool :=
  if value.size % element.fixedSize ≠ 0 then some false
  else
    allNormal normal
      ((List.range (value.size / element.fixedSize)).map (gvsFixedSizedArrayGetChild element value))

def isArrayPadding (value : Serialised) (thisEnd position : Nat) : Option Bool :=
  if position < thisEnd then (value.data.byte position).map (· = 0) else some false

/-- The loop of `gvs_variable_sized_array_is_normal`; the table starts at `lastEnd`. -/
def arrayNormalLoop (element : VariantType) (value : Serialised) (offsetSize lastEnd : Nat) :
    Nat → Nat → Nat → Option Bool
  | 0, _, offset => if offset = lastEnd then some true else none
  | count + 1, index, offset => do
    let thisEnd ← gvsReadUnalignedLe value.data (lastEnd + offsetSize * index) offsetSize
    if thisEnd < offset ∨ thisEnd > lastEnd then return false
    match ← skipPadding (isArrayPadding value thisEnd) element.alignment element.alignment offset with
    | none => return false
    | some start =>
      if ← normal (value.childAt element start thisEnd) then
        arrayNormalLoop element value offsetSize lastEnd count (index + 1) thisEnd
      else return false

def gvsVariableSizedArrayIsNormal (element : VariantType) (value : Serialised) : Option Bool :=
  if value.size = 0 then some true
  else do
    let offsetSize := gvsGetOffsetSize value.size
    let lastEnd ← gvsReadUnalignedLe value.data (value.size - offsetSize) offsetSize
    if lastEnd > value.size then return false
    let offsetsArraySize := value.size - lastEnd
    if offsetsArraySize % offsetSize ≠ 0 then return false
    let length := offsetsArraySize / offsetSize
    if length = 0 then return false
    arrayNormalLoop normal element value offsetSize lastEnd length 0 0

/-- `offset > value.size || value.data[offset] != '\0'`, negated. -/
def isTuplePadding (value : Serialised) (position : Nat) : Option Bool :=
  if position > value.size then some false else (value.data.byteIn memory position).map (· = 0)

/-- The end of a member and the place of the next offset. -/
def tupleNormalEnd (value : Serialised) (offsetSize : Nat) (member : MemberInfo) (offset offsetPtr : Nat) :
    Option (Option (Nat × Nat)) :=
  match member.ending with
  | .fixed => some (some ((offset + member.typeInfo.fixedSize) % wordSize, offsetPtr))
  | .last => some (some (offsetPtr, offsetPtr))
  | .offset =>
    if offsetPtr < offsetSize then some none
    else if offsetPtr - offsetSize < offset then some none
    else do
      let stop ← gvsReadUnalignedLe value.data (offsetPtr - offsetSize) offsetSize
      return some (stop, offsetPtr - offsetSize)

/-- The loop of `gvs_tuple_is_normal`: the offset and the place of the next offset after
the last member. -/
def tupleNormalLoop (value : Serialised) (offsetSize : Nat) :
    List MemberInfo → Nat → Nat → Option (Option (Nat × Nat))
  | [], offset, offsetPtr => some (some (offset, offsetPtr))
  | member :: members, offset, offsetPtr => do
    let alignment := member.typeInfo.alignment
    match ← skipPadding (isTuplePadding memory value) alignment alignment offset with
    | none => return none
    | some start =>
      match ← tupleNormalEnd value offsetSize member start offsetPtr with
      | none => return none
      | some (stop, offsetPtr) =>
        if stop < start ∨ stop > offsetPtr then return none
        if ← normal (value.childAt member.type start stop) then
          tupleNormalLoop value offsetSize members stop offsetPtr
        else return none

def isTailPadding (value : Serialised) (position : Nat) : Option Bool :=
  (value.data.byteIn memory position).map (· = 0)

/-- The padding at the end of a fixed-sized tuple. -/
def tupleNormalTail (value : Serialised) (offset : Nat) : Option (Option Nat) :=
  if value.type.members.length = 0 then do
    if ← isTailPadding memory value offset then return some (offset + 1) else return none
  else skipPadding (isTailPadding memory value) value.type.alignment value.type.alignment offset

def gvsTupleIsNormal (value : Serialised) : Option Bool :=
  if value.data.isNull ∧ value.size ≠ 0 then some false
  else do
    let offsetSize := gvsGetOffsetSize value.size
    match ← tupleNormalLoop memory normal value offsetSize value.type.members 0 value.size with
    | none => return false
    | some (offset, offsetPtr) =>
      if value.type.fixedSize ≠ 0 then
        if value.type.fixedSize = value.size ∧ offsetPtr = value.size then
          match ← tupleNormalTail memory value offset with
          | none => return false
          | some stop => if stop = value.size then return decide (offsetPtr = stop) else none
        else none
      else return decide (offsetPtr = offset)

def gvsVariantIsNormal (value : Serialised) : Option Bool := do
  let child ← gvsVariantGetChild value
  if depthAllows value.depth (xvariantTypeInfoQueryDepth child.type) ∧
      (child.data.isNull = false ∨ child.size = 0) then normal child
  else return false

def basicIsNormal (b : Basic) (data : Data) : Option Bool :=
  if data.isNull then some false
  else
    match b with
    | .boolean => (data.byte 0).map (· < 2)
    | .string => some (xvariantSerialiserIsString data.bytes)
    | .objectPath => some (xvariantSerialiserIsObjectPath data.bytes)
    | .signature => some (xvariantSerialiserIsSignature data.bytes)
    | _ => some true

def gvsIsNormal (value : Serialised) : Option Bool :=
  match value.type with
  | .maybe element =>
    if element.fixedSize ≠ 0 then gvsFixedSizedMaybeIsNormal normal element value
    else gvsVariableSizedMaybeIsNormal normal element value
  | .array element =>
    if element.fixedSize ≠ 0 then gvsFixedSizedArrayIsNormal normal element value
    else gvsVariableSizedArrayIsNormal normal element value
  | .tuple _ | .dictEntry _ _ => gvsTupleIsNormal memory normal value
  | .variant => gvsVariantIsNormal normal value
  | .basic b => basicIsNormal b value.data

end Containers

/-- The check with a number of levels left; at the recursion limit it fails. -/
def isNormalWithin (memory : Nat → UInt8) : Nat → Serialised → Option Bool
  | 0, _ => some false
  | levels + 1, value => gvsIsNormal memory (isNormalWithin memory levels) value

def xvariantSerialisedIsNormal (memory : Nat → UInt8) (value : Serialised) : Option Bool :=
  isNormalWithin memory (maxRecursionDepth - value.depth) value

end Xpl.Variant
