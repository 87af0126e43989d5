import Mathlib.Order.Bounds.Basic
import Xpl.Library.Memory
import Xpl.Variant.Serialised
import Xpl.Variant.Value

/-! Writing serialised data: the size pass and the pass that fills a buffer.

A function returns `none` where the program writes outside the buffer or fails an
assertion. An address of zero is `NULL`.
-/

set_option autoImplicit false

namespace Xpl.Variant
open Xpl.Library
variable {pieces : List Piece} {type : VariantType}
variable {count : Nat} {element : VariantType}

/-- An instance as the serialiser's callback sees it: what `xvariant_ensure_size` finds
and what `xvariant_store` writes. -/
structure Instance where
  type : VariantType
  size : Option Nat
  store : Nat → Buffer → Option Buffer

/-- The record that the callback completes. -/
structure Slot where
  type : Option VariantType
  data : Nat
  size : Nat

def Instance.storeAt (child : Instance) (data : Nat) (buffer : Buffer) : Option Buffer :=
  if data ≠ 0 then child.store data buffer else some buffer

/-- The type and the size of the child, which is written unless the address is `NULL`. -/
def xvariantFillGvs (slot : Slot) (child : Instance) (buffer : Buffer) : Option (VariantType × Nat × Buffer) := do
  let size ← child.size
  if slot.type.getD child.type = child.type ∧ (slot.size = 0 ∨ slot.size = size) then
    let buffer ← child.storeAt slot.data buffer
    return (child.type, size, buffer)
  else none

/-- `while (offset & alignment) data[offset++] = 0`. -/
def writePadding (data alignment : Nat) : Nat → Nat → Buffer → Option (Nat × Buffer)
  | 0, offset, buffer => if offset &&& alignment = 0 then some (offset, buffer) else none
  | fuel + 1, offset, buffer =>
    if offset &&& alignment = 0 then some (offset, buffer)
    else do
      let next ← buffer.write (data + offset) 0
      writePadding data alignment fuel (offset + 1) next

/-- The value that `xvariant_serialiser_serialise` is given. -/
structure Target where
  type : VariantType
  data : Nat
  size : Nat

/-! ## Maybes -/

def gvsFixedSizedMaybeNeededSize (element : VariantType) (children : List Instance) : Option Nat :=
  some (if children.length ≠ 0 then element.fixedSize else 0)

def gvsFixedSizedMaybeSerialise (value : Target) (children : List Instance) (buffer : Buffer) : Option Buffer :=
  match children with
  | [] => some buffer
  | child :: _ => do
    let (_, _, buffer) ← xvariantFillGvs { type := none, data := value.data, size := value.size } child buffer
    return buffer

def gvsVariableSizedMaybeNeededSize (children : List Instance) : Option Nat :=
  match children with
  | [] => some 0
  | child :: _ => do
    let size ← child.size
    return (size + 1) % wordSize

def gvsVariableSizedMaybeSerialise (value : Target) (children : List Instance) (buffer : Buffer) : Option Buffer :=
  match children with
  | [] => some buffer
  | child :: _ => do
    let slot := { type := none, data := value.data, size := (value.size + (wordSize - 1)) % wordSize }
    let (_, size, buffer) ← xvariantFillGvs slot child buffer
    buffer.write (value.data + size) 0

/-! ## Arrays -/

def gvsFixedSizedArrayNeededSize (element : VariantType) (children : List Instance) : Option Nat :=
  some (element.fixedSize * children.length % wordSize)

/-- The loop of `gvs_fixed_sized_array_serialise`, whose `child.size` is carried along. -/
def fixedArrayLoop (element : VariantType) : Nat → Nat → List Instance → Buffer → Option Buffer
  | _, _, [], buffer => some buffer
  | data, size, child :: children, buffer => do
    let (_, size, buffer) ← xvariantFillGvs { type := some element, data := data, size := size } child buffer
    fixedArrayLoop element (data + size) size children buffer

def gvsFixedSizedArraySerialise (element : VariantType) (value : Target) (children : List Instance)
    (buffer : Buffer) : Option Buffer :=
  fixedArrayLoop element value.data element.fixedSize children buffer

def gvsCalculateTotalSize (bodySize offsets : Nat) : Nat :=
  if (bodySize + offsets) % wordSize ≤ 2 ^ 8 - 1 then (bodySize + offsets) % wordSize
  else if (bodySize + 2 * offsets) % wordSize ≤ 2 ^ 16 - 1 then (bodySize + 2 * offsets) % wordSize
  else if (bodySize + 4 * offsets) % wordSize ≤ 2 ^ 32 - 1 then (bodySize + 4 * offsets) % wordSize
  else (bodySize + 8 * offsets) % wordSize

def variableArrayBody (alignment : Nat) : Nat → List Instance → Option Nat
  | offset, [] => some offset
  | offset, child :: children => do
    let size ← child.size
    variableArrayBody alignment ((alignUp offset alignment + size) % wordSize) children

def gvsVariableSizedArrayNeededSize (type : VariantType) (children : List Instance) : Option Nat := do
  let offset ← variableArrayBody type.alignment 0 children
  return gvsCalculateTotalSize offset children.length

def gvsWriteUnalignedLe (address value size : Nat) (buffer : Buffer) : Option Buffer :=
  buffer.writeBytes address (leBytes size value)

def variableArrayLoop (value : Target) (offsetSize : Nat) :
    Nat → Nat → List Instance → Buffer → Option Buffer
  | _, _, [], buffer => some buffer
  | offset, offsetPtr, child :: children, buffer => do
    let alignment := value.type.alignment
    let (offset, buffer) ← writePadding value.data alignment alignment offset buffer
    let (_, size, buffer) ← xvariantFillGvs { type := none, data := value.data + offset, size := 0 } child buffer
    let offset := (offset + size) % wordSize
    let buffer ← gvsWriteUnalignedLe offsetPtr offset offsetSize buffer
    variableArrayLoop value offsetSize offset (offsetPtr + offsetSize) children buffer

def gvsVariableSizedArraySerialise (value : Target) (children : List Instance) (buffer : Buffer) : Option Buffer :=
  let offsetSize := gvsGetOffsetSize value.size
  variableArrayLoop value offsetSize 0 (value.data + value.size - offsetSize * children.length) children buffer

/-! ## Tuples -/

def memberSize (member : MemberInfo) (child : Instance) : Option Nat :=
  if member.typeInfo.fixedSize ≠ 0 then some member.typeInfo.fixedSize else child.size

/-- The loop of `gvs_tuple_needed_size`, with the last member that it has looked at. -/
def tupleBody : Option MemberInfo → Nat → List MemberInfo → List Instance → Option (Nat × Option MemberInfo)
  | last, offset, _, [] => some (offset, last)
  | _, _, [], _ :: _ => none
  | _, offset, member :: members, child :: children => do
    let start := alignUp offset member.typeInfo.alignment
    let size ← memberSize member child
    tupleBody (some member) ((start + size) % wordSize) members children

def gvsTupleNeededSize (type : VariantType) (children : List Instance) : Option Nat :=
  if type.fixedSize ≠ 0 then some type.fixedSize
  else do
    let (offset, last) ← tupleBody none 0 type.members children
    let member ← last
    return gvsCalculateTotalSize offset (member.i + 1).toNat

/-- The loop of `gvs_tuple_serialise`: it leaves the offset and the shrunken size. -/
def tupleLoop (data offsetSize : Nat) :
    Nat → Nat → List MemberInfo → List Instance → Buffer → Option (Nat × Nat × Buffer)
  | offset, size, _, [], buffer => some (offset, size, buffer)
  | _, _, [], _ :: _, _ => none
  | offset, size, member :: members, child :: children, buffer => do
    let alignment := member.typeInfo.alignment
    let (offset, buffer) ← writePadding data alignment alignment offset buffer
    let (_, childSize, buffer) ← xvariantFillGvs { type := none, data := data + offset, size := 0 } child buffer
    let offset := (offset + childSize) % wordSize
    if member.ending = .offset then
      let size := (size + (wordSize - offsetSize)) % wordSize
      let buffer ← gvsWriteUnalignedLe (data + size) offset offsetSize buffer
      tupleLoop data offsetSize offset size members children buffer
    else tupleLoop data offsetSize offset size members children buffer

def gvsTupleSerialise (value : Target) (children : List Instance) (buffer : Buffer) : Option Buffer := do
  let offsetSize := gvsGetOffsetSize value.size
  let (offset, size, buffer) ← tupleLoop value.data offsetSize 0 value.size value.type.members children buffer
  -- `while (offset < value.size) value.data[offset++] = 0`
  buffer.writeBytes (value.data + offset) (zeros (size - offset))

/-! ## Variants -/

def gvsVariantNeededSize (children : List Instance) : Option Nat :=
  match children with
  | [] => none
  | child :: _ => do
    let size ← child.size
    return (size + 1 + child.type.string.length) % wordSize

def gvsVariantSerialise (value : Target) (children : List Instance) (buffer : Buffer) : Option Buffer :=
  match children with
  | [] => none
  | child :: _ => do
    let (type, size, buffer) ← xvariantFillGvs { type := none, data := value.data, size := 0 } child buffer
    let buffer ← buffer.write (value.data + size) 0
    buffer.writeBytes (value.data + size + 1) type.string

/-! ## Entry points -/

def xvariantSerialiserNeededSize (type : VariantType) (children : List Instance) : Option Nat :=
  match type with
  | .maybe element =>
    if element.fixedSize ≠ 0 then gvsFixedSizedMaybeNeededSize element children
    else gvsVariableSizedMaybeNeededSize children
  | .array element =>
    if element.fixedSize ≠ 0 then gvsFixedSizedArrayNeededSize element children
    else gvsVariableSizedArrayNeededSize type children
  | .tuple _ | .dictEntry _ _ => gvsTupleNeededSize type children
  | .variant => gvsVariantNeededSize children
  | .basic _ => none

def gvsSerialise (value : Target) (children : List Instance) (buffer : Buffer) : Option Buffer :=
  match value.type with
  | .maybe element =>
    if element.fixedSize ≠ 0 then gvsFixedSizedMaybeSerialise value children buffer
    else gvsVariableSizedMaybeSerialise value children buffer
  | .array element =>
    if element.fixedSize ≠ 0 then gvsFixedSizedArraySerialise element value children buffer
    else gvsVariableSizedArraySerialise value children buffer
  | .tuple _ | .dictEntry _ _ => gvsTupleSerialise value children buffer
  | .variant => gvsVariantSerialise value children buffer
  | .basic _ => none

def xvariantSerialiserSerialise (value : Target) (children : List Instance) (buffer : Buffer) : Option Buffer :=
  if serialisedCheck value.type value.size (value.data = 0) value.data then gvsSerialise value children buffer
  else none

/-! ## Instances

A value of a basic type is an instance in serialised form, a container one in tree form.
-/

/-- `xvariant_serialise`, which `xvariant_store` calls for an instance in tree form. -/
def xvariantSerialise (type : VariantType) (size : Option Nat) (children : List Instance) (data : Nat)
    (buffer : Buffer) : Option Buffer := do
  let size ← size
  xvariantSerialiserSerialise { type := type, data := data, size := size } children buffer

mutual
def Value.toInstance : Value → Instance
  | .leaf basic bytes =>
    { type := .basic basic
      size := some bytes.length
      store := fun data buffer => buffer.writeBytes data bytes }
  | .node type children =>
    { type := type
      size := xvariantSerialiserNeededSize type (Value.toInstances children)
      store := xvariantSerialise type (xvariantSerialiserNeededSize type (Value.toInstances children))
        (Value.toInstances children) }

def Value.toInstances : List Value → List Instance
  | [] => []
  | child :: children => child.toInstance :: Value.toInstances children
end

theorem Value.toInstances_eq_map (children : List Value) :
    Value.toInstances children = children.map Value.toInstance := by
  induction children with
  | nil => rfl
  | cons child children ih => simp [Value.toInstances, ih]

/-- `xvariant_ensure_serialised` with a block that `g_malloc` returns at `base`. -/
def xvariantEnsureSerialised (v : Value) (base : Nat) : Option Buffer := do
  let size ← v.toInstance.size
  v.toInstance.store base (Buffer.fresh base size)

/-! Sizes of encoded values. -/

/-! ## Offset tables -/

theorem tableWidth_pos (body count : Nat) : 0 < tableWidth body count := by
  unfold tableWidth
  split
  · decide
  · split
    · decide
    · split <;> decide

@[simp] theorem length_withTable (body : Bytes) (entries : List Nat) :
    (withTable body entries).length = body.length + tableWidth body.length entries.length * entries.length := by
  rw [withTable, List.length_append, length_table]

theorem gvsCalculateTotalSize_eq {body : Nat} (fits : body + tableWidth body count * count < wordSize) :
    gvsCalculateTotalSize body count = body + tableWidth body count * count := by
  unfold tableWidth wordSize at *
  unfold gvsCalculateTotalSize wordSize
  split at fits
  case isTrue small =>
    rw [Nat.mod_eq_of_lt (by omega), if_pos (by omega), if_pos small, Nat.one_mul]
  case isFalse large =>
    -- Each larger width is only tried when the body and the smaller table fit a word.
    split at fits
    case isTrue small =>
      rw [Nat.mod_eq_of_lt (by omega : body + count < 2 ^ 64), if_neg (by omega),
        Nat.mod_eq_of_lt (by omega : body + 2 * count < 2 ^ 64), if_pos (by omega), if_neg large, if_pos small]
    case isFalse larger =>
      split at fits
      case isTrue small =>
        rw [Nat.mod_eq_of_lt (by omega : body + count < 2 ^ 64), if_neg (by omega),
          Nat.mod_eq_of_lt (by omega : body + 2 * count < 2 ^ 64), if_neg (by omega),
          Nat.mod_eq_of_lt (by omega : body + 4 * count < 2 ^ 64), if_pos (by omega), if_neg large,
          if_neg larger, if_pos small]
      case isFalse largest =>
        rw [Nat.mod_eq_of_lt (by omega : body + count < 2 ^ 64), if_neg (by omega),
          Nat.mod_eq_of_lt (by omega : body + 2 * count < 2 ^ 64), if_neg (by omega),
          Nat.mod_eq_of_lt (by omega : body + 4 * count < 2 ^ 64), if_neg (by omega),
          Nat.mod_eq_of_lt (by omega : body + 8 * count < 2 ^ 64), if_neg large, if_neg larger, if_neg largest]

theorem gvsGetOffsetSize_total (body : Nat) (some_entry : count ≠ 0) :
    gvsGetOffsetSize (body + tableWidth body count * count) = tableWidth body count := by
  unfold tableWidth gvsGetOffsetSize
  split
  case isTrue small => grind
  case isFalse large =>
    split
    case isTrue small => grind
    case isFalse larger =>
      split
      case isTrue small => grind
      case isFalse largest => grind

theorem gvsGetOffsetSize_withTable (body : Bytes) {entries : List Nat} (some_entry : entries ≠ []) :
    gvsGetOffsetSize (withTable body entries).length = tableWidth body.length entries.length := by
  rw [length_withTable]
  exact gvsGetOffsetSize_total _ (by simpa using some_entry)

theorem total_lt_width {body : Nat} (fits : body + tableWidth body count * count < wordSize) :
    body + tableWidth body count * count < 256 ^ tableWidth body count := by
  unfold tableWidth wordSize at *
  split
  case isTrue small => omega
  case isFalse large =>
    split
    case isTrue small => omega
    case isFalse larger =>
      split
      case isTrue small => omega
      case isFalse largest => grind

theorem size_lt_offsetRange {size : Nat} (fits : size < wordSize) : size < 256 ^ gvsGetOffsetSize size := by
  unfold gvsGetOffsetSize wordSize at *
  split_ifs <;> omega

/-! ### Widths and sizes -/

def AddressingWidth (bodySize offsets width : Nat) : Prop :=
  width ∈ [1, 2, 4, 8] ∧ bodySize + width * offsets < 256 ^ width

/-- The total tells the width that was charged for an offset, no smaller width would do, and every offset up to the
size of the body has room in it. -/
structure WidthConsistent (bodySize offsets : Nat) : Prop where
  charged : offsets ≠ 0 → gvsCalculateTotalSize bodySize offsets =
    bodySize + gvsGetOffsetSize (gvsCalculateTotalSize bodySize offsets) * offsets
  least : offsets ≠ 0 → IsLeast {width | AddressingWidth bodySize offsets width}
    (gvsGetOffsetSize (gvsCalculateTotalSize bodySize offsets))
  represents : ∀ offset ≤ bodySize, offset < 256 ^ gvsGetOffsetSize (gvsCalculateTotalSize bodySize offsets)

theorem tableWidth_mem (bodySize offsets : Nat) : tableWidth bodySize offsets ∈ [1, 2, 4, 8] := by
  unfold tableWidth
  split
  · decide
  · split
    · decide
    · split <;> decide

theorem tableWidth_le {bodySize offsets width : Nat} (addressing : AddressingWidth bodySize offsets width) :
    tableWidth bodySize offsets ≤ width := by
  obtain ⟨listed, fits⟩ := addressing
  simp only [List.mem_cons, List.not_mem_nil, or_false] at listed
  unfold tableWidth
  rcases listed with rfl | rfl | rfl | rfl
  case inl => grind
  case inr.inl => grind
  case inr.inr.inl => grind
  case inr.inr.inr => grind

theorem tableWidth_fits_iff (bodySize offsets : Nat) :
    bodySize + tableWidth bodySize offsets * offsets < wordSize ↔ bodySize + 8 * offsets < wordSize := by
  unfold tableWidth wordSize
  split
  case isTrue small => omega
  case isFalse large =>
    split
    case isTrue small => omega
    case isFalse larger =>
      split
      case isTrue small => omega
      case isFalse largest => omega

theorem AddressingWidth.fits {bodySize offsets width : Nat} (addressing : AddressingWidth bodySize offsets width) :
    bodySize + 8 * offsets < wordSize := by
  obtain ⟨listed, range⟩ := addressing
  simp only [List.mem_cons, List.not_mem_nil, or_false] at listed
  unfold wordSize
  rcases listed with rfl | rfl | rfl | rfl <;> omega

/-- The width is consistent exactly where the sum does not overflow, with the widest offsets. -/
theorem widthConsistent_iff {bodySize : Nat} (offsets : Nat) (representable : bodySize < wordSize) :
    WidthConsistent bodySize offsets ↔ bodySize + 8 * offsets < wordSize := by
  constructor
  · intro consistent
    by_cases none_stored : offsets = 0
    · simpa [none_stored] using representable
    · exact AddressingWidth.fits (consistent.least none_stored).1
  · intro sum
    have fits := (tableWidth_fits_iff bodySize offsets).mpr sum
    have total := gvsCalculateTotalSize_eq fits
    have width : offsets ≠ 0 → gvsGetOffsetSize (gvsCalculateTotalSize bodySize offsets) = tableWidth bodySize offsets := by
      intro some_stored
      rw [total]
      exact gvsGetOffsetSize_total bodySize some_stored
    constructor
    case charged =>
      intro some_stored
      rw [width some_stored, total]
    case least =>
      intro some_stored
      rw [width some_stored]
      exact ⟨⟨tableWidth_mem bodySize offsets, total_lt_width fits⟩, fun _ => tableWidth_le⟩
    case represents =>
      intro offset inside
      rw [total]
      have range := size_lt_offsetRange fits
      omega

/-- Two offsets behind a body of 252 bytes have one byte each, behind one of 254 bytes two. -/
theorem widthConsistent_iff_boundary : 252 < wordSize ∧ WidthConsistent 252 2 ∧ 254 < wordSize ∧ WidthConsistent 254 2 :=
  ⟨by decide, (widthConsistent_iff 2 (by decide)).mpr (by decide),
    by decide, (widthConsistent_iff 2 (by decide)).mpr (by decide)⟩

/-! ## Tuples -/

theorem storedEnds_eq_nil (fixed : ∀ piece ∈ pieces, piece.1.fixedSize ≠ 0) (offset : Nat) :
    storedEnds offset pieces = [] := by
  induction pieces generalizing offset with
  | nil => rfl
  | cons piece pieces ih =>
    have first := fixed piece List.mem_cons_self
    simp only [storedEnds, first, false_and, if_false]
    exact ih (fun other member => fixed other (List.mem_cons_of_mem _ member)) _

theorem length_storedEnds (offset : Nat) (front : List Piece) (last : Piece) :
    (storedEnds offset (front ++ [last])).length = variableCount (front.map Prod.fst) := by
  induction front generalizing offset with
  | nil => simp [storedEnds, variableCount]
  | cons piece front ih =>
    have more : front ++ [last] ≠ [] := by simp
    simp only [List.cons_append, storedEnds, List.map_cons, variableCount, List.countP_cons]
    by_cases varies : piece.1.fixedSize = 0
    · simp [varies, more, ih, variableCount]
    · simp [varies, ih, variableCount]

def Sized (pieces : List Piece) : Prop :=
  ∀ piece ∈ pieces, piece.1.fixedSize ≠ 0 → piece.2.length = piece.1.fixedSize

theorem layoutEnd_fixed (sized : Sized pieces)
    (fixed : ∀ piece ∈ pieces, piece.1.fixedSize ≠ 0) (offset : Nat) :
    layoutEnd offset (pieces.map Piece.part) = fixedEnd offset (pieces.map Prod.fst) := by
  induction pieces generalizing offset with
  | nil => rfl
  | cons piece pieces ih =>
    have size := sized piece List.mem_cons_self (fixed piece List.mem_cons_self)
    rw [List.map_cons, layoutEnd_cons, List.map_cons, fixedEnd, List.foldl_cons,
      ih (fun other member => sized other (List.mem_cons_of_mem _ member))
        (fun other member => fixed other (List.mem_cons_of_mem _ member)), Part.stop, Piece.part, size]
    rfl

theorem pieces_fixed (tuple : type.isTuple = true)
    (items : pieces.map Prod.fst = type.items) (fixed : type.fixedSize ≠ 0) :
    ∀ piece ∈ pieces, piece.1.fixedSize ≠ 0 := by
  intro piece member
  apply VariantType.item_fixed tuple fixed
  rw [← items]
  exact List.mem_map_of_mem member

theorem roundUp_body (tuple : type.isTuple = true)
    (items : pieces.map Prod.fst = type.items) (sized : Sized pieces) (fixed : type.fixedSize ≠ 0)
    (some_piece : pieces ≠ []) (fits : layoutEnd 0 (pieces.map Piece.part) < wordSize) :
    roundUp (layoutEnd 0 (pieces.map Piece.part)) type.alignment = type.fixedSize := by
  have some_item : type.items ≠ [] := by
    rw [← items]
    simpa using some_piece
  obtain ⟨alignment, size⟩ := VariantType.tuple_layout tuple some_item
  have mask := type.alignment_isAlignment.isMask
  rw [layoutEnd_fixed sized (pieces_fixed tuple items fixed), items] at fits ⊢
  rw [← alignment] at size
  have below : roundUp (fixedEnd 0 type.items) type.alignment ≤ 2 ^ 64 :=
    roundUp_le_of_dvd mask.dvd_word (Nat.le_of_lt fits)
  split at size
  case isTrue =>
    -- A body that rounds up to a whole word would leave a size of zero.
    rcases Nat.lt_or_eq_of_le below with small | whole
    · rw [Nat.mod_eq_of_lt small] at size
      exact size.symm
    · rw [whole, Nat.mod_self] at size
      exact absurd size fixed
  case isFalse => exact absurd size fixed

theorem length_body_le (tuple : type.isTuple = true)
    (items : pieces.map Prod.fst = type.items) (sized : Sized pieces) (fixed : type.fixedSize ≠ 0)
    (fits : (layout 0 (pieces.map Piece.part)).length < wordSize) :
    (layout 0 (pieces.map Piece.part)).length ≤ type.fixedSize ∧ storedEnds 0 pieces = [] := by
  refine ⟨?_, storedEnds_eq_nil (pieces_fixed tuple items fixed) 0⟩
  have length := length_layout 0 (pieces.map Piece.part)
  by_cases some_piece : pieces = []
  · subst some_piece
    exact Nat.zero_le _
  · have whole := roundUp_body tuple items sized fixed some_piece (by omega)
    have above := le_roundUp (layoutEnd 0 (pieces.map Piece.part)) type.alignment
    omega

theorem layoutEnd_le_tupleFields (type : VariantType) (pieces : List Piece) :
    layoutEnd 0 (pieces.map Piece.part) ≤ (tupleFields type pieces).length := by
  have body := length_layout 0 (pieces.map Piece.part)
  simp only [tupleFields, List.length_append]
  omega

theorem stop_le_pieces {front back : List Piece} {piece : Piece} (shape : pieces = front ++ piece :: back) :
    piece.part.stop (layoutEnd 0 (front.map Piece.part)) ≤ layoutEnd 0 (pieces.map Piece.part) :=
  stop_le_layoutEnd (by rw [shape, List.map_append, List.map_cons]) 0

def encodeTuple (type : VariantType) (pieces : List Piece) : Bytes :=
  withTable (tupleFields type pieces) (storedEnds 0 pieces).reverse

theorem length_encodeTuple (type : VariantType) (pieces : List Piece) :
    (layout 0 (pieces.map Piece.part)).length ≤ (encodeTuple type pieces).length := by
  simp only [encodeTuple, tupleFields, length_withTable, List.length_append]
  omega

theorem length_encodeTuple_fixed (tuple : type.isTuple = true)
    (items : pieces.map Prod.fst = type.items) (sized : Sized pieces) (fixed : type.fixedSize ≠ 0)
    (fits : (encodeTuple type pieces).length < wordSize) :
    (encodeTuple type pieces).length = type.fixedSize := by
  have body := length_encodeTuple type pieces
  obtain ⟨below, no_ends⟩ := length_body_le tuple items sized fixed (by omega)
  simp only [encodeTuple, tupleFields, no_ends, List.reverse_nil, length_withTable, List.length_append, length_zeros,
    List.length_nil]
  omega

/-! ## Values -/

theorem length_flatMap_fixed
    (alike : ∀ piece ∈ pieces, piece.1 = element ∧ piece.2.length = element.fixedSize) :
    (pieces.flatMap Prod.snd).length = element.fixedSize * pieces.length := by
  induction pieces with
  | nil => rfl
  | cons piece pieces ih =>
    rw [List.flatMap_cons, List.length_append, (alike piece List.mem_cons_self).2,
      ih fun other member => alike other (List.mem_cons_of_mem _ member), List.length_cons, Nat.mul_succ,
      Nat.add_comm]

theorem VariantType.admits_tuple {types : List VariantType} (tuple : type.isTuple = true) :
    type.admits types = true ↔ types = type.items := by
  cases type with
  | tuple items => simp [VariantType.admits, VariantType.items]
  | dictEntry key value => simp [VariantType.admits, VariantType.items]
  | _ => cases tuple

theorem assemble_tuple (tuple : type.isTuple = true) (width : Nat) (pieces : List Piece) :
    assemble width type pieces = tupleFields type pieces ++ table width (storedEnds 0 pieces).reverse := by
  cases type with
  | tuple items => rfl
  | dictEntry key value => rfl
  | _ => cases tuple

theorem encodeNode_tuple (tuple : type.isTuple = true) (pieces : List Piece) :
    encodeNode type pieces = encodeTuple type pieces := by
  cases type with
  | tuple items => rfl
  | dictEntry key value => rfl
  | _ => cases tuple

theorem encodeNode_maybe (element : VariantType) (piece : Piece) :
    encodeNode (.maybe element) [piece] = if element.fixedSize ≠ 0 then piece.2 else piece.2 ++ [0] := by
  simp [encodeNode, assemble]

theorem encodeNode_variant (piece : Piece) :
    encodeNode .variant [piece] = piece.2 ++ 0 :: piece.1.string := by
  simp [encodeNode, assemble]

theorem encodeNode_fixedArray (fixed : element.fixedSize ≠ 0) (pieces : List Piece) :
    encodeNode (.array element) pieces = pieces.flatMap Prod.snd := by
  simp [encodeNode, assemble, fixed]

theorem encodeNode_variableArray (varies : element.fixedSize = 0) (pieces : List Piece) :
    encodeNode (.array element) pieces =
      withTable (layout 0 (pieces.map Piece.part)) (layoutEnds 0 (pieces.map Piece.part)) := by
  simp [encodeNode, assemble, varies, offsetWidth, withTable]

/-- A container is at least as large as each of its children. -/
theorem length_le_encodeNode {type : VariantType} {pieces : List Piece}
    (admitted : type.admits (pieces.map Prod.fst) = true) {piece : Piece} (member : piece ∈ pieces) :
    piece.2.length ≤ (encodeNode type pieces).length := by
  have laid : piece.2.length ≤ (layout 0 (pieces.map Piece.part)).length := by
    have whole := length_layout 0 (pieces.map Piece.part)
    have part := @length_le_layoutEnd 0 _ _ (List.mem_map_of_mem (f := Piece.part) member)
    have same : piece.part.2 = piece.2 := rfl
    rw [same] at part
    omega
  have joined : ∀ f : Piece → Bytes, piece.2.length ≤ (f piece).length →
      piece.2.length ≤ (pieces.flatMap f).length := by
    intro f below
    obtain ⟨front, back, rfl⟩ := List.append_of_mem member
    rw [List.flatMap_append, List.flatMap_cons, List.length_append, List.length_append]
    omega
  cases type with
  | basic b => cases admitted
  | variant =>
    apply joined
    simp
  | maybe element =>
    apply joined
    split <;> simp
  | array element =>
    by_cases fixed : element.fixedSize = 0
    · rw [encodeNode_variableArray fixed, length_withTable]
      omega
    · rw [encodeNode_fixedArray fixed]
      exact joined Prod.snd (Nat.le_refl _)
  | tuple items => exact Nat.le_trans laid (length_encodeTuple _ _)
  | dictEntry key value => exact Nat.le_trans laid (length_encodeTuple _ _)

theorem Basic.accepts_fixed {b : Basic} {bytes : Bytes} (accepted : b.accepts bytes = true)
    (fixed : b.info.fixedSize ≠ 0) : bytes.length = b.info.fixedSize := by
  cases b
  case boolean =>
    simp only [Basic.accepts, Bool.or_eq_true, decide_eq_true_eq] at accepted
    rcases accepted with rfl | rfl <;> rfl
  case string => exact absurd rfl fixed
  case objectPath => exact absurd rfl fixed
  case signature => exact absurd rfl fixed
  all_goals simpa [Basic.accepts] using accepted

theorem Value.types_pieces (children : List Value) :
    (Value.pieces children).map Prod.fst = children.map Value.type := by
  rw [Value.pieces_eq_map, List.map_map]
  rfl

structure Value.Writable (v : Value) : Prop where
  valid : v.wellFormed = true
  fits : v.encode.length < wordSize

theorem Value.Writable.child {type : VariantType} {children : List Value}
    (writable : (Value.node type children).Writable) {child : Value} (member : child ∈ children) :
    child.Writable := by
  obtain ⟨valid, fits⟩ := writable
  obtain ⟨admitted, each⟩ := (Value.wellFormed_node type children).mp valid
  refine ⟨each child member, Nat.lt_of_le_of_lt ?_ fits⟩
  apply @length_le_encodeNode _ _ _ child.piece
  · rw [Value.pieces_eq_map]
    exact List.mem_map_of_mem member
  · rw [Value.types_pieces]
    exact admitted

theorem Value.length_encode {v : Value} (writable : v.Writable) (fixed : v.type.fixedSize ≠ 0) :
    v.encode.length = v.type.fixedSize := by
  induction v with
  | leaf basic bytes => exact Basic.accepts_fixed writable.valid fixed
  | node type children ih =>
    have admitted := ((Value.wellFormed_node type children).mp writable.valid).1
    have sized : Sized (Value.pieces children) := by
      intro piece member fixed
      rw [Value.pieces_eq_map] at member
      obtain ⟨child, among, rfl⟩ := List.mem_map.mp member
      exact ih child among (writable.child among) fixed
    rw [← Value.types_pieces] at admitted
    cases tuple : type.isTuple with
    | true =>
      have fits := writable.fits
      rw [Value.encode, encodeNode_tuple tuple] at fits ⊢
      exact length_encodeTuple_fixed tuple ((VariantType.admits_tuple tuple).mp admitted) sized fixed fits
    | false =>
      cases type with
      | basic b => cases admitted
      | variant => exact absurd rfl fixed
      | maybe element => exact absurd rfl fixed
      | array element => exact absurd rfl fixed
      | tuple items => cases tuple
      | dictEntry key value => cases tuple

theorem Value.pieces_sized {children : List Value}
    (writable : (Value.node type children).Writable) : Sized (Value.pieces children) := by
  intro piece member fixed
  rw [Value.pieces_eq_map] at member
  obtain ⟨child, among, rfl⟩ := List.mem_map.mp member
  exact Value.length_encode (writable.child among) fixed

end Xpl.Variant
