import Mathlib.Data.List.Forall2
import Xpl.Variant.Serialiser
import Xpl.Variant.Safety

/-! The serialiser writes the encoding of a value: the size pass finds its length and the
write pass fills every byte of the block. -/

set_option autoImplicit false

namespace Xpl.Variant
open Xpl.Library
variable {child : Instance} {buffer : Buffer} {element : VariantType} {children : List Instance} {pieces : List Piece}
variable {piece : Piece} {data offset : Nat} {bytes : Bytes}

/-- A place that a piece can be written to. -/
structure Room (buffer : Buffer) (address : Nat) (piece : Piece) : Prop where
  aligned : piece.1.alignment + 1 ∣ address
  null : address = 0 → piece.2 = []
  holds : buffer.Holds address piece.2.length

structure Instance.Fills (child : Instance) (piece : Piece) : Prop where
  type : child.type = piece.1
  size : child.size = some piece.2.length
  store : ∀ address buffer, Room buffer address piece →
    child.store address buffer = some (buffer.overlay address piece.2)

/-- An aligned range of a container is a place for a child. -/
theorem Room.part {buffer : Buffer} {address : Nat} {type : VariantType} {bytes : Bytes}
    (room : Room buffer address (type, bytes)) {piece : Piece} (offset : Nat)
    (below : piece.1.alignment ≤ type.alignment) (multiple : piece.1.alignment + 1 ∣ offset)
    (inside : offset + piece.2.length ≤ bytes.length) : Room buffer (address + offset) piece where
  aligned := by
    have divides := piece.1.alignment_isAlignment.isMask.dvd_of_le type.alignment_isAlignment.isMask below
    exact Nat.dvd_add (Nat.dvd_trans divides room.aligned) multiple
  null := by
    intro zero
    have empty := room.null (by omega)
    simp only at empty
    rw [empty, List.length_nil] at inside
    exact List.length_eq_zero_iff.mp (by omega)
  holds := room.holds.part offset _ inside

theorem xvariantFillGvs_eq (fills : child.Fills piece)
    {type : Option VariantType} {size : Nat} (types : type = none ∨ type = some piece.1)
    (sizes : size = 0 ∨ size = piece.2.length) (room : Room buffer data piece) :
    xvariantFillGvs { type := type, data := data, size := size } child buffer =
      some (piece.1, piece.2.length, buffer.overlay data piece.2) := by
  have same : type.getD piece.1 = piece.1 := by
    rcases types with rfl | rfl <;> rfl
  have stored : child.storeAt data buffer = some (buffer.overlay data piece.2) := by
    rw [Instance.storeAt]
    split
    case isTrue => exact fills.store data buffer room
    case isFalse null => rw [room.null (not_not.mp null), Buffer.overlay_nil]
  unfold xvariantFillGvs
  simp only [fills.size, fills.type, some_bind, same, sizes, stored, and_self, if_true]
  rfl

theorem writePadding_eq {mask : Nat} (isMask : IsMask mask) (data : Nat) {fuel : Nat}
    (enough : roundUp offset mask - offset ≤ fuel)
    (holds : buffer.Holds (data + offset) (roundUp offset mask - offset)) :
    writePadding data mask fuel offset buffer =
      some (roundUp offset mask, buffer.overlay (data + offset) (zeros (roundUp offset mask - offset))) := by
  -- The number of bytes that are still to be written goes down.
  have rounded := le_roundUp offset mask
  induction fuel generalizing offset buffer with
  | zero =>
    have multiple : roundUp offset mask = offset := by omega
    have low : offset &&& mask = 0 := by
      rw [isMask.and_eq_mod, ← Nat.dvd_iff_mod_eq_zero, ← multiple]
      exact dvd_roundUp offset mask
    rw [writePadding, if_pos low, multiple, Nat.sub_self]
    simp [zeros]
  | succ fuel ih =>
    by_cases multiple : mask + 1 ∣ offset
    · have low : offset &&& mask = 0 := by rwa [isMask.and_eq_mod, ← Nat.dvd_iff_mod_eq_zero]
      rw [writePadding, if_pos low, roundUp_of_dvd multiple, Nat.sub_self]
      simp [zeros]
    · have low : ¬offset &&& mask = 0 := by rwa [isMask.and_eq_mod, ← Nat.dvd_iff_mod_eq_zero]
      have next := roundUp_succ multiple
      have more := le_roundUp (offset + 1) mask
      obtain ⟨above, below⟩ := holds
      have count : roundUp offset mask - offset = roundUp (offset + 1) mask - (offset + 1) + 1 := by omega
      rw [writePadding, if_neg low, Buffer.write, if_pos ⟨above, by omega⟩, Option.bind_eq_bind,
        Option.bind_some, ih (by omega) ⟨by simp; omega, by simp; omega⟩ more, count, zeros_succ,
        Buffer.overlay_cons, next]
      rfl

theorem place_piece (fills : child.Fills piece)
    (aligned : piece.1.alignment + 1 ∣ data) (null : data = 0 → piece.2 = [])
    (holds : buffer.Holds (data + offset) (piece.part.spaced offset).length)
    (fits : piece.part.stop offset < wordSize) :
    writePadding data piece.1.alignment piece.1.alignment offset buffer =
        some (roundUp offset piece.1.alignment,
          buffer.overlay (data + offset) (zeros (roundUp offset piece.1.alignment - offset))) ∧
      xvariantFillGvs { type := none, data := data + roundUp offset piece.1.alignment, size := 0 } child
          (buffer.overlay (data + offset) (zeros (roundUp offset piece.1.alignment - offset))) =
        some (piece.1, piece.2.length, buffer.overlay (data + offset) (piece.part.spaced offset)) ∧
      (roundUp offset piece.1.alignment + piece.2.length) % wordSize = piece.part.stop offset := by
  have rounded := le_roundUp offset piece.1.alignment
  have near := roundUp_le offset piece.1.alignment
  have moved : data + offset + (roundUp offset piece.1.alignment - offset) =
      data + roundUp offset piece.1.alignment := by omega
  have width : (piece.part.spaced offset).length = roundUp offset piece.1.alignment - offset + piece.2.length := by
    simp [Part.spaced, Piece.part]
  rw [width] at holds
  refine ⟨?_, ?_, Nat.mod_eq_of_lt fits⟩
  · exact writePadding_eq piece.1.alignment_isAlignment.isMask data (by omega) (holds.part 0 _ (by omega))
  · have range := holds.part _ piece.2.length (Nat.le_refl _)
    rw [moved] at range
    have place : Room (buffer.overlay (data + offset) (zeros (roundUp offset piece.1.alignment - offset)))
        (data + roundUp offset piece.1.alignment) piece :=
      ⟨Nat.dvd_add aligned (dvd_roundUp _ _), fun zero => null (by omega), range⟩
    rw [xvariantFillGvs_eq fills (Or.inl rfl) (Or.inl rfl) place, Part.spaced, Buffer.overlay_append, length_zeros]
    change _ = some (piece.1, piece.2.length, (buffer.overlay (data + offset)
      (zeros (roundUp offset piece.1.alignment - offset))).overlay
      (data + offset + (roundUp offset piece.1.alignment - offset)) piece.2)
    rw [moved]

/-- Both passes over the children of a container agree on its bytes. -/
def Writes (type : VariantType) (children : List Instance) (bytes : Bytes) : Prop :=
  xvariantSerialiserNeededSize type children = some bytes.length ∧
    ∀ data buffer, Room buffer data (type, bytes) →
      gvsSerialise { type := type, data := data, size := bytes.length } children buffer =
        some (buffer.overlay data bytes)

/-! ## Maybes and variants -/

theorem writes_nothing (element : VariantType) : Writes (.maybe element) [] [] := by
  constructor
  · simp [xvariantSerialiserNeededSize, gvsFixedSizedMaybeNeededSize, gvsVariableSizedMaybeNeededSize]
  · intro data buffer _
    simp [gvsSerialise, gvsFixedSizedMaybeSerialise, gvsVariableSizedMaybeSerialise]

theorem writes_fixedMaybe (fixed : element.fixedSize ≠ 0)
    (fills : child.Fills (element, bytes)) (sized : bytes.length = element.fixedSize) :
    Writes (.maybe element) [child] bytes := by
  constructor
  · simp [xvariantSerialiserNeededSize, fixed, gvsFixedSizedMaybeNeededSize, sized]
  · intro data buffer room
    have place : Room buffer data (element, bytes) :=
      room.part 0 (Nat.le_refl _) (Nat.dvd_zero _) (Nat.zero_add _).le
    simp only [gvsSerialise, if_pos fixed, gvsFixedSizedMaybeSerialise,
      xvariantFillGvs_eq fills (Or.inl rfl) (Or.inr rfl) place]
    rfl

theorem writes_variableMaybe (varies : element.fixedSize = 0)
    (fills : child.Fills (element, bytes)) (fits : bytes.length + 1 < wordSize) :
    Writes (.maybe element) [child] (bytes ++ [0]) := by
  have length : (bytes ++ [0]).length = bytes.length + 1 := by simp
  constructor
  · simp [xvariantSerialiserNeededSize, varies, gvsVariableSizedMaybeNeededSize, fills.size,
      Nat.mod_eq_of_lt fits]
  · intro data buffer room
    have place : Room buffer data (element, bytes) :=
      room.part 0 (Nat.le_refl _) (Nat.dvd_zero _) (by simp)
    have size : ((bytes ++ [0]).length + (wordSize - 1)) % wordSize = bytes.length := by
      have word : bytes.length + 1 + (wordSize - 1) = bytes.length + wordSize := by
        omega
      rw [length, word, Nat.add_mod_right, Nat.mod_eq_of_lt (by omega)]
    have last : (buffer.overlay data bytes).Holds (data + bytes.length) [(0 : UInt8)].length :=
      room.holds.part bytes.length 1 (by simp)
    have written := Buffer.writeBytes_eq last
    simp only [gvsSerialise, varies, ne_eq, not_true_eq_false, if_false, gvsVariableSizedMaybeSerialise, size,
      xvariantFillGvs_eq fills (Or.inl rfl) (Or.inr rfl) place]
    rw [Buffer.overlay_append, ← written]
    simp [Buffer.writeBytes]

theorem writes_variant (fills : child.Fills piece)
    (fits : (piece.2 ++ 0 :: piece.1.string).length < wordSize) :
    Writes .variant [child] (piece.2 ++ 0 :: piece.1.string) := by
  have length : (piece.2 ++ 0 :: piece.1.string).length = piece.2.length + 1 + piece.1.string.length := by
    simp only [List.length_append, List.length_cons]
    omega
  constructor
  · rw [length] at fits
    simp [xvariantSerialiserNeededSize, gvsVariantNeededSize, fills.size, fills.type, length,
      Nat.mod_eq_of_lt fits]
  · intro data buffer room
    have place : Room buffer data piece := by
      apply room.part 0 piece.1.alignment_le (Nat.dvd_zero _)
      simp
    have rest : (buffer.overlay data piece.2).Holds (data + piece.2.length) (0 :: piece.1.string).length :=
      room.holds.part piece.2.length _ (by simp)
    have written := Buffer.writeBytes_eq rest
    simp only [gvsSerialise, gvsVariantSerialise, xvariantFillGvs_eq fills (Or.inl rfl) (Or.inl rfl) place]
    rw [Buffer.overlay_append, ← written]
    rfl

/-! ## Arrays -/

theorem fixedArrayLoop_eq
    (fills : List.Forall₂ Instance.Fills children pieces)
    (alike : ∀ piece ∈ pieces, piece.1 = element ∧ piece.2.length = element.fixedSize)
    (aligned : element.alignment + 1 ∣ data) (null : data ≠ 0 ∨ pieces = [])
    (holds : buffer.Holds data (pieces.flatMap Prod.snd).length) :
    fixedArrayLoop element data element.fixedSize children buffer =
      some (buffer.overlay data (pieces.flatMap Prod.snd)) := by
  induction fills generalizing data buffer with
  | nil => simp [fixedArrayLoop]
  | @cons child piece children pieces first rest ih =>
    obtain ⟨same, size⟩ := alike piece List.mem_cons_self
    have more : data ≠ 0 := null.resolve_right (List.cons_ne_nil _ _)
    rw [List.flatMap_cons, List.length_append] at holds
    have place : Room buffer data piece :=
      ⟨same ▸ aligned, fun zero => absurd zero more, holds.part 0 _ (by omega)⟩
    have tail : (buffer.overlay data piece.2).Holds (data + piece.2.length) (pieces.flatMap Prod.snd).length :=
      holds.part _ _ (Nat.le_refl _)
    have filled := xvariantFillGvs_eq first (Or.inr rfl) (Or.inr rfl) place
    rw [same, size] at filled
    rw [size] at tail
    simp only [fixedArrayLoop, filled, some_bind]
    have next : element.alignment + 1 ∣ data + element.fixedSize :=
      Nat.dvd_add aligned element.info_wellFormed.divides
    rw [ih (fun other member => alike other (List.mem_cons_of_mem _ member)) next (Or.inl (by omega)) tail,
      List.flatMap_cons, Buffer.overlay_append, size]

theorem writes_fixedArray (fixed : element.fixedSize ≠ 0)
    (fills : List.Forall₂ Instance.Fills children pieces)
    (alike : ∀ piece ∈ pieces, piece.1 = element ∧ piece.2.length = element.fixedSize)
    (fits : (pieces.flatMap Prod.snd).length < wordSize) :
    Writes (.array element) children (pieces.flatMap Prod.snd) := by
  have length := length_flatMap_fixed alike
  constructor
  · rw [length] at fits
    rw [xvariantSerialiserNeededSize, if_pos fixed, gvsFixedSizedArrayNeededSize, fills.length_eq,
      Nat.mod_eq_of_lt fits, length]
  · intro data buffer room
    have null : data ≠ 0 ∨ pieces = [] := by
      by_cases zero : data = 0
      · right
        have empty := congrArg List.length (room.null zero)
        rw [length, List.length_nil] at empty
        exact List.length_eq_zero_iff.mp ((Nat.mul_eq_zero.mp empty).resolve_left fixed)
      · exact Or.inl zero
    simp only [gvsSerialise, if_pos fixed, gvsFixedSizedArraySerialise]
    exact fixedArrayLoop_eq fills alike room.aligned null room.holds

theorem variableArrayBody_eq {alignment : Nat} (isMask : IsMask alignment) {children : List Instance}
    {pieces : List Piece} (fills : List.Forall₂ Instance.Fills children pieces)
    (alike : ∀ piece ∈ pieces, piece.1.alignment = alignment) {offset : Nat}
    (fits : layoutEnd offset (pieces.map Piece.part) < wordSize) :
    variableArrayBody alignment offset children = some (layoutEnd offset (pieces.map Piece.part)) := by
  induction fills generalizing offset with
  | nil => rfl
  | @cons child piece children pieces first rest ih =>
    rw [List.map_cons, layoutEnd_cons] at fits ⊢
    have stop : (alignUp offset alignment + piece.2.length) % wordSize = piece.part.stop offset := by
      have below := le_layoutEnd (piece.part.stop offset) (pieces.map Piece.part)
      have form : piece.part.stop offset = alignUp offset alignment + piece.2.length := by
        rw [alignUp_eq_roundUp isMask, Part.stop, Piece.part, alike piece List.mem_cons_self]
      rw [← form]
      exact Nat.mod_eq_of_lt (by omega)
    simp only [variableArrayBody, first.size, some_bind, stop]
    exact ih (fun other member => alike other (List.mem_cons_of_mem _ member)) fits

theorem variableArrayLoop_eq {value : Target} {width : Nat}
    (fills : List.Forall₂ Instance.Fills children pieces)
    (alike : ∀ piece ∈ pieces, piece.1.alignment = value.type.alignment)
    (aligned : value.type.alignment + 1 ∣ value.data) (some_place : value.data ≠ 0)
    {offsetPtr : Nat}
    (body : buffer.Holds (value.data + offset) (layout offset (pieces.map Piece.part)).length)
    (ends : buffer.Holds offsetPtr (width * pieces.length))
    (apart : value.data + layoutEnd offset (pieces.map Piece.part) ≤ offsetPtr)
    (fits : layoutEnd offset (pieces.map Piece.part) < wordSize) :
    variableArrayLoop value width offset offsetPtr children buffer =
      some ((buffer.overlay (value.data + offset) (layout offset (pieces.map Piece.part))).overlay offsetPtr
        (table width (layoutEnds offset (pieces.map Piece.part)))) := by
  induction fills generalizing offset offsetPtr buffer with
  | nil => simp [variableArrayLoop, layout, layoutEnds, table]
  | @cons child piece children pieces first rest ih =>
    have same := alike piece List.mem_cons_self
    have spaced := piece.part.length_spaced offset
    have total := length_layout (piece.part.stop offset) (pieces.map Piece.part)
    simp only [List.map_cons, layout, layoutEnds, layoutEnd_cons, List.length_append, List.length_cons,
      Nat.mul_succ] at body ends apart fits ⊢
    obtain ⟨padded, filled, stop⟩ := place_piece first (same ▸ aligned) (fun zero => absurd zero some_place)
      (body.part 0 _ (by omega)) (by omega)
    rw [same] at padded filled stop
    have entry := @Buffer.writeBytes_eq (buffer.overlay (value.data + offset) (piece.part.spaced offset)) offsetPtr
      (leBytes width (piece.part.stop offset)) (by rw [length_leBytes]; exact ends.part 0 width (by omega))
    have rest_body : buffer.Holds (value.data + piece.part.stop offset)
        (layout (piece.part.stop offset) (pieces.map Piece.part)).length := by
      have range := body.part (piece.part.spaced offset).length _ (Nat.le_refl _)
      rwa [Nat.add_assoc, spaced] at range
    simp only [variableArrayLoop, padded, filled, stop, gvsWriteUnalignedLe, entry, Option.bind_eq_bind,
      Option.bind_some]
    rw [ih (fun other member => alike other (List.mem_cons_of_mem _ member)) (by exact rest_body)
      (by exact ends.part width _ (by omega)) (by omega) fits]
    -- The body grows below the table, so the new entry can be written after it.
    rw [Buffer.overlay_comm (buffer.overlay (value.data + offset) (piece.part.spaced offset)) offsetPtr
      (value.data + piece.part.stop offset) _ _ (Or.inr (by omega)), Buffer.overlay_append, table_cons,
      Buffer.overlay_append, length_leBytes, Nat.add_assoc value.data offset, spaced]

theorem writes_variableArray (varies : element.fixedSize = 0)
    (fills : List.Forall₂ Instance.Fills children pieces)
    (alike : ∀ piece ∈ pieces, piece.1 = element)
    (fits : (encodeNode (.array element) pieces).length < wordSize) :
    Writes (.array element) children (encodeNode (.array element) pieces) := by
  have aligned : ∀ piece ∈ pieces, piece.1.alignment = (VariantType.array element).alignment := by
    intro piece member
    rw [alike piece member]
    rfl
  have body := length_layout 0 (pieces.map Piece.part)
  rw [encodeNode_variableArray varies] at fits ⊢
  rw [length_withTable, length_layoutEnds, List.length_map] at fits
  constructor
  · have size := @variableArrayBody_eq _ (VariantType.array element).alignment_isAlignment.isMask _ _ fills aligned 0
      (by omega)
    simp only [xvariantSerialiserNeededSize, varies, ne_eq, not_true_eq_false, if_false,
      gvsVariableSizedArrayNeededSize, size, some_bind, length_withTable,
      length_layoutEnds, List.length_map, fills.length_eq]
    rw [Nat.zero_add] at body
    rw [← body, gvsCalculateTotalSize_eq fits]
    rfl
  · intro data buffer room
    by_cases empty : pieces = []
    · subst empty
      cases fills
      simp [gvsSerialise, varies, gvsVariableSizedArraySerialise, variableArrayLoop, layout, layoutEnds, withTable,
        table]
    · have count : pieces.length ≠ 0 := fun zero => empty (List.length_eq_zero_iff.mp zero)
      have some_entry : layoutEnds 0 (pieces.map Piece.part) ≠ [] := by
        intro none_entry
        have zero := congrArg List.length none_entry
        rw [length_layoutEnds, List.length_map] at zero
        exact count zero
      have width := gvsGetOffsetSize_withTable (layout 0 (pieces.map Piece.part)) some_entry
      have some_place : data ≠ 0 := by
        intro zero
        have none_bytes := congrArg List.length (room.null zero)
        have positive := Nat.mul_pos (tableWidth_pos (layout 0 (pieces.map Piece.part)).length pieces.length)
          (Nat.pos_of_ne_zero count)
        simp only [length_withTable, length_layoutEnds, List.length_map, List.length_nil] at none_bytes
        omega
      simp only [gvsSerialise, varies, ne_eq, not_true_eq_false, if_false, gvsVariableSizedArraySerialise, width]
      simp only [length_withTable, length_layoutEnds, List.length_map, fills.length_eq]
      have holds := room.holds
      simp only [length_withTable, length_layoutEnds, List.length_map] at holds
      rw [← Nat.add_assoc, Nat.add_sub_cancel]
      rw [variableArrayLoop_eq fills aligned room.aligned some_place (holds.part 0 _ (by omega))
        (holds.part _ _ (Nat.le_refl _)) (by simp only; omega) (by omega), withTable, Buffer.overlay_append,
        length_layoutEnds, List.length_map]
      rfl

/-! ## Tuples -/

section Tuple
variable {children : List Instance} {pieces : List Piece}
variable {type : VariantType}

theorem tupleBody_eq (fills : List.Forall₂ Instance.Fills children pieces) (sized : Sized pieces)
    {members : List MemberInfo}
    (kinds : members.map MemberInfo.kind = memberKinds (pieces.map Prod.fst))
    (last : Option MemberInfo) (offset : Nat) (fits : layoutEnd offset (pieces.map Piece.part) < wordSize) :
    tupleBody last offset members children =
      some (layoutEnd offset (pieces.map Piece.part), members.getLast?.or last) := by
  induction fills generalizing members last offset with
  | nil =>
    have none_left := List.map_eq_nil_iff.mp kinds
    simp [tupleBody, none_left]
  | @cons child piece children pieces first rest ih =>
    obtain ⟨member, members, rfl, kind, kinds⟩ := List.map_eq_cons_iff.mp kinds
    have info : member.typeInfo = piece.1.info := congrArg (fun kind => kind.2.1) kind
    rw [List.map_cons, layoutEnd_cons] at fits ⊢
    have size : memberSize member child = some piece.2.length := by
      rw [memberSize, info]
      split
      case isTrue fixed => exact congrArg some (sized piece List.mem_cons_self fixed).symm
      case isFalse => exact first.size
    have stop : (alignUp offset member.typeInfo.alignment + piece.2.length) % wordSize = piece.part.stop offset := by
      have below := le_layoutEnd (piece.part.stop offset) (pieces.map Piece.part)
      have form : piece.part.stop offset = alignUp offset member.typeInfo.alignment + piece.2.length := by
        rw [info]
        exact congrArg (· + piece.2.length) (alignUp_eq_roundUp piece.1.alignment_isAlignment.isMask offset).symm
      rw [← form]
      exact Nat.mod_eq_of_lt (by omega)
    have next := ih (fun other among => sized other (List.mem_cons_of_mem _ among)) kinds (some member) _ fits
    rw [tupleBody, size]
    simp only [some_bind, stop, next]
    cases members with
    | nil => rfl
    | cons second members => simp [List.getLast?_cons]

theorem tupleLoop_eq (fills : List.Forall₂ Instance.Fills children pieces) {members : List MemberInfo}
    (kinds : members.map MemberInfo.kind = memberKinds (pieces.map Prod.fst)) {data : Nat} (width : Nat)
    (aligned : ∀ piece ∈ pieces, piece.1.alignment + 1 ∣ data)
    (null : data = 0 → ∀ piece ∈ pieces, piece.2 = []) (offset : Nat) {size : Nat} {buffer : Buffer}
    (holds : buffer.Holds data size) (fits : size < wordSize)
    (apart : layoutEnd offset (pieces.map Piece.part) + width * (storedEnds offset pieces).length ≤ size) :
    tupleLoop data width offset size members children buffer =
      some (layoutEnd offset (pieces.map Piece.part), size - width * (storedEnds offset pieces).length,
        (buffer.overlay (data + offset) (layout offset (pieces.map Piece.part))).overlay
          (data + (size - width * (storedEnds offset pieces).length))
          (table width (storedEnds offset pieces).reverse)) := by
  induction fills generalizing members offset size buffer with
  | nil =>
    simp [tupleLoop, layout, storedEnds, table]
  | @cons child piece children pieces first rest ih =>
    obtain ⟨member, members, rfl, kind, kinds⟩ := List.map_eq_cons_iff.mp kinds
    have info : member.typeInfo = piece.1.info := congrArg (fun kind => kind.2.1) kind
    have ending : member.ending = memberEnding piece.1 (pieces.map Prod.fst) := congrArg (fun kind => kind.2.2) kind
    have spaced := piece.part.length_spaced offset
    have total := length_layout (piece.part.stop offset) (pieces.map Piece.part)
    rw [List.map_cons, layoutEnd_cons] at apart ⊢
    obtain ⟨padded, filled, stop⟩ := place_piece first (aligned piece List.mem_cons_self)
      (fun zero => null zero piece List.mem_cons_self) (holds.part offset _ (by omega)) (by omega)
    have mask : member.typeInfo.alignment = piece.1.alignment := congrArg TypeInfo.alignment info
    have none_later : data = 0 → ∀ piece ∈ pieces, piece.2 = [] := fun zero other among =>
      null zero other (List.mem_cons_of_mem _ among)
    have each : ∀ piece ∈ pieces, piece.1.alignment + 1 ∣ data := fun other among =>
      aligned other (List.mem_cons_of_mem _ among)
    by_cases stored : piece.1.fixedSize = 0 ∧ pieces ≠ []
    · have isOffset : member.ending = .offset := by
        rw [ending, memberEnding, if_neg (not_not.mpr stored.1), if_neg (by simpa using stored.2)]
      simp only [storedEnds, if_pos stored, List.length_cons, Nat.mul_succ, List.reverse_cons, table_append] at apart ⊢
      have shrunk : (size + (wordSize - width)) % wordSize = size - width := by
        have word : size + (wordSize - width) = size - width + wordSize := by omega
        rw [word, Nat.add_mod_right, Nat.mod_eq_of_lt (by omega)]
      have entry := @Buffer.writeBytes_eq (buffer.overlay (data + offset) (piece.part.spaced offset))
        (data + (size - width)) (leBytes width (piece.part.stop offset))
        (by rw [length_leBytes]; exact holds.part (size - width) width (by omega))
      simp only [tupleLoop, mask, padded, filled, stop, isOffset, if_true, shrunk, gvsWriteUnalignedLe, entry,
        some_bind]
      rw [ih kinds each none_later _ (by exact holds.part 0 (size - width) (by omega)) (by omega) (by omega)]
      have lower : size - width - width * (storedEnds (piece.part.stop offset) pieces).length =
          size - (width * (storedEnds (piece.part.stop offset) pieces).length + width) := by omega
      have upper : data + (size - (width * (storedEnds (piece.part.stop offset) pieces).length + width)) +
          width * (storedEnds (piece.part.stop offset) pieces).length = data + (size - width) := by omega
      -- The entry stands above the rest of the body and above the entries that follow.
      rw [lower, Buffer.overlay_comm _ (data + (size - width)) (data + piece.part.stop offset) _ _
          (Or.inr (by omega)),
        Buffer.overlay_comm _ (data + (size - width)) _ _ _
          (Or.inr (by rw [length_table, List.length_reverse]; omega)),
        layout, Buffer.overlay_append, Buffer.overlay_append, Nat.add_assoc data offset, spaced, length_table,
        List.length_reverse, upper]
      simp [table]
    · have notOffset : member.ending ≠ .offset := by
        rw [ending, memberEnding]
        grind
      simp only [storedEnds, if_neg stored] at apart ⊢
      simp only [tupleLoop, mask, padded, filled, stop, if_neg notOffset, some_bind]
      rw [ih kinds each none_later _ (by exact holds) fits apart, layout, Buffer.overlay_append,
        Nat.add_assoc data offset, spaced]

theorem gvsTupleNeededSize_eq (tuple : type.isTuple = true)
    (fills : List.Forall₂ Instance.Fills children pieces) (items : pieces.map Prod.fst = type.items)
    (sized : Sized pieces) (fits : (encodeTuple type pieces).length < wordSize) :
    gvsTupleNeededSize type children = some (encodeTuple type pieces).length := by
  by_cases fixed : type.fixedSize ≠ 0
  · rw [gvsTupleNeededSize, if_pos fixed, length_encodeTuple_fixed tuple items sized fixed fits]
  · have body := length_layout 0 (pieces.map Piece.part)
    have below := length_encodeTuple type pieces
    have some_item : pieces ≠ [] := by
      intro none_item
      rw [none_item] at items
      rw [VariantType.fixedSize_unit tuple items.symm] at fixed
      exact fixed (by decide)
    obtain ⟨front, last, rfl⟩ := List.eq_nil_or_concat' pieces |>.resolve_left some_item
    have split : type.items = front.map Prod.fst ++ [last.1] := by rw [← items, List.map_append]; rfl
    have count : ((memberAt (front.map Prod.fst) last.1 []).i + 1).toNat =
        (storedEnds 0 (front ++ [last])).length := by
      rw [memberAt_i, length_storedEnds]
      rfl
    have walked := tupleBody_eq fills sized (by rw [members_kinds, items]) none 0 (by omega)
    rw [gvsTupleNeededSize, if_neg fixed, walked, members_getLast? split]
    simp only [encodeTuple, tupleFields, not_not.mp fixed, Nat.zero_sub, zeros, List.replicate_zero, List.append_nil,
      length_withTable, List.length_reverse] at fits ⊢
    simp only [Option.or_none, some_bind, count, ← body, Nat.zero_add]
    rw [gvsCalculateTotalSize_eq fits]
    rfl

theorem gvsTupleSerialise_eq (tuple : type.isTuple = true)
    (fills : List.Forall₂ Instance.Fills children pieces) (items : pieces.map Prod.fst = type.items)
    (fits : (encodeTuple type pieces).length < wordSize) {data : Nat} {buffer : Buffer}
    (room : Room buffer data (type, encodeTuple type pieces)) :
    gvsTupleSerialise { type := type, data := data, size := (encodeTuple type pieces).length } children buffer =
      some (buffer.overlay data (encodeTuple type pieces)) := by
  have body := length_layout 0 (pieces.map Piece.part)
  have below := length_encodeTuple type pieces
  have aligned : ∀ piece ∈ pieces, piece.1.alignment + 1 ∣ data := by
    intro piece member
    have among : piece.1 ∈ type.items := items ▸ List.mem_map_of_mem member
    exact Nat.dvd_trans (piece.1.alignment_isAlignment.isMask.dvd_of_le type.alignment_isAlignment.isMask
      (VariantType.item_alignment_le tuple among)) room.aligned
  have null : data = 0 → ∀ piece ∈ pieces, piece.2 = [] := by
    intro zero piece member
    have part := @length_le_layoutEnd 0 _ _ (List.mem_map_of_mem (f := Piece.part) member)
    have none_bytes : (encodeTuple type pieces).length = 0 := List.length_eq_zero_iff.mpr (room.null zero)
    exact List.length_eq_zero_iff.mp (Nat.le_zero.mp (Nat.le_trans part (by omega)))
  -- Without entries the width of the table does not matter.
  have widths : gvsGetOffsetSize (encodeTuple type pieces).length = tableWidth
      (layout 0 (pieces.map Piece.part) ++ zeros (type.fixedSize - (layout 0 (pieces.map Piece.part)).length)).length
      (storedEnds 0 pieces).reverse.length ∨ storedEnds 0 pieces = [] := by
    by_cases none_end : storedEnds 0 pieces = []
    · exact Or.inr none_end
    · exact Or.inl (gvsGetOffsetSize_withTable _ (by simpa using none_end))
  have size : (encodeTuple type pieces).length = (layout 0 (pieces.map Piece.part)).length +
      (type.fixedSize - (layout 0 (pieces.map Piece.part)).length) +
      gvsGetOffsetSize (encodeTuple type pieces).length * (storedEnds 0 pieces).length := by
    rcases widths with same | none_end
    · rw [same]
      simp [encodeTuple, tupleFields]
    · simp [encodeTuple, tupleFields, none_end]
  have written := tupleLoop_eq fills (by rw [members_kinds, items])
    (gvsGetOffsetSize (encodeTuple type pieces).length) aligned null 0 room.holds fits (by simp only; omega)
  have rest : (encodeTuple type pieces).length -
      gvsGetOffsetSize (encodeTuple type pieces).length * (storedEnds 0 pieces).length =
      (layout 0 (pieces.map Piece.part)).length +
        (type.fixedSize - (layout 0 (pieces.map Piece.part)).length) := by omega
  simp only [rest, ← body, Nat.zero_add, Nat.add_zero] at written
  have tail := room.holds.part (layout 0 (pieces.map Piece.part)).length
    (type.fixedSize - (layout 0 (pieces.map Piece.part)).length) (by simp only; omega)
  have encoded : encodeTuple type pieces = layout 0 (pieces.map Piece.part) ++
      zeros (type.fixedSize - (layout 0 (pieces.map Piece.part)).length) ++
      table (gvsGetOffsetSize (encodeTuple type pieces).length) (storedEnds 0 pieces).reverse := by
    rcases widths with same | none_end
    · rw [same]
      rfl
    · simp [encodeTuple, tupleFields, withTable, none_end, table]
  rw [gvsTupleSerialise, written]
  simp only [some_bind, Nat.add_sub_cancel_left]
  rw [Buffer.writeBytes_eq (by rw [length_zeros]; exact tail)]
  -- The padding stands between the body and the table.
  rw [Buffer.overlay_comm _ _ _ _ _ (Or.inr (by rw [length_zeros]; omega)), ← Buffer.overlay_append]
  conv_rhs => rw [encoded, Buffer.overlay_append]
  rw [List.length_append, length_zeros]

theorem writes_tuple (tuple : type.isTuple = true)
    (fills : List.Forall₂ Instance.Fills children pieces) (items : pieces.map Prod.fst = type.items)
    (sized : Sized pieces) (fits : (encodeTuple type pieces).length < wordSize) :
    Writes type children (encodeTuple type pieces) := by
  constructor
  · have dispatch : xvariantSerialiserNeededSize type children = gvsTupleNeededSize type children := by
      cases type with
      | tuple items => rfl
      | dictEntry key value => rfl
      | _ => cases tuple
    rw [dispatch]
    exact gvsTupleNeededSize_eq tuple fills items sized fits
  · intro data buffer room
    have dispatch : ∀ target : Target, target.type = type →
        gvsSerialise target children buffer = gvsTupleSerialise target children buffer := by
      rintro ⟨shape, data, size⟩ same
      subst same
      cases shape with
      | tuple items => rfl
      | dictEntry key value => rfl
      | _ => cases tuple
    rw [dispatch _ rfl]
    exact gvsTupleSerialise_eq tuple fills items fits room

end Tuple

/-! ## Values -/

theorem Instance.fills_node {type : VariantType}
    (writes : Writes type children bytes) (sized : type.fixedSize ≠ 0 → bytes.length = type.fixedSize) :
    Instance.Fills
      { type := type
        size := xvariantSerialiserNeededSize type children
        store := xvariantSerialise type (xvariantSerialiserNeededSize type children) children } (type, bytes) where
  type := rfl
  size := writes.1
  store := by
    intro address buffer room
    have check : serialisedCheck type bytes.length (address = 0) address = true := by
      apply (serialisedCheck_iff _ _ _ _).mpr
      refine ⟨sized, fun _ => ?_, Or.inr room.aligned⟩
      by_cases zero : address = 0
      · exact Or.inl (List.length_eq_zero_iff.mpr (room.null zero))
      · exact Or.inr (by simpa using zero)
    simp only [xvariantSerialise, writes.1, some_bind, xvariantSerialiserSerialise, check,
      if_true]
    exact writes.2 address buffer room

theorem writes_node {type : VariantType}
    (fills : List.Forall₂ Instance.Fills children pieces) (admitted : type.admits (pieces.map Prod.fst) = true)
    (sized : Sized pieces) (fits : (encodeNode type pieces).length < wordSize) :
    Writes type children (encodeNode type pieces) := by
  cases tuple : type.isTuple with
  | true =>
    rw [encodeNode_tuple tuple] at fits ⊢
    exact writes_tuple tuple fills ((VariantType.admits_tuple tuple).mp admitted) sized fits
  | false =>
    cases type with
    | basic b => cases admitted
    | variant =>
      simp only [VariantType.admits, List.length_map, decide_eq_true_eq] at admitted
      obtain ⟨piece, rfl⟩ := List.length_eq_one_iff.mp admitted
      cases fills with
      | cons first rest =>
        cases rest
        rw [encodeNode_variant] at fits ⊢
        exact writes_variant first fits
    | maybe element =>
      cases fills with
      | nil => exact writes_nothing element
      | @cons child piece children pieces first rest =>
        simp only [VariantType.admits, List.map_cons, Bool.or_eq_true, decide_eq_true_eq, reduceCtorEq, false_or,
          List.cons.injEq, List.map_eq_nil_iff] at admitted
        obtain ⟨rfl, rfl⟩ := admitted
        cases rest
        rw [encodeNode_maybe] at fits ⊢
        split
        case isTrue fixed => exact writes_fixedMaybe fixed first (sized piece List.mem_cons_self fixed)
        case isFalse varies =>
          rw [if_neg varies, List.length_append] at fits
          exact writes_variableMaybe (not_not.mp varies) first fits
    | array element =>
      have alike : ∀ piece ∈ pieces, piece.1 = element := by
        simpa [VariantType.admits] using admitted
      by_cases fixed : element.fixedSize = 0
      · exact writes_variableArray fixed fills alike fits
      · rw [encodeNode_fixedArray fixed] at fits ⊢
        apply writes_fixedArray fixed fills _ fits
        intro piece member
        have same := alike piece member
        exact ⟨same, same ▸ sized piece member (same ▸ fixed)⟩
    | tuple items => cases tuple
    | dictEntry key value => cases tuple

theorem Value.toInstance_fills {v : Value} (writable : v.Writable) : v.toInstance.Fills v.piece := by
  induction v with
  | leaf basic bytes =>
    refine ⟨rfl, rfl, ?_⟩
    intro address buffer room
    exact Buffer.writeBytes_eq room.holds
  | node type children ih =>
    have admitted := ((Value.wellFormed_node type children).mp writable.valid).1
    rw [← Value.types_pieces] at admitted
    have fills : List.Forall₂ Instance.Fills (Value.toInstances children) (Value.pieces children) := by
      rw [Value.toInstances_eq_map, Value.pieces_eq_map, List.forall₂_map_left_iff, List.forall₂_map_right_iff,
        List.forall₂_same]
      exact fun child member => ih child member (writable.child member)
    have writes := writes_node fills admitted (Value.pieces_sized writable) writable.fits
    exact Instance.fills_node writes (Value.length_encode writable)

/-- Both passes of the serialiser on a block that `g_malloc` returned: every byte is
written, and the bytes are the encoding. -/
theorem xvariantEnsureSerialised_eq {v : Value} (writable : v.Writable) {base : Nat}
    (aligned : v.type.alignment + 1 ∣ base) (null : base = 0 → v.encode = []) :
    v.toInstance.size = some v.encode.length ∧
      ∃ buffer, xvariantEnsureSerialised v base = some buffer ∧ buffer.contents = v.encode.map some := by
  have fills := Value.toInstance_fills writable
  refine ⟨fills.size, (Buffer.fresh base v.encode.length).overlay base v.encode, ?_, Buffer.contents_overlay rfl⟩
  have room : Room (Buffer.fresh base v.encode.length) base v.piece :=
    ⟨aligned, null, Nat.le_refl _, Nat.le_refl _⟩
  rw [xvariantEnsureSerialised, fills.size]
  exact fills.store base _ room

end Xpl.Variant
