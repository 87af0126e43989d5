import Xpl.Variant.NormalForm

/-! Where the pieces of a container are.

A container is the layout of its pieces and a tail. Both places and tail depend on the types and
the lengths of the pieces only.
-/

set_option autoImplicit false

namespace Xpl.Variant
open Xpl.Library

/-- What follows the layout of the pieces in a container. -/
def assembleTail (width : Nat) (type : VariantType) (pieces : List Piece) : Bytes :=
  match type with
  | .basic _ => []
  | .variant => pieces.flatMap fun piece => 0 :: piece.1.string
  | .maybe element => pieces.flatMap fun _ => if element.fixedSize ≠ 0 then [] else [0]
  | .array element => if element.fixedSize ≠ 0 then [] else table width (layoutEnds 0 (pieces.map Piece.part))
  | .tuple _ | .dictEntry _ _ =>
    zeros (type.fixedSize - (layout 0 (pieces.map Piece.part)).length) ++ table width (storedEnds 0 pieces).reverse

theorem layout_single (piece : Piece) : layout 0 [piece.part] = piece.2 := by
  rw [layout, Part.spaced, roundUp_of_dvd (Nat.dvd_zero _)]
  simp [zeros, layout, Piece.part]

theorem layout_closed {alignment : Nat} {pieces : List Piece}
    (alike : ∀ piece ∈ pieces, piece.1.alignment = alignment ∧ alignment + 1 ∣ piece.2.length) {offset : Nat}
    (start : alignment + 1 ∣ offset) : layout offset (pieces.map Piece.part) = pieces.flatMap Prod.snd := by
  induction pieces generalizing offset with
  | nil => rfl
  | cons piece pieces ih =>
    obtain ⟨same, whole⟩ := alike piece List.mem_cons_self
    have rounded : roundUp offset piece.part.1 = offset := roundUp_of_dvd (by rw [Piece.part, same]; exact start)
    have stop : piece.part.stop offset = offset + piece.2.length := by rw [Part.stop, rounded]; rfl
    rw [List.map_cons, layout, Part.spaced, rounded, stop,
      ih (fun other member => alike other (List.mem_cons_of_mem _ member)) (Nat.dvd_add start whole)]
    simp [zeros, Piece.part]

theorem assemble_eq {width : Nat} {type : VariantType} {pieces : List Piece}
    (admitted : type.admits (pieces.map Prod.fst) = true) (sized : Sized pieces) :
    assemble width type pieces = layout 0 (pieces.map Piece.part) ++ assembleTail width type pieces := by
  cases type with
  | basic b => cases admitted
  | variant =>
    simp only [VariantType.admits, List.length_map, decide_eq_true_eq] at admitted
    obtain ⟨piece, rfl⟩ := List.length_eq_one_iff.mp admitted
    simp [assemble, assembleTail, layout_single]
  | maybe element =>
    simp only [VariantType.admits, Bool.or_eq_true, decide_eq_true_eq, List.map_eq_nil_iff] at admitted
    rcases admitted with rfl | one
    · rfl
    · obtain ⟨piece, rest, rfl, -, none_rest⟩ := List.map_eq_cons_iff.mp one
      rw [List.map_eq_nil_iff] at none_rest
      subst none_rest
      by_cases fixed : element.fixedSize = 0 <;> simp [assemble, assembleTail, layout_single, fixed]
  | array element =>
    have alike : ∀ piece ∈ pieces, piece.1 = element := by simpa [VariantType.admits] using admitted
    by_cases fixed : element.fixedSize = 0
    · simp [assemble, assembleTail, fixed]
    · have closed := @layout_closed element.alignment pieces (fun piece member => ?_) 0 (Nat.dvd_zero _)
      · simp [assemble, assembleTail, fixed, closed]
      · have same := alike piece member
        have size := sized piece member (same ▸ fixed)
        rw [size, same]
        exact ⟨rfl, element.info_wellFormed.divides⟩
  | tuple items => simp [assemble, assembleTail, tupleFields]
  | dictEntry key item => simp [assemble, assembleTail, tupleFields]

/-! ## Pieces of the same shape -/

def Piece.shape (piece : Piece) : VariantType × Nat := (piece.1, piece.2.length)

section Shapes
variable {pieces others : List Piece} (same : pieces.map Piece.shape = others.map Piece.shape)

include same

theorem types_of_shape : pieces.map Prod.fst = others.map Prod.fst := by
  have types := congrArg (List.map Prod.fst) same
  simpa [Function.comp_def, Piece.shape] using types

theorem parts_of_shape : (pieces.map Piece.part).map Part.shape = (others.map Piece.part).map Part.shape := by
  have shapes := congrArg (List.map fun shape : VariantType × Nat => (shape.1.alignment, shape.2)) same
  simpa [Function.comp_def, Piece.shape, Piece.part, Part.shape] using shapes

theorem storedEnds_congr (offset : Nat) : storedEnds offset pieces = storedEnds offset others := by
  induction pieces generalizing others offset with
  | nil =>
    obtain rfl := List.map_eq_nil_iff.mp same.symm
    rfl
  | cons piece pieces ih =>
    obtain ⟨other, others, rfl, first, rest⟩ := List.map_eq_cons_iff.mp same.symm
    obtain ⟨type, length⟩ := Prod.mk.inj first
    have stop : other.part.stop offset = piece.part.stop offset := by
      simp only [Part.stop, Piece.part, type, length]
    have more : pieces ≠ [] ↔ others ≠ [] := by
      rw [← List.length_pos_iff, ← List.length_pos_iff, ← List.length_map Piece.shape, ← rest, List.length_map]
    simp only [storedEnds, type, stop, ih rest.symm, more]

theorem sized_of_shape (sized : Sized pieces) : Sized others := by
  intro other member fixed
  have among := List.mem_map_of_mem (f := Piece.shape) member
  rw [← same] at among
  obtain ⟨piece, own, shape⟩ := List.mem_map.mp among
  obtain ⟨type, length⟩ := Prod.mk.inj shape
  rw [← type] at fixed ⊢
  rw [← length]
  exact sized piece own fixed

theorem assembleTail_congr (width : Nat) (type : VariantType) :
    assembleTail width type pieces = assembleTail width type others := by
  have types := types_of_shape same
  have parts := parts_of_shape same
  obtain ⟨ends, last⟩ := layoutEnds_congr parts 0
  have ownLength := length_layout 0 (pieces.map Piece.part)
  have length := length_layout 0 (others.map Piece.part)
  have byTypes : ∀ f : VariantType → Bytes, (pieces.flatMap fun piece => f piece.1) = others.flatMap fun other => f other.1 := by
    intro f
    have mapped := congrArg (List.flatMap f) types
    simpa [List.flatMap_map] using mapped
  cases type with
  | basic b => rfl
  | variant => exact byTypes fun type => 0 :: type.string
  | maybe element => exact byTypes fun _ => if element.fixedSize ≠ 0 then [] else [0]
  | array element => simp only [assembleTail, ends]
  | tuple items => simp only [assembleTail, storedEnds_congr same, show (layout 0 (pieces.map Piece.part)).length =
      (layout 0 (others.map Piece.part)).length by omega]
  | dictEntry key item => simp only [assembleTail, storedEnds_congr same, show (layout 0 (pieces.map Piece.part)).length =
      (layout 0 (others.map Piece.part)).length by omega]

theorem Assembled.congr {depth : Nat} {type : VariantType} {bytes : Bytes} (assembled : Assembled depth type pieces bytes) :
    (assemble (gvsGetOffsetSize bytes.length) type others).length = bytes.length ∧
      Assembled depth type others (assemble (gvsGetOffsetSize bytes.length) type others) := by
  obtain ⟨admitted, sized, readable, fits, counted, form⟩ := assembled
  have types := types_of_shape same
  have otherAdmitted := types ▸ admitted
  have otherSized := sized_of_shape same sized
  obtain ⟨-, last⟩ := layoutEnds_congr (parts_of_shape same) 0
  have ownLength := length_layout 0 (pieces.map Piece.part)
  have otherLength := length_layout 0 (others.map Piece.part)
  have length : (assemble (gvsGetOffsetSize bytes.length) type others).length = bytes.length := by
    rw [assemble_eq otherAdmitted otherSized, ← assembleTail_congr same, List.length_append]
    have own := congrArg List.length (form.trans (assemble_eq admitted sized))
    rw [List.length_append] at own
    omega
  refine ⟨length, otherAdmitted, otherSized, fun variant other member => ?_, by omega, fun element array some_piece => ?_,
    by rw [length]⟩
  · have among := List.mem_map_of_mem (f := Prod.fst) member
    rw [← types] at among
    obtain ⟨piece, own, type⟩ := List.mem_map.mp among
    exact type ▸ readable variant piece own
  · have own : pieces ≠ [] := fun none_piece => some_piece (by
      rw [none_piece] at same
      exact List.map_eq_nil_iff.mp same.symm)
    have nonempty := counted element array own
    intro empty
    rw [empty] at length
    exact nonempty (List.length_eq_zero_iff.mp length.symm)

end Shapes

/-! ## The reader's positions -/

/-- A child where the layout has it. -/
def Serialised.pieceAt (value : Serialised) (front : List Piece) (piece : Piece) : Serialised :=
  value.childAt piece.1 (roundUp (layoutEnd 0 (front.map Piece.part)) piece.1.alignment)
    (piece.part.stop (layoutEnd 0 (front.map Piece.part)))

theorem pieceAt_single (value : Serialised) (piece : Piece) :
    value.pieceAt [] piece = value.childAt piece.1 0 piece.2.length := by
  have stop : piece.part.stop 0 = piece.2.length := by
    rw [Part.stop, roundUp_of_dvd (Nat.dvd_zero _), Nat.zero_add]
    rfl
  rw [Serialised.pieceAt, List.map_nil, layoutEnd_nil, roundUp_of_dvd (Nat.dvd_zero _), stop]

theorem layoutEnd_closed {alignment size : Nat} {pieces : List Piece} (whole : alignment + 1 ∣ size)
    (alike : ∀ piece ∈ pieces, piece.1.alignment = alignment ∧ piece.2.length = size) :
    layoutEnd 0 (pieces.map Piece.part) = size * pieces.length := by
  induction pieces using List.reverseRecOn with
  | nil => rfl
  | append_singleton pieces piece ih =>
    obtain ⟨same, length⟩ := alike piece (by simp)
    rw [List.map_append, layoutEnd_append, ih fun other member => alike other (List.mem_append_left _ member),
      List.map_singleton, layoutEnd_cons, layoutEnd_nil, Part.stop, Piece.part, same, length,
      roundUp_of_dvd (Nat.dvd_mul_right_of_dvd whole _), List.length_append, List.length_singleton, Nat.mul_succ]

section Containers
variable {value : Serialised} {pieces : List Piece} {bytes : Bytes}

theorem childAt_whole {type : VariantType} (backed : value.data.isNull = false) (some_byte : 0 < value.size) :
    value.childAt type 0 value.size = { type := type, data := value.data, depth := value.depth + 1 } := by
  rw [Serialised.childAt, if_pos some_byte]
  cases data : value.data with
  | null size => rw [data] at backed; cases backed
  | span address bytes =>
    have size : value.size = bytes.length := by rw [Serialised.size, data]; rfl
    rw [size, Data.range, slice_all, Nat.add_zero]

theorem Assembled.gvsGetChild_eq (assembled : Assembled value.depth value.type pieces bytes)
    (carries : value.Carries (value.type, bytes)) {front back : List Piece} {piece : Piece}
    (shape : pieces = front ++ piece :: back) : gvsGetChild value front.length = some (value.pieceAt front piece) := by
  obtain ⟨admitted, sized, readable, fits, counted, form⟩ := assembled
  have size : value.size = bytes.length := carries.size
  -- tuples and dictionary entries are decoded by the same functions
  cases tuple : value.type.isTuple with
  | true =>
    rw [assemble_tuple tuple, ← size] at form
    have table : TupleTable value pieces :=
      ⟨tuple, (VariantType.admits_tuple tuple).mp admitted, sized, by omega, form ▸ carries⟩
    exact table.getChild shape
  | false =>
    cases type : value.type with
    | basic b =>
      rw [type] at admitted
      cases admitted
    | variant =>
      rw [type] at admitted form
      simp only [VariantType.admits, List.length_map, decide_eq_true_eq] at admitted
      obtain ⟨only, rfl⟩ := List.length_eq_one_iff.mp admitted
      obtain ⟨rfl, rfl, rfl⟩ := singleton_split shape
      have single : bytes = only.2 ++ 0 :: only.1.string := by simpa [assemble] using form
      rw [pieceAt_single, gvsGetChild, type]
      exact gvsVariantGetChild_eq (single ▸ carries) (readable type only List.mem_cons_self)
        (sized only List.mem_cons_self)
    | maybe element =>
      rw [type] at admitted form
      simp only [VariantType.admits, Bool.or_eq_true, decide_eq_true_eq, List.map_eq_nil_iff] at admitted
      rcases admitted with rfl | one
      · simp at shape
      · obtain ⟨only, rest, rfl, rfl, none_rest⟩ := List.map_eq_cons_iff.mp one
        rw [List.map_eq_nil_iff] at none_rest
        subst none_rest
        obtain ⟨rfl, rfl, rfl⟩ := singleton_split shape
        rw [pieceAt_single, gvsGetChild, type]
        by_cases fixed : only.1.fixedSize = 0
        · have single : bytes = only.2 ++ [0] := by simpa [assemble, fixed] using form
          have length : value.size - 1 = only.2.length := by
            rw [size, single, List.length_append, List.length_singleton, Nat.add_sub_cancel]
          simp only [fixed, ne_eq, not_true_eq_false, if_false, gvsVariableSizedMaybeGetChild, Serialised.childAt, length]
          by_cases empty : only.2.length = 0
          · simp [empty]
          · simp [empty, Nat.pos_of_ne_zero empty]
        · have single : bytes = only.2 := by simpa [assemble, fixed] using form
          have some_byte : 0 < only.2.length := by
            rw [sized only List.mem_cons_self fixed]
            exact Nat.pos_of_ne_zero fixed
          have length : only.2.length = value.size := by rw [size, single]
          obtain ⟨address, span⟩ := carries.backed (by simpa [single] using List.length_pos_iff.mp some_byte)
          rw [length, childAt_whole (by rw [span]; rfl) (by omega)]
          simp only [fixed, ne_eq, not_false_eq_true, if_true, gvsFixedSizedMaybeGetChild]
    | array element =>
      rw [type] at admitted form
      have alike : ∀ piece ∈ pieces, piece.1 = element := by simpa [VariantType.admits] using admitted
      have among : piece ∈ pieces := by
        rw [shape]
        exact List.mem_append_right _ List.mem_cons_self
      have same := alike piece among
      by_cases fixed : element.fixedSize = 0
      · simp only [assemble, fixed, ne_eq, not_true_eq_false, if_false] at form
        have some_piece : pieces ≠ [] := List.ne_nil_of_mem among
        have table : ArrayTable bytes pieces := ⟨fits, counted element type some_piece, some_piece, form⟩
        exact table.getChild carries type fixed shape same
      · have length : piece.2.length = element.fixedSize := same ▸ sized piece among (same ▸ fixed)
        have before : layoutEnd 0 (front.map Piece.part) = element.fixedSize * front.length := by
          refine layoutEnd_closed element.info_wellFormed.divides fun other member => ?_
          have member : other ∈ pieces := by
            rw [shape]
            exact List.mem_append_left _ member
          have type := alike other member
          exact ⟨by rw [type]; rfl, type ▸ sized other member (type ▸ fixed)⟩
        have place : roundUp (element.fixedSize * front.length) element.alignment = element.fixedSize * front.length :=
          roundUp_of_dvd (Nat.dvd_mul_right_of_dvd element.info_wellFormed.divides _)
        have stop : piece.part.stop (element.fixedSize * front.length) =
            element.fixedSize * front.length + element.fixedSize := by
          rw [Part.stop, Piece.part, same, place, length]
        rw [Serialised.pieceAt, before, stop, same, place, gvsGetChild, type]
        simp only [fixed, ne_eq, not_false_eq_true, if_true, gvsFixedSizedArrayGetChild, Serialised.childAt]
        rw [if_pos (by omega)]
    | tuple items =>
      rw [type] at tuple
      cases tuple
    | dictEntry key item =>
      rw [type] at tuple
      cases tuple

theorem Assembled.getChild (assembled : Assembled value.depth value.type pieces bytes) (proper : value.Proper)
    (carries : value.Carries (value.type, bytes)) {front back : List Piece} {piece : Piece}
    (shape : pieces = front ++ piece :: back) :
    xvariantSerialisedGetChild value front.length = some (value.pieceAt front piece) ∧
      (value.pieceAt front piece).Proper ∧ (value.pieceAt front piece).Carries piece := by
  have found := assembled.gvsGetChild_eq carries shape
  obtain ⟨counted, each⟩ := assembled.holds proper.check carries
  have container : ∀ b, value.type ≠ .basic b := by
    intro b basic
    rw [xvariantSerialisedNChildren, if_pos proper.check, basic] at counted
    cases counted
  obtain ⟨length, number, children⟩ := xvariantSerialised_children proper container
  rw [counted, Option.some.injEq] at number
  subst number
  obtain ⟨child, got, isChild⟩ := children front.length (by simp [shape])
  have same : child = value.pieceAt front piece := by
    rw [xvariantSerialisedGetChild, counted] at got
    simp only [some_bind, found] at got
    split at got
    · split at got
      · exact (Option.some.inj got).symm
      · cases got
    · cases got
  obtain ⟨other, decoded, carried, -⟩ := each front piece back shape
  rw [found, Option.some.injEq] at decoded
  subst same decoded
  exact ⟨got, isChild.proper, carried⟩

end Containers

end Xpl.Variant
