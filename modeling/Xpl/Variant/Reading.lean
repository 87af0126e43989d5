import Xpl.Variant.Representation
import Xpl.Variant.TuplePosition

/-! The reader finds the pieces that a container is made of. -/

set_option autoImplicit false

namespace Xpl.Variant
open Xpl.Library
variable {value : Serialised} {piece : Piece}

/-- A value whose data are the bytes of a piece, inside the address space and not at its
start. -/
structure Serialised.Carries (value : Serialised) (piece : Piece) : Prop where
  type : value.type = piece.1
  bytes : value.data.bytes = piece.2
  size : value.size = piece.2.length
  placed : value.data.address + value.size ≤ wordSize
  null : value.data.address = 0 → piece.2 = []

theorem Serialised.Carries.backed (carries : value.Carries piece)
    (nonempty : piece.2 ≠ []) : ∃ address, value.data = .span address piece.2 := by
  cases data : value.data with
  | null size =>
    have none_bytes := carries.bytes
    rw [data] at none_bytes
    exact absurd none_bytes.symm nonempty
  | span address bytes =>
    have same := carries.bytes
    rw [data] at same
    exact ⟨address, by rw [← same]; rfl⟩

theorem Serialised.Carries.size_of_null (carries : value.Carries piece)
    (null : value.data.isNull = true) : value.data.size = 0 := by
  cases data : value.data with
  | null size =>
    have bytes := carries.bytes
    have length := carries.size
    rw [Serialised.size] at length
    rw [data] at bytes length
    rw [length, ← bytes]
    rfl
  | span address bytes =>
    rw [data] at null
    cases null

theorem Serialised.Carries.range (carries : value.Carries piece)
    (start stop : Nat) (inside : stop ≤ piece.2.length) (child : Serialised)
    (data : child.data = if start < stop then value.data.range start stop else .null 0) :
    child.Carries (child.type, slice piece.2 start stop) := by
  have size := carries.size
  have placed := carries.placed
  have length := length_slice piece.2 start stop inside
  by_cases forward : start < stop
  · rw [if_pos forward] at data
    have whole : piece.2 ≠ [] := by
      intro empty
      rw [empty, List.length_nil] at inside
      omega
    obtain ⟨address, span⟩ := carries.backed whole
    rw [span] at data placed
    simp only [Data.range, Data.address] at data placed
    refine ⟨rfl, by rw [data]; rfl, by rw [Serialised.size, data]; rfl, ?_, ?_⟩
    · rw [Serialised.size, data]
      simp only [Data.address, Data.size, length]
      omega
    · intro zero
      rw [data] at zero
      have null := carries.null
      rw [span] at null
      exact absurd (null (by simp only [Data.address] at zero ⊢; omega)) whole
  · rw [if_neg forward] at data
    have empty : slice piece.2 start stop = [] := List.length_eq_zero_iff.mp (by omega)
    rw [empty]
    refine ⟨rfl, by rw [data]; rfl, by rw [Serialised.size, data]; rfl, ?_, fun _ => rfl⟩
    rw [Serialised.size, data]
    exact Nat.zero_le _

theorem Serialised.Carries.childAt (carries : value.Carries piece)
    (type : VariantType) {start stop : Nat} (inside : stop ≤ piece.2.length) {bytes : Bytes}
    (cut : slice piece.2 start stop = bytes) : (value.childAt type start stop).Carries (type, bytes) := by
  rw [← cut]
  exact carries.range start stop inside (value.childAt type start stop) rfl

theorem singleton_split {α : Type} {only piece : α} {front back : List α} (shape : [only] = front ++ piece :: back) :
    front = [] ∧ only = piece ∧ back = [] := by
  cases front with
  | nil =>
    cases shape
    exact ⟨rfl, rfl, rfl⟩
  | cons first front => simp at shape

/-- What a reader should find in a container. -/
def Serialised.Holds (value : Serialised) (pieces : List Piece) : Prop :=
  xvariantSerialisedNChildren value = some pieces.length ∧
    ∀ front piece back, pieces = front ++ piece :: back →
      ∃ child, gvsGetChild value front.length = some child ∧ child.Carries piece ∧ child.depth = value.depth + 1

/-! ## Maybes -/

section
variable {value : Serialised} {element : VariantType}
variable {piece : Piece}
variable {bytes : Bytes} {pieces : List Piece}

theorem holds_nothing (checked : xvariantSerialisedCheck value = true) (type : value.type = .maybe element)
    (empty : value.size = 0) : value.Holds [] := by
  refine ⟨?_, fun front piece back shape => by simp at shape⟩
  rw [xvariantSerialisedNChildren, if_pos checked, type]
  by_cases fixed : element.fixedSize = 0
  · simp [fixed, gvsVariableSizedMaybeNChildren, empty]
  · simp [fixed, gvsFixedSizedMaybeNChildren, empty]

theorem holds_fixedMaybe (checked : xvariantSerialisedCheck value = true) (type : value.type = .maybe element)
    (fixed : element.fixedSize ≠ 0) (carries : value.Carries (value.type, bytes))
    (sized : bytes.length = element.fixedSize) : value.Holds [(element, bytes)] := by
  have size : value.size = element.fixedSize := carries.size.trans sized
  constructor
  · rw [xvariantSerialisedNChildren, if_pos checked, type]
    simp [fixed, gvsFixedSizedMaybeNChildren, size]
  · intro front piece back shape
    obtain ⟨rfl, rfl, rfl⟩ := singleton_split shape
    refine ⟨gvsFixedSizedMaybeGetChild element value, ?_, ?_, rfl⟩
    · simp [gvsGetChild, type, fixed]
    · exact ⟨rfl, carries.bytes, carries.size, carries.placed, carries.null⟩

theorem holds_variableMaybe (checked : xvariantSerialisedCheck value = true) (type : value.type = .maybe element)
    (varies : element.fixedSize = 0) (carries : value.Carries (value.type, bytes ++ [0])) :
    value.Holds [(element, bytes)] := by
  have size : value.size = bytes.length + 1 := by simpa using carries.size
  constructor
  · rw [xvariantSerialisedNChildren, if_pos checked, type]
    simp [varies, gvsVariableSizedMaybeNChildren, size]
  · intro front piece back shape
    obtain ⟨rfl, rfl, rfl⟩ := singleton_split shape
    refine ⟨gvsVariableSizedMaybeGetChild element value, ?_, ?_, rfl⟩
    · simp [gvsGetChild, type, varies]
    · have part := carries.range 0 bytes.length (by simp) (gvsVariableSizedMaybeGetChild element value)
        (by
          simp only [gvsVariableSizedMaybeGetChild, size, Nat.add_sub_cancel]
          by_cases empty : bytes.length = 0
          · simp [empty]
          · rw [if_neg empty, if_pos (Nat.pos_of_ne_zero empty)])
      have whole := slice_append_left bytes [0] 0 bytes.length (Nat.le_refl _)
      rw [slice_all] at whole
      rw [whole] at part
      exact part

/-! ## Arrays -/

theorem slice_flatMap {front back : List Piece} {piece : Piece} {size : Nat}
    (alike : ∀ other ∈ front ++ piece :: back, other.2.length = size) :
    slice ((front ++ piece :: back).flatMap Prod.snd) (size * front.length) (size * front.length + size) = piece.2 := by
  have before : (front.flatMap Prod.snd).length = size * front.length := by
    have each : ∀ other ∈ front, other.2.length = size := fun other member => alike other (List.mem_append_left _ member)
    clear alike
    induction front with
    | nil => rfl
    | cons first front ih =>
      rw [List.flatMap_cons, List.length_append, each first List.mem_cons_self,
        ih fun other member => each other (List.mem_cons_of_mem _ member), List.length_cons, Nat.mul_succ, Nat.add_comm]
  have own := alike piece (List.mem_append_right _ List.mem_cons_self)
  rw [List.flatMap_append, List.flatMap_cons, ← before, ← own]
  exact slice_middle _ _ _

theorem fixedArray_child (fixed : element.fixedSize ≠ 0) {front back : List Piece}
    (carries : value.Carries (value.type, pieces.flatMap Prod.snd))
    (alike : ∀ piece ∈ pieces, piece.1 = element ∧ piece.2.length = element.fixedSize)
    (shape : pieces = front ++ piece :: back) :
    (gvsFixedSizedArrayGetChild element value front.length).Carries piece := by
  have length := length_flatMap_fixed alike
  have inside : element.fixedSize * front.length + element.fixedSize ≤ (pieces.flatMap Prod.snd).length := by
    rw [length, ← Nat.mul_succ, shape]
    exact Nat.mul_le_mul_left _ (by simp)
  have part := carries.range (element.fixedSize * front.length) _ inside
    (gvsFixedSizedArrayGetChild element value front.length) (by rw [if_pos (by omega)]; rfl)
  have block := @slice_flatMap front back piece element.fixedSize
    (fun other member => (alike other (shape ▸ member)).2)
  rw [← shape] at block
  simp only [block] at part
  have form : piece = (element, piece.2) := by rw [← (alike piece (by simp [shape])).1]
  rw [form]
  exact part

theorem holds_fixedArray (checked : xvariantSerialisedCheck value = true) (type : value.type = .array element)
    (fixed : element.fixedSize ≠ 0)
    (carries : value.Carries (value.type, pieces.flatMap Prod.snd))
    (alike : ∀ piece ∈ pieces, piece.1 = element ∧ piece.2.length = element.fixedSize) : value.Holds pieces := by
  have size : value.size = element.fixedSize * pieces.length := carries.size.trans (length_flatMap_fixed alike)
  constructor
  · rw [xvariantSerialisedNChildren, if_pos checked, type]
    simp only [if_pos fixed, gvsFixedSizedArrayNChildren, size, Nat.mul_mod_right, if_true,
      Nat.mul_div_cancel_left _ (Nat.pos_of_ne_zero fixed)]
  · intro front piece back shape
    refine ⟨gvsFixedSizedArrayGetChild element value front.length, ?_, fixedArray_child fixed carries alike shape, rfl⟩
    simp [gvsGetChild, type, fixed]

structure ArrayTable (bytes : Bytes) (pieces : List Piece) : Prop where
  fits : bytes.length < wordSize
  nonempty : bytes ≠ []
  some_piece : pieces ≠ []
  form : bytes = layout 0 (pieces.map Piece.part) ++
    table (gvsGetOffsetSize bytes.length) (layoutEnds 0 (pieces.map Piece.part))

namespace ArrayTable
variable {bytes : Bytes} {pieces : List Piece}
variable {front back : List Piece} {piece : Piece}

theorem length (h : ArrayTable bytes pieces) :
    bytes.length = layoutEnd 0 (pieces.map Piece.part) + gvsGetOffsetSize bytes.length * pieces.length := by
  have total := congrArg List.length h.form
  have body := length_layout 0 (pieces.map Piece.part)
  rw [List.length_append, length_table, length_layoutEnds, List.length_map] at total
  omega

theorem width (h : ArrayTable bytes pieces) : 0 < gvsGetOffsetSize bytes.length :=
  gvsGetOffsetSize_pos fun zero => h.nonempty (List.length_eq_zero_iff.mp zero)

theorem entry (h : ArrayTable bytes pieces)
    (shape : pieces = front ++ piece :: back) {start : Nat}
    (place : start = layoutEnd 0 (pieces.map Piece.part) + gvsGetOffsetSize bytes.length * front.length) :
    leValue (slice bytes start (start + gvsGetOffsetSize bytes.length)) =
      piece.part.stop (layoutEnd 0 (front.map Piece.part)) := by
  have total := h.length
  have body := length_layout 0 (pieces.map Piece.part)
  have range := size_lt_offsetRange h.fits
  have split : layoutEnds 0 (pieces.map Piece.part) = layoutEnds 0 (front.map Piece.part) ++
      piece.part.stop (layoutEnd 0 (front.map Piece.part)) ::
        layoutEnds (piece.part.stop (layoutEnd 0 (front.map Piece.part))) (back.map Piece.part) := by
    rw [shape, List.map_append, List.map_cons, layoutEnds_append]
    rfl
  have later := stop_le_pieces shape
  have found := slice_table (layout 0 (pieces.map Piece.part)) (gvsGetOffsetSize bytes.length)
    (layoutEnds 0 (front.map Piece.part)) (piece.part.stop (layoutEnd 0 (front.map Piece.part)))
    (layoutEnds (piece.part.stop (layoutEnd 0 (front.map Piece.part))) (back.map Piece.part)) start
    (by rw [length_layoutEnds, List.length_map]; omega)
  rw [← split, ← h.form] at found
  rw [found, leValue_leBytes _ _ (by omega)]

theorem lastEnd (h : ArrayTable bytes pieces) : arrayLastEnd bytes = layoutEnd 0 (pieces.map Piece.part) := by
  obtain ⟨init, final, shape⟩ := List.eq_nil_or_concat' pieces |>.resolve_left h.some_piece
  have total := h.length
  have count : pieces.length = init.length + 1 := by simp [shape]
  rw [count, Nat.mul_succ] at total
  rw [arrayLastEnd, h.entry shape (by omega), shape, List.map_append, layoutEnd_append]
  rfl

theorem arrayLength (h : ArrayTable bytes pieces) : arrayLength bytes = pieces.length := by
  have total := h.length
  have rest : bytes.length - arrayLastEnd bytes = gvsGetOffsetSize bytes.length * pieces.length := by
    rw [h.lastEnd]
    omega
  rw [Variant.arrayLength, if_neg (by rw [h.lastEnd]; omega), rest, if_neg (by simp),
    Nat.mul_div_cancel_left _ h.width]

theorem arrayEntry (h : ArrayTable bytes pieces)
    (shape : pieces = front ++ piece :: back) :
    arrayEntry bytes front.length = piece.part.stop (layoutEnd 0 (front.map Piece.part)) :=
  h.entry shape (by rw [h.lastEnd])

theorem stop_le (h : ArrayTable bytes pieces)
    (shape : pieces = front ++ piece :: back) :
    piece.part.stop (layoutEnd 0 (front.map Piece.part)) ≤ arrayLastEnd bytes := by
  rw [h.lastEnd]
  exact stop_le_pieces shape

theorem arrayStart (h : ArrayTable bytes pieces)
    (shape : pieces = front ++ piece :: back) :
    arrayStart piece.1.alignment bytes front.length =
      roundUp (layoutEnd 0 (front.map Piece.part)) piece.1.alignment := by
  have total := h.length
  have later := h.stop_le shape
  have before : roundUp (layoutEnd 0 (front.map Piece.part)) piece.1.alignment ≤
      piece.part.stop (layoutEnd 0 (front.map Piece.part)) := Nat.le_add_right _ _
  have fits := h.fits
  rw [h.lastEnd] at later
  rcases List.eq_nil_or_concat' front with rfl | ⟨init, previous, rfl⟩
  · simp [Variant.arrayStart, roundUp_of_dvd]
  · -- The entry before is the end of the pieces before.
    have earlier : pieces = init ++ previous :: piece :: back := by rw [shape]; simp
    have ends : layoutEnd 0 ((init ++ [previous]).map Piece.part) =
        previous.part.stop (layoutEnd 0 (init.map Piece.part)) := by
      rw [List.map_append, layoutEnd_append]
      rfl
    rw [Variant.arrayStart, if_pos (by simp), List.length_append, List.length_singleton, Nat.add_sub_cancel,
      h.arrayEntry earlier, ← ends, alignUp_eq_roundUp piece.1.alignment_isAlignment.isMask,
      Nat.mod_eq_of_lt (by omega)]

theorem getChild (h : ArrayTable bytes pieces) (carries : value.Carries (value.type, bytes))
    (type : value.type = .array element) (varies : element.fixedSize = 0)
    (shape : pieces = front ++ piece :: back) (same : piece.1 = element) :
    gvsGetChild value front.length = some (value.childAt piece.1
      (roundUp (layoutEnd 0 (front.map Piece.part)) piece.1.alignment)
      (piece.part.stop (layoutEnd 0 (front.map Piece.part)))) := by
  have total := h.length
  obtain ⟨address, span⟩ := carries.backed h.nonempty
  have inside := h.stop_le shape
  have last := h.lastEnd
  have bound : front.length < Variant.arrayLength bytes := by
    rw [h.arrayLength, shape]
    simp
  have found := @variableArray_getChild element value address bytes span front.length bound
  rw [← same, h.arrayStart shape, h.arrayEntry shape] at found
  have range : (piece.part.stop (layoutEnd 0 (front.map Piece.part)) ≤ bytes.length ∧
      piece.part.stop (layoutEnd 0 (front.map Piece.part)) ≤ arrayLastEnd bytes) = True := by
    exact eq_true ⟨by omega, inside⟩
  simp only [range, and_true] at found
  simp only [gvsGetChild, type, varies, ne_eq, not_true_eq_false, if_false]
  rw [← same]
  exact found

end ArrayTable

theorem holds_variableArray (checked : xvariantSerialisedCheck value = true) (type : value.type = .array element)
    (varies : element.fixedSize = 0)
    (carries : value.Carries (value.type, bytes)) (fits : bytes.length < wordSize)
    (form : bytes = layout 0 (pieces.map Piece.part) ++
      table (gvsGetOffsetSize bytes.length) (layoutEnds 0 (pieces.map Piece.part)))
    (counted : pieces ≠ [] → bytes ≠ []) (alike : ∀ piece ∈ pieces, piece.1 = element) : value.Holds pieces := by
  have dispatch : xvariantSerialisedNChildren value = gvsVariableSizedArrayNChildren value := by
    rw [xvariantSerialisedNChildren, if_pos checked, type]
    simp [varies]
  by_cases some_piece : pieces = []
  · subst some_piece
    have empty : bytes = [] := by simpa [layout, layoutEnds, table] using form
    have size : value.size = 0 := by rw [carries.size, empty]; rfl
    refine ⟨?_, fun front piece back shape => by simp at shape⟩
    rw [dispatch, gvsVariableSizedArrayNChildren, if_pos size]
    rfl
  · have table : ArrayTable bytes pieces := ⟨fits, counted some_piece, some_piece, form⟩
    have total := table.length
    obtain ⟨address, span⟩ := carries.backed table.nonempty
    refine ⟨by rw [dispatch, variableArray_nChildren span table.nonempty, table.arrayLength], ?_⟩
    intro front piece back shape
    have inside := table.stop_le shape
    have last := table.lastEnd
    have cut := slice_layout (front.map Piece.part) piece.part (back.map Piece.part)
      (Library.table (gvsGetOffsetSize bytes.length) (layoutEnds 0 (pieces.map Piece.part)))
    rw [← List.map_cons, ← List.map_append, ← shape, ← form] at cut
    exact ⟨value.childAt piece.1 _ _, table.getChild carries type varies shape (alike piece (by simp [shape])),
      carries.childAt piece.1 (by simp only; omega) cut, rfl⟩

/-! ## Variants -/

theorem findNul_last (address : Nat) (front back : Bytes) (plain : back.any (· = 0) = false) (count : Nat)
    (bound : count ≤ back.length) :
    findNul (.span address (front ++ 0 :: back)) (front.length + count) = some front.length := by
  induction count with
  | zero =>
    cases length : front.length with
    | zero => rfl
    | succ position =>
      have byte : Data.byte (.span address (front ++ 0 :: back)) (position + 1) = some 0 := by
        rw [Data.byte, ← length, List.getElem?_append_right (Nat.le_refl _), Nat.sub_self]
        rfl
      simp [findNul, byte]
  | succ count ih =>
    have inside : count < back.length := by omega
    have byte : Data.byte (.span address (front ++ 0 :: back)) (front.length + count + 1) = some back[count] := by
      have place : front.length + count + 1 - front.length = count + 1 := by omega
      rw [Data.byte, List.getElem?_append_right (by omega), place, List.getElem?_cons_succ,
        List.getElem?_eq_getElem inside]
    have nonzero : back[count] ≠ 0 := by
      simpa using List.any_eq_false.mp plain back[count] (List.getElem_mem inside)
    rw [← Nat.add_assoc, findNul, byte]
    simp only [some_bind, if_neg nonzero]
    exact ih (by omega)

theorem gvsVariantGetChild_eq (carries : value.Carries (value.type, piece.2 ++ 0 :: piece.1.string))
    (readable : piece.1.Readable value.depth)
    (sized : piece.1.fixedSize ≠ 0 → piece.2.length = piece.1.fixedSize) :
    gvsVariantGetChild value = some (value.childAt piece.1 0 piece.2.length) := by
  obtain ⟨address, span⟩ := carries.backed (by simp)
  have size : value.size = piece.2.length + piece.1.string.length + 1 := by
    rw [carries.size]
    simp only [List.length_append, List.length_cons]
    omega
  have found := findNul_last address piece.2 piece.1.string (TypeExpr.string_any_zero _) _ (Nat.le_refl _)
  have byte : Data.byte (.span address (piece.2 ++ 0 :: piece.1.string)) piece.2.length = some 0 := by
    rw [Data.byte, List.getElem?_append_right (Nat.le_refl _), Nat.sub_self]
    rfl
  have string : slice (piece.2 ++ 0 :: piece.1.string) (piece.2.length + 1)
      (piece.2.length + piece.1.string.length + 1) = piece.1.string := by
    have whole := slice_middle (piece.2 ++ [0]) piece.1.string []
    simp only [List.append_nil, List.append_assoc, List.singleton_append, List.length_append,
      List.length_singleton] at whole
    rw [Nat.add_right_comm]
    exact whole
  have valid : xvariantTypeStringIsValid piece.1.string = true :=
    (xvariantTypeStringIsValid_iff _).mpr ⟨_, rfl, readable.1⟩
  have definite : xvariantTypeIsDefinite piece.1.string = true :=
    (xvariantTypeIsDefinite_string _).mpr ⟨_, rfl⟩
  have fitting : piece.1.fixedSize = 0 ∨ piece.1.fixedSize = piece.2.length := by
    by_cases fixed : piece.1.fixedSize = 0
    · exact Or.inl fixed
    · exact Or.inr (sized fixed).symm
  rw [gvsVariantGetChild, if_neg (by omega), size, Nat.add_sub_cancel, Serialised.childAt, span, found]
  simp only [some_bind, byte, ne_eq, not_true_eq_false, if_false, Data.range, Data.bytes,
    string, valid, definite, Bool.and_self, if_true, VariantType.ofString_string, fitting, readable.2, and_self]
  by_cases empty : piece.2.length = 0
  · simp [empty]
  · simp [empty, Nat.pos_of_ne_zero empty]

theorem variant_childAt (carries : value.Carries (value.type, piece.2 ++ 0 :: piece.1.string)) :
    (value.childAt piece.1 0 piece.2.length).Carries piece := by
  have cut := slice_append_left piece.2 (0 :: piece.1.string) 0 piece.2.length (Nat.le_refl _)
  rw [slice_all] at cut
  exact carries.childAt piece.1 (by simp) cut

theorem holds_variant (checked : xvariantSerialisedCheck value = true) (type : value.type = .variant)
    (carries : value.Carries (value.type, piece.2 ++ 0 :: piece.1.string)) (readable : piece.1.Readable value.depth)
    (sized : piece.1.fixedSize ≠ 0 → piece.2.length = piece.1.fixedSize) : value.Holds [piece] := by
  constructor
  · rw [xvariantSerialisedNChildren, if_pos checked, type]
    rfl
  · intro front first back shape
    obtain ⟨rfl, rfl, rfl⟩ := singleton_split shape
    refine ⟨value.childAt piece.1 0 piece.2.length, ?_, variant_childAt carries, rfl⟩
    rw [gvsGetChild, type]
    exact gvsVariantGetChild_eq carries readable sized

end

/-! ## Tuples -/

def variableEnds (offset : Nat) : List Piece → List Nat
  | [] => []
  | piece :: pieces =>
    if piece.1.fixedSize = 0 then piece.part.stop offset :: variableEnds (piece.part.stop offset) pieces
    else variableEnds (piece.part.stop offset) pieces

theorem storedEnds_append (offset : Nat) (front : List Piece) (piece : Piece) (back : List Piece) :
    storedEnds offset (front ++ piece :: back) =
      variableEnds offset front ++ storedEnds (layoutEnd offset (front.map Piece.part)) (piece :: back) := by
  induction front generalizing offset with
  | nil => rfl
  | cons first front ih =>
    have more : front ++ piece :: back ≠ [] := by simp
    rw [List.cons_append, storedEnds, variableEnds, List.map_cons, layoutEnd_cons]
    simp only [ih, more, ne_eq, not_false_eq_true, and_true]
    split <;> rfl

theorem length_variableEnds (offset : Nat) (pieces : List Piece) :
    (variableEnds offset pieces).length = variableCount (pieces.map Prod.fst) := by
  induction pieces generalizing offset with
  | nil => rfl
  | cons piece pieces ih =>
    rw [variableEnds, List.map_cons, variableCount, List.countP_cons]
    by_cases varies : piece.1.fixedSize = 0
    · simp [varies, ih, variableCount]
    · simp [varies, ih, variableCount]

structure TupleTable (value : Serialised) (pieces : List Piece) : Prop where
  tuple : value.type.isTuple = true
  items : pieces.map Prod.fst = value.type.items
  sized : Sized pieces
  fits : value.size < wordSize
  carries : value.Carries (value.type,
    tupleFields value.type pieces ++ table (gvsGetOffsetSize value.size) (storedEnds 0 pieces).reverse)

namespace TupleTable
variable {value : Serialised} {pieces : List Piece}
variable {front back : List Piece} {piece : Piece}

theorem size (h : TupleTable value pieces) :
    value.size = (tupleFields value.type pieces).length +
      gvsGetOffsetSize value.size * (storedEnds 0 pieces).length := by
  have total := h.carries.size
  simp only [List.length_append, length_table, List.length_reverse] at total
  exact total

theorem room (h : TupleTable value pieces)
    (shape : pieces = front ++ piece :: back) :
    gvsGetOffsetSize value.size * variableCount (front.map Prod.fst) ≤ value.size := by
  have total := h.size
  have count : variableCount (front.map Prod.fst) ≤ (storedEnds 0 pieces).length := by
    rw [shape, storedEnds_append, List.length_append, length_variableEnds]
    exact Nat.le_add_right _ _
  have below := Nat.mul_le_mul_left (gvsGetOffsetSize value.size) count
  omega

theorem offset (h : TupleTable value pieces)
    (shape : pieces = front ++ piece :: back) (varies : piece.1.fixedSize = 0) (more : back ≠ []) :
    gvsTupleOffset value (variableCount (front.map Prod.fst) + 1) =
        some (piece.part.stop (layoutEnd 0 (front.map Piece.part))) ∧
      gvsGetOffsetSize value.size * (variableCount (front.map Prod.fst) + 1) ≤ value.size := by
  have total := h.size
  have body := layoutEnd_le_tupleFields value.type pieces
  have later := stop_le_pieces shape
  have ends : storedEnds 0 pieces = variableEnds 0 (front) ++
      piece.part.stop (layoutEnd 0 (front.map Piece.part)) ::
        storedEnds (piece.part.stop (layoutEnd 0 (front.map Piece.part))) back := by
    rw [shape, storedEnds_append, storedEnds]
    simp only [varies, more, ne_eq, not_false_eq_true, and_self, if_true]
  have count : (storedEnds 0 pieces).length = variableCount (front.map Prod.fst) + 1 +
      (storedEnds (piece.part.stop (layoutEnd 0 (front.map Piece.part))) back).length := by
    rw [ends, List.length_append, length_variableEnds, List.length_cons]
    omega
  rw [count, Nat.mul_add] at total
  refine ⟨?_, by omega⟩
  rw [gvsTupleOffset]
  cases data : value.data with
  | null size =>
    -- Without data every item is empty.
    have empty := h.carries.size_of_null (by rw [data]; rfl)
    have none_size : value.size = 0 := empty
    have zero : piece.part.stop (layoutEnd 0 (front.map Piece.part)) = 0 := by omega
    rw [gvsReadUnalignedLe, none_size, Nat.zero_sub, if_pos rfl, zero]
  | span address bytes =>
    have form := h.carries.bytes
    rw [data] at form
    simp only [Data.bytes] at form
    have length : bytes.length = value.size := by rw [Serialised.size, data]; rfl
    have range := size_lt_offsetRange h.fits
    have found := slice_table (tupleFields value.type pieces) (gvsGetOffsetSize value.size)
      (storedEnds (piece.part.stop (layoutEnd 0 (front.map Piece.part))) back).reverse
      (piece.part.stop (layoutEnd 0 (front.map Piece.part))) (variableEnds 0 front).reverse
      (value.size - gvsGetOffsetSize value.size * (variableCount (front.map Prod.fst) + 1))
      (by rw [List.length_reverse]; omega)
    have order : (storedEnds 0 pieces).reverse =
        (storedEnds (piece.part.stop (layoutEnd 0 (front.map Piece.part))) back).reverse ++
          piece.part.stop (layoutEnd 0 (front.map Piece.part)) :: (variableEnds 0 front).reverse := by
      rw [ends]
      simp
    rw [← order, ← form] at found
    have one := Nat.le_mul_of_pos_right (gvsGetOffsetSize value.size)
      (by omega : 0 < variableCount (front.map Prod.fst) + 1)
    rw [gvsReadUnalignedLe_span address (by omega), found, leValue_leBytes _ _ (by omega)]

/-- The stored ends lead to the layout of the items. -/
theorem position (h : TupleTable value pieces) (shape : pieces = front ++ back)
    (more : back ≠ []) :
    (tuplePosition value (front.map Prod.fst)).1 = layoutEnd 0 (front.map Piece.part) := by
  induction front using List.reverseRecOn generalizing back with
  | nil => rfl
  | append_singleton front piece ih =>
    have split : pieces = front ++ piece :: back := by rw [shape]; simp
    rw [List.map_append, List.map_singleton, tuplePosition_append, List.map_append, layoutEnd_append, tupleStep,
      tuplePosition_count, ih split (List.cons_ne_nil _ _)]
    by_cases varies : piece.1.fixedSize = 0
    · rw [if_neg (not_not.mpr varies), (h.offset split varies more).1]
      rfl
    · have size := h.sized piece (by simp [split]) varies
      rw [if_pos varies, ← size]
      rfl

/-- The place of an item, from its constants. -/
theorem start (h : TupleTable value pieces)
    (shape : pieces = front ++ piece :: back) (after : List VariantType) :
    ∃ prevEnd, gvsTuplePrevEnd value (memberAt (front.map Prod.fst) piece.1 after) = some prevEnd ∧
      (memberAt (front.map Prod.fst) piece.1 after).start prevEnd =
        roundUp (layoutEnd 0 (front.map Piece.part)) piece.1.alignment := by
  obtain ⟨prevEnd, tracks, read⟩ := tracks_tuplePosition h.carries.size_of_null (front.map Prod.fst) (h.room shape)
  refine ⟨prevEnd, by rw [gvsTuplePrevEnd_eq, read], ?_⟩
  rw [h.position shape (List.cons_ne_nil _ _)] at tracks
  have total := h.size
  have fits := h.fits
  have body := layoutEnd_le_tupleFields value.type pieces
  have later := stop_le_pieces shape
  have before : roundUp (layoutEnd 0 (front.map Piece.part)) piece.1.alignment ≤
      piece.part.stop (layoutEnd 0 (front.map Piece.part)) := Nat.le_add_right _ _
  rw [memberAt, (tracks.align piece.1.alignment_isAlignment).start]
  unfold wordSize at fits
  omega

/-- The three ways to find the end of an item agree with the layout. -/
theorem stop (h : TupleTable value pieces) {front back : List Piece} {piece : Piece}
    (shape : pieces = front ++ piece :: back) :
    gvsTupleEnd value (memberAt (front.map Prod.fst) piece.1 (back.map Prod.fst))
        (roundUp (layoutEnd 0 (front.map Piece.part)) piece.1.alignment) =
      some (piece.part.stop (layoutEnd 0 (front.map Piece.part))) := by
  have total := h.size
  have fits := h.fits
  have body := layoutEnd_le_tupleFields value.type pieces
  have later := stop_le_pieces shape
  have index := memberAt_i (front.map Prod.fst) (back.map Prod.fst) piece.1
  rw [gvsTupleEnd, memberAt_ending]
  by_cases varies : piece.1.fixedSize = 0
  · rw [if_neg (not_not.mpr varies)]
    by_cases more : back = []
    · -- The last item ends where the table starts.
      subst more
      have none_fixed : value.type.fixedSize = 0 := by
        by_contra fixed
        have among : piece.1 ∈ value.type.items := by
          rw [← h.items, shape]
          simp
        exact VariantType.item_fixed h.tuple fixed among varies
      have fields : (tupleFields value.type pieces).length = layoutEnd 0 (pieces.map Piece.part) := by
        have length := length_layout 0 (pieces.map Piece.part)
        simp only [tupleFields, none_fixed, Nat.zero_sub, List.length_append, length_zeros]
        omega
      have count : ((memberAt (front.map Prod.fst) piece.1 []).i + 1).toNat = (storedEnds 0 pieces).length := by
        rw [shape, length_storedEnds]
        simp only [List.map_nil] at index
        omega
      have ends : layoutEnd 0 (pieces.map Piece.part) = piece.part.stop (layoutEnd 0 (front.map Piece.part)) := by
        rw [shape, List.map_append, layoutEnd_append]
        rfl
      simp only [List.map_nil, List.isEmpty_nil, if_true, count]
      congr 1
      omega
    · have nonempty : (back.map Prod.fst).isEmpty = false := by simpa using more
      have next : ((memberAt (front.map Prod.fst) piece.1 (back.map Prod.fst)).i + 2).toNat =
          variableCount (front.map Prod.fst) + 1 := by omega
      simp only [nonempty, Bool.false_eq_true, if_false, next]
      exact (h.offset shape varies more).1
  · have size := h.sized piece (by simp [shape]) varies
    have ends : roundUp (layoutEnd 0 (front.map Piece.part)) piece.1.alignment + piece.1.fixedSize =
        piece.part.stop (layoutEnd 0 (front.map Piece.part)) := by
      rw [← size]
      rfl
    simp only [if_pos varies, memberAt_typeInfo]
    change some ((_ + piece.1.fixedSize) % wordSize) = _
    rw [ends, Nat.mod_eq_of_lt (by omega)]

theorem child (h : TupleTable value pieces) {front back : List Piece} {piece : Piece}
    (shape : pieces = front ++ piece :: back) (lastEnd : Nat → Option Nat) {bound : Nat}
    (last : lastEnd (piece.part.stop (layoutEnd 0 (front.map Piece.part))) = some bound)
    (inside : piece.part.stop (layoutEnd 0 (front.map Piece.part)) ≤ bound) :
    gvsTupleChild value (memberAt (front.map Prod.fst) piece.1 (back.map Prod.fst)) lastEnd =
      some (value.childAt piece.1 (roundUp (layoutEnd 0 (front.map Piece.part)) piece.1.alignment)
        (piece.part.stop (layoutEnd 0 (front.map Piece.part)))) := by
  have total := h.size
  have body := layoutEnd_le_tupleFields value.type pieces
  have later := stop_le_pieces shape
  have room := h.room shape
  have index := memberAt_i (front.map Prod.fst) (back.map Prod.fst) piece.1
  obtain ⟨prevEnd, read, start⟩ := h.start shape (back.map Prod.fst)
  have stop := h.stop shape
  have present : ¬(value.data.isNull = true ∧ value.size ≠ 0) := fun ⟨null, nonempty⟩ =>
    nonempty (h.carries.size_of_null null)
  have offsets : ¬((memberAt (front.map Prod.fst) piece.1 (back.map Prod.fst)).ending = .offset ∧
      gvsGetOffsetSize value.size *
        ((memberAt (front.map Prod.fst) piece.1 (back.map Prod.fst)).i + 2).toNat > value.size) := by
    rintro ⟨ending, exceeds⟩
    have next : ((memberAt (front.map Prod.fst) piece.1 (back.map Prod.fst)).i + 2).toNat =
        variableCount (front.map Prod.fst) + 1 := by omega
    rw [memberAt_ending] at ending
    have varies : piece.1.fixedSize = 0 := by
      by_contra fixed
      rw [if_pos fixed] at ending
      cases ending
    have more : back ≠ [] := by
      rintro rfl
      rw [if_neg (not_not.mpr varies)] at ending
      cases ending
    rw [next] at exceeds
    have enough := (h.offset shape varies more).2
    omega
  have count : ((memberAt (front.map Prod.fst) piece.1 (back.map Prod.fst)).i + 1).toNat =
      variableCount (front.map Prod.fst) := by omega
  have others : ¬((memberAt (front.map Prod.fst) piece.1 (back.map Prod.fst)).ending ≠ .offset ∧
      gvsGetOffsetSize value.size *
        ((memberAt (front.map Prod.fst) piece.1 (back.map Prod.fst)).i + 1).toNat > value.size) := by
    rw [count]
    omega
  rw [gvsTupleChild, if_neg present, if_neg offsets, if_neg others, read, Serialised.childAt]
  simp only [some_bind, start, stop, last, memberAt_type]
  by_cases forward : roundUp (layoutEnd 0 (front.map Piece.part)) piece.1.alignment <
      piece.part.stop (layoutEnd 0 (front.map Piece.part))
  · rw [if_pos ⟨forward, by omega, inside⟩, if_pos forward]
    rfl
  · -- A fixed-sized item is not empty.
    have varies : piece.1.fixedSize = 0 := by
      by_contra fixed
      have size := h.sized piece (by simp [shape]) fixed
      have ends : piece.part.stop (layoutEnd 0 (front.map Piece.part)) =
          roundUp (layoutEnd 0 (front.map Piece.part)) piece.1.alignment + piece.2.length := rfl
      omega
    have ending : (memberAt (front.map Prod.fst) piece.1 (back.map Prod.fst)).ending ≠ .fixed := fun fixed =>
      memberAt_ending_fixed.mp fixed varies
    rw [if_neg fun all => forward all.1, if_neg forward, if_neg ending]
    rfl

theorem items_split (h : TupleTable value pieces)
    (shape : pieces = front ++ piece :: back) :
    value.type.items = front.map Prod.fst ++ piece.1 :: back.map Prod.fst := by
  rw [← h.items, shape, List.map_append, List.map_cons]

theorem lastChild (h : TupleTable value pieces) (some_piece : pieces ≠ []) :
    ∃ last, gvsTupleLastChild value = some last ∧
      layoutEnd 0 (pieces.map Piece.part) ≤
        (last.data.address + last.size + (wordSize - value.data.address)) % wordSize := by
  obtain ⟨front, final, shape⟩ := List.eq_nil_or_concat' pieces |>.resolve_left some_piece
  have total := h.size
  have fits := h.fits
  have body := layoutEnd_le_tupleFields value.type pieces
  have placed := h.carries.placed
  have ends : layoutEnd 0 (pieces.map Piece.part) = final.part.stop (layoutEnd 0 (front.map Piece.part)) := by
    rw [shape, List.map_append, layoutEnd_append]
    rfl
  have found := h.child shape some rfl (Nat.le_refl _)
  have member : value.type.members.getLast? = some (memberAt (front.map Prod.fst) final.1 []) := by
    rw [List.getLast?_eq_getElem?, length_members, h.items_split shape]
    have entry := members_getElem? (h.items_split shape)
    simpa using entry
  refine ⟨_, by rw [gvsTupleLastChild, member]; exact found, ?_⟩
  rw [ends] at body ⊢
  by_cases forward : roundUp (layoutEnd 0 (front.map Piece.part)) final.1.alignment <
      final.part.stop (layoutEnd 0 (front.map Piece.part))
  · simp only [Serialised.childAt, Serialised.size, if_pos forward]
    have backed : value.data.isNull = false := by
      by_contra null
      have empty : value.size = 0 := h.carries.size_of_null (by simpa using null)
      omega
    rw [Data.address_range backed, Data.size_range (by change _ ≤ value.size; omega)]
    have wraps : value.data.address + roundUp (layoutEnd 0 (front.map Piece.part)) final.1.alignment +
        (final.part.stop (layoutEnd 0 (front.map Piece.part)) -
          roundUp (layoutEnd 0 (front.map Piece.part)) final.1.alignment) + (wordSize - value.data.address) =
        final.part.stop (layoutEnd 0 (front.map Piece.part)) + wordSize := by omega
    rw [wraps, Nat.add_mod_right, Nat.mod_eq_of_lt (by omega)]
  · simp only [Serialised.childAt, Serialised.size, if_neg forward]
    change _ ≤ (0 + 0 + (wordSize - value.data.address)) % wordSize
    by_cases zero : value.data.address = 0
    · have none_bytes := congrArg List.length (h.carries.null zero)
      have size := h.carries.size
      simp only [List.length_nil] at none_bytes size
      omega
    · rw [Nat.zero_add, Nat.mod_eq_of_lt (by omega)]
      omega

theorem getChild (h : TupleTable value pieces)
    (shape : pieces = front ++ piece :: back) :
    gvsGetChild value front.length = some (value.childAt piece.1
      (roundUp (layoutEnd 0 (front.map Piece.part)) piece.1.alignment)
      (piece.part.stop (layoutEnd 0 (front.map Piece.part)))) := by
  have tuple := h.tuple
  have dispatch : gvsGetChild value front.length = gvsTupleGetChild value front.length := by
    rw [gvsGetChild]
    cases type : value.type <;> rw [type] at tuple
    all_goals first | rfl | cases tuple
  have entry := members_getElem? (h.items_split shape)
  rw [List.length_map] at entry
  obtain ⟨last, final, bound⟩ := h.lastChild (by simp [shape])
  have later := stop_le_pieces shape
  rw [dispatch, gvsTupleGetChild, entry]
  split
  · apply h.child shape
    · rw [final]
      rfl
    · exact Nat.le_trans later bound
  · exact h.child shape some rfl (Nat.le_refl _)

theorem holds (h : TupleTable value pieces) (checked : xvariantSerialisedCheck value = true) :
    value.Holds pieces := by
  have count : value.type.members.length = pieces.length := by
    rw [length_members, ← h.items, List.length_map]
  have tuple := h.tuple
  constructor
  · have dispatch : xvariantSerialisedNChildren value = some (gvsTupleNChildren value) := by
      rw [xvariantSerialisedNChildren, if_pos checked]
      cases type : value.type <;> rw [type] at tuple
      all_goals first | rfl | cases tuple
    rw [dispatch, gvsTupleNChildren, count]
  · intro front piece back shape
    have later := stop_le_pieces shape
    have total := h.size
    have body := layoutEnd_le_tupleFields value.type pieces
    have size := h.carries.size
    simp only at size
    have cut := slice_layout (front.map Piece.part) piece.part (back.map Piece.part)
      (zeros (value.type.fixedSize - (layout 0 (pieces.map Piece.part)).length) ++
        table (gvsGetOffsetSize value.size) (storedEnds 0 pieces).reverse)
    rw [← List.map_cons, ← List.map_append, ← shape, ← List.append_assoc] at cut
    exact ⟨value.childAt piece.1 _ _, h.getChild shape, h.carries.childAt piece.1 (by simp only; omega) cut, rfl⟩

end TupleTable

/-! ## Containers -/

/-- The reader finds the pieces of a container. -/
theorem Assembled.holds {pieces : List Piece} {bytes : Bytes}
    (assembled : Assembled value.depth value.type pieces bytes) (checked : xvariantSerialisedCheck value = true)
    (carries : value.Carries (value.type, bytes)) : value.Holds pieces := by
  obtain ⟨admitted, sized, readable, fits, counted, form⟩ := assembled
  have size : value.size = bytes.length := carries.size
  cases tuple : value.type.isTuple with
  | true =>
    rw [assemble_tuple tuple, ← size] at form
    have table : TupleTable value pieces :=
      ⟨tuple, (VariantType.admits_tuple tuple).mp admitted, sized, by omega, form ▸ carries⟩
    exact table.holds checked
  | false =>
    cases type : value.type with
    | basic b =>
      rw [type] at admitted
      cases admitted
    | variant =>
      rw [type] at admitted form
      simp only [VariantType.admits, List.length_map, decide_eq_true_eq] at admitted
      obtain ⟨piece, rfl⟩ := List.length_eq_one_iff.mp admitted
      have single : bytes = piece.2 ++ 0 :: piece.1.string := by simpa [assemble] using form
      exact holds_variant checked type (single ▸ carries) (readable type piece List.mem_cons_self)
        (sized piece List.mem_cons_self)
    | maybe element =>
      rw [type] at admitted form
      simp only [VariantType.admits, Bool.or_eq_true, decide_eq_true_eq, List.map_eq_nil_iff] at admitted
      rcases admitted with rfl | one
      · have empty : bytes = [] := form
        exact holds_nothing checked type (by rw [size, empty]; rfl)
      · obtain ⟨piece, rest, rfl, rfl, none_rest⟩ := List.map_eq_cons_iff.mp one
        rw [List.map_eq_nil_iff] at none_rest
        subst none_rest
        by_cases fixed : piece.1.fixedSize = 0
        · have single : bytes = piece.2 ++ [0] := by simpa [assemble, fixed] using form
          exact holds_variableMaybe checked type fixed (single ▸ carries)
        · have single : bytes = piece.2 := by simpa [assemble, fixed] using form
          exact holds_fixedMaybe checked type fixed (single ▸ carries) (sized piece List.mem_cons_self fixed)
    | array element =>
      rw [type] at admitted form
      have alike : ∀ piece ∈ pieces, piece.1 = element := by simpa [VariantType.admits] using admitted
      by_cases fixed : element.fixedSize = 0
      · simp only [assemble, fixed, ne_eq, not_true_eq_false, if_false] at form
        exact holds_variableArray checked type fixed carries fits form (counted element type) alike
      · simp only [assemble, ne_eq, fixed, not_false_eq_true, if_true] at form
        apply holds_fixedArray checked type fixed (form ▸ carries)
        intro piece member
        have same := alike piece member
        exact ⟨same, same ▸ sized piece member (same ▸ fixed)⟩
    | tuple items =>
      rw [type] at tuple
      cases tuple
    | dictEntry key item =>
      rw [type] at tuple
      cases tuple

end Xpl.Variant
