import Mathlib.Data.List.Forall2
import Xpl.Variant.Serialiser
import Xpl.Variant.Safety

/-! The byte strings that represent a value.

The reader derives the width of the offsets from the size of a container, so a container
that is close to a power of 256 has two representations. `Value.encode` is the shorter one.
-/

set_option autoImplicit false

namespace Xpl.Variant
open Xpl.Library
variable {depth : Nat} {pieces : List Piece} {v : Value}
variable {bytes : Bytes}

def VariantType.Readable (t : VariantType) (depth : Nat) : Prop :=
  t.toExpr.nesting ≤ maxRecursionDepth ∧ depthAllows depth (xvariantTypeInfoQueryDepth t) = true

/-- A container of the given pieces. Offsets of width zero are left to tuples: an array
without bytes has no children. -/
structure Assembled (depth : Nat) (type : VariantType) (pieces : List Piece) (bytes : Bytes) : Prop where
  admitted : type.admits (pieces.map Prod.fst) = true
  sized : Sized pieces
  readable : type = .variant → ∀ piece ∈ pieces, piece.1.Readable depth
  fits : bytes.length < wordSize
  counted : ∀ element, type = .array element → pieces ≠ [] → bytes ≠ []
  form : bytes = assemble (gvsGetOffsetSize bytes.length) type pieces

mutual
/-- `bytes` represents the value at a depth below the limit. -/
def Value.Represents : Value → Nat → Bytes → Prop
  | .leaf basic own, depth, bytes => depth < maxRecursionDepth ∧ basic.accepts own = true ∧ bytes = own
  | .node type children, depth, bytes =>
    depth < maxRecursionDepth ∧
      ∃ pieces, Value.RepresentsAll children (depth + 1) pieces ∧ Assembled depth type pieces bytes

def Value.RepresentsAll : List Value → Nat → List Piece → Prop
  | [], _, pieces => pieces = []
  | child :: children, depth, pieces =>
    ∃ bytes rest, pieces = (child.type, bytes) :: rest ∧ child.Represents depth bytes ∧
      Value.RepresentsAll children depth rest
end

theorem Value.representsAll_iff (children : List Value) (depth : Nat) (pieces : List Piece) :
    Value.RepresentsAll children depth pieces ↔
      List.Forall₂ (fun child piece => piece.1 = child.type ∧ child.Represents depth piece.2) children pieces := by
  induction children generalizing pieces with
  | nil =>
    exact ⟨fun empty => empty ▸ .nil, fun all => by cases all; rfl⟩
  | cons child children ih =>
    constructor
    · rintro ⟨bytes, rest, rfl, first, others⟩
      exact .cons ⟨rfl, first⟩ ((ih rest).mp others)
    · intro all
      cases all with
      | @cons _ piece _ rest first others =>
        exact ⟨piece.2, rest, by rw [← first.1], first.2, (ih rest).mpr others⟩

theorem Value.types_of_representsAll {children : List Value}
    (all : Value.RepresentsAll children depth pieces) : pieces.map Prod.fst = children.map Value.type := by
  induction children generalizing pieces with
  | nil =>
    have none : pieces = [] := all
    rw [none]
    rfl
  | cons child children ih =>
    obtain ⟨bytes, rest, rfl, -, others⟩ := all
    rw [List.map_cons, List.map_cons, ih others]

theorem Value.RepresentsAll.of_piece {children : List Value}
    (all : Value.RepresentsAll children depth pieces) {piece : Piece} (member : piece ∈ pieces) :
    ∃ child ∈ children, piece.1 = child.type ∧ child.Represents depth piece.2 := by
  induction children generalizing pieces with
  | nil =>
    have none : pieces = [] := all
    rw [none] at member
    cases member
  | cons first children ih =>
    obtain ⟨bytes, rest, rfl, represents, others⟩ := all
    rcases List.mem_cons.mp member with rfl | later
    · exact ⟨first, List.mem_cons_self, rfl, represents⟩
    · obtain ⟨child, among, found⟩ := ih others later
      exact ⟨child, List.mem_cons_of_mem _ among, found⟩

theorem Value.RepresentsAll.split {front back : List Value} {child : Value}
    (all : Value.RepresentsAll (front ++ child :: back) depth pieces) :
    ∃ before piece after, pieces = before ++ piece :: after ∧ before.length = front.length ∧
      piece.1 = child.type ∧ child.Represents depth piece.2 := by
  induction front generalizing pieces with
  | nil =>
    obtain ⟨bytes, rest, rfl, represents, -⟩ := all
    exact ⟨[], _, rest, rfl, rfl, rfl, represents⟩
  | cons first front ih =>
    obtain ⟨bytes, rest, rfl, -, others⟩ := all
    obtain ⟨before, piece, after, rfl, place, found⟩ := ih others
    exact ⟨_ :: before, piece, after, rfl, congrArg Nat.succ place, found⟩

theorem Value.exists_representsAll
    (each : ∀ piece ∈ pieces, ∃ child : Value, piece.1 = child.type ∧ child.Represents depth piece.2) :
    ∃ children, Value.RepresentsAll children depth pieces := by
  induction pieces with
  | nil => exact ⟨[], rfl⟩
  | cons piece pieces ih =>
    obtain ⟨child, type, represents⟩ := each piece List.mem_cons_self
    obtain ⟨children, all⟩ := ih fun other member => each other (List.mem_cons_of_mem _ member)
    exact ⟨child :: children, piece.2, pieces, by rw [← type], represents, all⟩

/-! ## Sizes -/

/-- The container of every value whose children have their sizes has its size. -/
theorem Assembled.length_fixed {type : VariantType}
    (assembled : Assembled depth type pieces bytes) (fixed : type.fixedSize ≠ 0) :
    bytes.length = type.fixedSize := by
  obtain ⟨admitted, sized, -, fits, -, form⟩ := assembled
  cases tuple : type.isTuple with
  | true =>
    rw [assemble_tuple tuple] at form
    have length := congrArg List.length form
    simp only [tupleFields, List.length_append, length_zeros] at length
    have items := (VariantType.admits_tuple tuple).mp admitted
    obtain ⟨below, no_ends⟩ := length_body_le tuple items sized fixed (by omega)
    simp only [no_ends, List.reverse_nil, length_table, List.length_nil] at length
    omega
  | false =>
    cases type with
    | basic b => cases admitted
    | variant => exact absurd rfl fixed
    | maybe element => exact absurd rfl fixed
    | array element => exact absurd rfl fixed
    | tuple items => cases tuple
    | dictEntry key value => cases tuple

theorem Value.Represents.length_fixed (represents : v.Represents depth bytes)
    (fixed : v.type.fixedSize ≠ 0) : bytes.length = v.type.fixedSize := by
  cases v with
  | leaf basic own =>
    obtain ⟨-, accepted, rfl⟩ := represents
    exact Basic.accepts_fixed accepted fixed
  | node type children =>
    obtain ⟨-, pieces, -, assembled⟩ := represents
    exact assembled.length_fixed fixed

theorem Value.Represents.wellFormed (represents : v.Represents depth bytes) :
    v.wellFormed = true := by
  induction v generalizing depth bytes with
  | leaf basic own => exact represents.2.1
  | node type children ih =>
    obtain ⟨-, pieces, all, assembled⟩ := represents
    rw [Value.wellFormed_node, ← Value.types_of_representsAll all]
    refine ⟨assembled.admitted, fun child member => ?_⟩
    obtain ⟨front, back, rfl⟩ := List.append_of_mem member
    obtain ⟨before, piece, after, -, -, -, represents⟩ := all.split
    exact ih child member represents

/-! ## The encoding is a representation -/

theorem encodeNode_form (type : VariantType) (pieces : List Piece) :
    encodeNode type pieces = assemble (gvsGetOffsetSize (encodeNode type pieces).length) type pieces := by
  cases tuple : type.isTuple with
  | true =>
    rw [assemble_tuple tuple, encodeNode_tuple tuple]
    by_cases none_end : storedEnds 0 pieces = []
    · simp [encodeTuple, withTable, none_end, table]
    · have width := gvsGetOffsetSize_withTable (tupleFields type pieces) (by simpa using none_end :
        (storedEnds 0 pieces).reverse ≠ [])
      change withTable _ _ = _ ++ table (gvsGetOffsetSize (withTable _ _).length) _
      rw [width]
      rfl
  | false =>
    cases type with
    | basic b => rfl
    | variant => rfl
    | maybe element => rfl
    | array element =>
      by_cases fixed : element.fixedSize = 0
      · rw [encodeNode_variableArray fixed, assemble, if_neg (not_not.mpr fixed)]
        by_cases empty : layoutEnds 0 (pieces.map Piece.part) = []
        · simp [withTable, empty, table]
        · rw [gvsGetOffsetSize_withTable _ empty]
          rfl
      · simp [encodeNode, assemble, fixed]
    | tuple items => cases tuple
    | dictEntry key value => cases tuple

theorem encodeNode_array_ne_nil {element : VariantType}
    (admitted : (VariantType.array element).admits (pieces.map Prod.fst) = true) (sized : Sized pieces)
    (some_piece : pieces ≠ []) : encodeNode (.array element) pieces ≠ [] := by
  have count : 0 < pieces.length := List.length_pos_iff.mpr some_piece
  by_cases fixed : element.fixedSize = 0
  · intro empty
    have length := congrArg List.length empty
    have width := Nat.mul_pos (tableWidth_pos (layout 0 (pieces.map Piece.part)).length pieces.length) count
    rw [encodeNode_variableArray fixed, length_withTable, length_layoutEnds, List.length_map, List.length_nil] at length
    omega
  · obtain ⟨piece, member⟩ := List.exists_mem_of_ne_nil pieces some_piece
    have same : piece.1 = element := by
      simp only [VariantType.admits, List.all_map, List.all_eq_true] at admitted
      simpa using admitted piece member
    have size := sized piece member (same ▸ fixed)
    intro empty
    have below := length_le_encodeNode admitted member
    rw [empty, List.length_nil, size, same] at below
    exact fixed (Nat.le_zero.mp below)

theorem nesting_lt_of_depth {t : VariantType} {limit : Nat} (shallow : t.depth ≤ limit) : t.toExpr.nesting ≤ limit :=
  Nat.le_trans t.toExpr.nesting_le_depth.1 shallow

theorem xvariantTypeInfoQueryDepth_le (t : VariantType) (shallow : t.depth < maxRecursionDepth) :
    xvariantTypeInfoQueryDepth t ≤ max 1 t.depth := by
  rw [xvariantTypeInfoQueryDepth]
  split
  · rw [VariantType.string, xvariantTypeStringGetDepth_string _ (nesting_lt_of_depth (Nat.le_of_lt shallow))]
    exact Nat.le_max_right _ _
  · exact Nat.le_max_left _ _

theorem depthAllows_of_lt {typeDepth : Nat} (below : depth + typeDepth < maxRecursionDepth) :
    depthAllows depth typeDepth = true := by
  unfold depthAllows maxRecursionDepth wordSize at *
  have word : 128 + (2 ^ 64 - typeDepth) = 128 - typeDepth + 2 ^ 64 := by omega
  rw [word, Nat.add_mod_right, Nat.mod_eq_of_lt (by omega), decide_eq_true_eq]
  omega

theorem VariantType.readable_of_depth {t : VariantType} (below : depth + 1 + t.depth < maxRecursionDepth) :
    t.Readable depth := by
  have query := xvariantTypeInfoQueryDepth_le t (by omega)
  exact ⟨nesting_lt_of_depth (by omega), depthAllows_of_lt (by omega)⟩

mutual
/-- Every part is above the limit on the depth, and every variant announces a type that may be announced there. -/
def Value.Shallow : Value → Nat → Prop
  | .leaf _ _, depth => depth < maxRecursionDepth
  | .node type children, depth =>
    depth < maxRecursionDepth ∧ (type = .variant → ∀ t ∈ Value.types children, VariantType.Readable t depth) ∧
      Value.AllShallow children (depth + 1)

def Value.AllShallow : List Value → Nat → Prop
  | [], _ => True
  | child :: children, depth => child.Shallow depth ∧ Value.AllShallow children depth
end

theorem Value.allShallow_iff (children : List Value) (depth : Nat) :
    Value.AllShallow children depth ↔ ∀ child ∈ children, child.Shallow depth := by
  induction children with
  | nil => simp [Value.AllShallow]
  | cons child children ih => simp [Value.AllShallow, ih]

theorem Value.shallow_of_nesting (below : depth + v.nesting < maxRecursionDepth) :
    v.Shallow depth := by
  induction v generalizing depth with
  | leaf basic bytes =>
    rw [Value.Shallow]
    omega
  | node type children ih =>
    refine ⟨by omega, ?_, (Value.allShallow_iff _ _).mpr fun child member => ?_⟩
    · rintro rfl t member
      rw [Value.types_eq_map] at member
      obtain ⟨child, among, rfl⟩ := List.mem_map.mp member
      have deeper := @Value.nesting_child .variant children child among
      have inner := child.depth_le_nesting
      exact VariantType.readable_of_depth (by omega)
    · have deeper := @Value.nesting_child type children child member
      exact ih child member (by omega)

theorem Value.represents_of_shallow (writable : v.Writable) (shallow : v.Shallow depth) :
    v.Represents depth v.encode := by
  induction v generalizing depth with
  | leaf basic bytes => exact ⟨shallow, writable.valid, rfl⟩
  | node type children ih =>
    obtain ⟨below, readable, each⟩ := shallow
    rw [Value.allShallow_iff] at each
    refine ⟨below, Value.pieces children, ?_, ?_⟩
    · rw [Value.representsAll_iff, Value.pieces_eq_map, List.forall₂_map_right_iff, List.forall₂_same]
      exact fun child member => ⟨rfl, ih child member (writable.child member) (each child member)⟩
    · have admitted := ((Value.wellFormed_node type children).mp writable.valid).1
      rw [← Value.types_pieces] at admitted
      refine ⟨admitted, Value.pieces_sized writable, ?_, writable.fits, ?_, encodeNode_form type _⟩
      · intro variant piece member
        refine readable variant piece.1 ?_
        rw [Value.types_eq_map, ← Value.types_pieces]
        exact List.mem_map_of_mem member
      · rintro element rfl some_piece
        exact encodeNode_array_ne_nil admitted (Value.pieces_sized writable) some_piece

theorem Value.represents_encode (writable : v.Writable)
    (shallow : depth + v.nesting < maxRecursionDepth) : v.Represents depth v.encode :=
  Value.represents_of_shallow writable (Value.shallow_of_nesting shallow)

end Xpl.Variant
