import Xpl.Variant.Strings
import Xpl.Variant.TypeInfo

/-! Values and the bytes that represent them.

`Value.encode` says what the serialiser is for: it is written down from the format, not
from the loops that fill a buffer. `Xpl.Variant.Writing` proves that the loops agree.
-/

set_option autoImplicit false

namespace Xpl.Variant
open Xpl.Library

/-- A value of a basic type is the bytes that it is stored as. -/
inductive Value where
  | leaf (basic : Basic) (bytes : Bytes)
  | node (type : VariantType) (children : List Value)

@[induction_eliminator]
theorem Value.induction {motive : Value → Prop} (leaf : ∀ basic bytes, motive (.leaf basic bytes))
    (node : ∀ type children, (∀ child ∈ children, motive child) → motive (.node type children))
    (v : Value) : motive v :=
  @Value.rec motive (fun children => ∀ child ∈ children, motive child) leaf node
    (fun _ member => nomatch member)
    (fun _ _ first rest => List.forall_mem_cons.mpr ⟨first, rest⟩) v

def Value.type : Value → VariantType
  | .leaf basic _ => .basic basic
  | .node type _ => type

def Basic.accepts (b : Basic) (bytes : Bytes) : Bool :=
  match b with
  | .boolean => bytes = [0] || bytes = [1]
  | .string => xvariantSerialiserIsString bytes
  | .objectPath => xvariantSerialiserIsObjectPath bytes
  | .signature => xvariantSerialiserIsSignature bytes
  | _ => bytes.length = b.info.fixedSize

def VariantType.admits : VariantType → List VariantType → Bool
  | .basic _, _ => false
  | .variant, types => types.length = 1
  | .maybe element, types => types = [] || types = [element]
  | .array element, types => types.all (· = element)
  | .tuple items, types => types = items
  | .dictEntry key value, types => types = [.basic key, value]

mutual
def Value.wellFormed : Value → Bool
  | .leaf basic bytes => basic.accepts bytes
  | .node type children => type.admits (Value.types children) && Value.allWellFormed children

def Value.allWellFormed : List Value → Bool
  | [] => true
  | child :: children => child.wellFormed && Value.allWellFormed children

def Value.types : List Value → List VariantType
  | [] => []
  | child :: children => child.type :: Value.types children
end

def VariantType.depth (t : VariantType) : Nat := t.toExpr.depth

mutual
/-- The levels of a value: those that its type shows, and those below its variants. -/
def Value.nesting : Value → Nat
  | .leaf basic _ => (VariantType.basic basic).depth
  | .node type children => max type.depth (Value.nestings children)

def Value.nestings : List Value → Nat
  | [] => 0
  | child :: children => max (child.nesting + 1) (Value.nestings children)
end

/-! ## Bytes -/

/-- A child of a container, encoded. -/
abbrev Piece := VariantType × Bytes

def Piece.part (piece : Piece) : Part := (piece.1.alignment, piece.2)

/-- The smallest offsets that can address a body and its table. -/
def tableWidth (body count : Nat) : Nat :=
  if body + count < 2 ^ 8 then 1
  else if body + 2 * count < 2 ^ 16 then 2
  else if body + 4 * count < 2 ^ 32 then 4
  else 8

def withTable (body : Bytes) (entries : List Nat) : Bytes :=
  body ++ table (tableWidth body.length entries.length) entries

/-- The ends of the variable-sized pieces, the last piece apart. -/
def storedEnds (offset : Nat) : List Piece → List Nat
  | [] => []
  | piece :: pieces =>
    let stop := piece.part.stop offset
    if piece.1.fixedSize = 0 ∧ pieces ≠ [] then stop :: storedEnds stop pieces else storedEnds stop pieces

def tupleFields (type : VariantType) (pieces : List Piece) : Bytes :=
  let body := layout 0 (pieces.map Piece.part)
  body ++ zeros (type.fixedSize - body.length)

/-- A container with offsets of a given width. -/
def assemble (width : Nat) (type : VariantType) (pieces : List Piece) : Bytes :=
  match type with
  | .basic _ => []
  | .variant => pieces.flatMap fun piece => piece.2 ++ 0 :: piece.1.string
  | .maybe element => pieces.flatMap fun piece => if element.fixedSize ≠ 0 then piece.2 else piece.2 ++ [0]
  | .array element =>
    if element.fixedSize ≠ 0 then pieces.flatMap Prod.snd
    else layout 0 (pieces.map Piece.part) ++ table width (layoutEnds 0 (pieces.map Piece.part))
  | .tuple _ | .dictEntry _ _ => tupleFields type pieces ++ table width (storedEnds 0 pieces).reverse

def offsetWidth (type : VariantType) (pieces : List Piece) : Nat :=
  match type with
  | .array _ => tableWidth (layout 0 (pieces.map Piece.part)).length (layoutEnds 0 (pieces.map Piece.part)).length
  | _ => tableWidth (tupleFields type pieces).length (storedEnds 0 pieces).reverse.length

def encodeNode (type : VariantType) (pieces : List Piece) : Bytes := assemble (offsetWidth type pieces) type pieces

mutual
def Value.encode : Value → Bytes
  | .leaf _ bytes => bytes
  | .node type children => encodeNode type (Value.pieces children)

def Value.pieces : List Value → List Piece
  | [] => []
  | child :: children => (child.type, child.encode) :: Value.pieces children
end

def Value.piece (v : Value) : Piece := (v.type, v.encode)

theorem Value.pieces_eq_map (children : List Value) : Value.pieces children = children.map Value.piece := by
  induction children with
  | nil => rfl
  | cons child children ih => simp [Value.pieces, Value.piece, ih]

theorem Value.types_eq_map (children : List Value) : Value.types children = children.map Value.type := by
  induction children with
  | nil => rfl
  | cons child children ih => simp [Value.types, ih]

theorem Value.allWellFormed_iff (children : List Value) :
    Value.allWellFormed children = true ↔ ∀ child ∈ children, child.wellFormed = true := by
  induction children with
  | nil => simp [Value.allWellFormed]
  | cons child children ih => simp [Value.allWellFormed, ih]

theorem Value.wellFormed_node (type : VariantType) (children : List Value) :
    (Value.node type children).wellFormed = true ↔
      type.admits (children.map Value.type) = true ∧ ∀ child ∈ children, child.wellFormed = true := by
  rw [Value.wellFormed, Bool.and_eq_true, Value.allWellFormed_iff, Value.types_eq_map]

theorem Value.nesting_child {type : VariantType} {children : List Value} {child : Value}
    (member : child ∈ children) : child.nesting + 1 ≤ (Value.node type children).nesting := by
  apply Nat.le_trans _ (Nat.le_max_right _ _)
  induction children with
  | nil => cases member
  | cons first children ih =>
    rcases List.mem_cons.mp member with rfl | later
    · exact Nat.le_max_left _ _
    · exact Nat.le_trans (ih later) (Nat.le_max_right _ _)

theorem Value.depth_le_nesting (v : Value) : v.type.depth ≤ v.nesting := by
  cases v with
  | leaf basic bytes => exact Nat.le_refl _
  | node type children => exact Nat.le_max_left _ _

end Xpl.Variant
