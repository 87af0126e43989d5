import Xpl.Variant.FixedSize
import Xpl.Variant.Positions

/-! Byteswapping serialised data in place, and the value whose numbers are swapped.
-/

set_option autoImplicit false

namespace Xpl.Variant
open Xpl.Library
variable {bytes swapped : Bytes} {v : Value} {depth : Nat}

/-! ## The traversal -/

def Data.withBytes (data : Data) (bytes : Bytes) : Data :=
  match data with
  | .null size => .null size
  | .span address _ => .span address bytes

def Serialised.withBytes (value : Serialised) (bytes : Bytes) : Serialised :=
  { value with data := value.data.withBytes bytes }

/-- The loop over the children. Each child is looked up in the bytes as they are by then, and what the call leaves
there is part of the container's bytes. -/
def byteswapChildren (swap : Serialised → Option Bytes) (value : Serialised) : Nat → Nat → Bytes → Option Bytes
  | 0, _, bytes => some bytes
  | count + 1, index, bytes => do
    let child ← xvariantSerialisedGetChild (value.withBytes bytes) index
    let swapped ← swap child
    byteswapChildren swap value count (index + 1)
      (if child.data.isNull then bytes else splice bytes (child.data.address - value.data.address) swapped)

/-- `xvariant_serialised_byteswap`: the bytes that it leaves; `fuel` bounds the depth of the recursion. -/
def xvariantSerialisedByteswap : Nat → Serialised → Option Bytes
  | 0, _ => none
  | fuel + 1, value =>
    if xvariantSerialisedCheck value then
      if value.data.isNull then some []
      else if value.type.alignment = 0 then some value.data.bytes
      else if value.type.alignment + 1 = value.type.fixedSize then
        match value.type.fixedSize with
        | 2 | 4 | 8 => if value.size = value.type.fixedSize then some value.data.bytes.reverse else none
        | _ => none
      else do
        let children ← xvariantSerialisedNChildren value
        byteswapChildren (xvariantSerialisedByteswap fuel) value children 0 value.data.bytes
    else none

/-! ## Swapped values -/

/-- Only the numbers of several bytes have an alignment. -/
def Basic.swap (b : Basic) (bytes : Bytes) : Bytes := if b.info.alignment = 0 then bytes else bytes.reverse

mutual
def Value.byteswap : Value → Value
  | .leaf basic bytes => .leaf basic (basic.swap bytes)
  | .node type children => .node type (Value.byteswapAll children)

def Value.byteswapAll : List Value → List Value
  | [] => []
  | child :: children => child.byteswap :: Value.byteswapAll children
end

theorem Value.type_byteswap (v : Value) : v.byteswap.type = v.type := by
  cases v <;> rfl

theorem Basic.length_swap (b : Basic) (bytes : Bytes) : (b.swap bytes).length = bytes.length := by
  rw [Basic.swap]
  split
  · rfl
  · exact List.length_reverse

@[simp] theorem Basic.swap_swap (b : Basic) (bytes : Bytes) : b.swap (b.swap bytes) = bytes := by
  unfold Basic.swap
  split
  · rfl
  · exact List.reverse_reverse bytes

theorem Basic.accepts_swap {b : Basic} (accepted : b.accepts bytes = true) :
    b.accepts (b.swap bytes) = true := by
  cases b
  case boolean | byte | string | objectPath | signature => exact accepted
  all_goals simpa [Basic.accepts, Basic.length_swap] using accepted

mutual
/-- The bytes represent a value and the other bytes the swapped one, with all pieces at the same places. -/
def Value.Swaps : Value → Nat → Bytes → Bytes → Prop
  | .leaf basic own, depth, bytes, swapped =>
    depth < maxRecursionDepth ∧ basic.accepts own = true ∧ bytes = own ∧ swapped = basic.swap own
  | .node type children, depth, bytes, swapped =>
    depth < maxRecursionDepth ∧ swapped.length = bytes.length ∧
      ∃ pieces others, Value.SwapsAll children (depth + 1) pieces others ∧ Assembled depth type pieces bytes ∧
        Assembled depth type others swapped

def Value.SwapsAll : List Value → Nat → List Piece → List Piece → Prop
  | [], _, pieces, others => pieces = [] ∧ others = []
  | child :: children, depth, pieces, others =>
    ∃ bytes swapped rest after, pieces = (child.type, bytes) :: rest ∧ others = (child.type, swapped) :: after ∧
      child.Swaps depth bytes swapped ∧ Value.SwapsAll children depth rest after
end

theorem Value.Swaps.length (swaps : v.Swaps depth bytes swapped) :
    swapped.length = bytes.length := by
  cases v with
  | leaf basic own =>
    obtain ⟨-, -, rfl, rfl⟩ := swaps
    exact basic.length_swap _
  | node type children => exact swaps.2.1

theorem Value.SwapsAll.shape {children : List Value} {pieces others : List Piece}
    (all : Value.SwapsAll children depth pieces others) : pieces.map Piece.shape = others.map Piece.shape := by
  induction children generalizing pieces others with
  | nil =>
    obtain ⟨rfl, rfl⟩ := all
    rfl
  | cons child children ih =>
    obtain ⟨bytes, swapped, rest, after, rfl, rfl, swaps, all⟩ := all
    rw [List.map_cons, List.map_cons, ih all, Piece.shape, Piece.shape, swaps.length]

theorem Value.SwapsAll.split {children : List Value} {front back pieces others : List Piece} {piece : Piece}
    (all : Value.SwapsAll children depth pieces others) (shape : pieces = front ++ piece :: back) :
    ∃ before other after, others = before ++ other :: after ∧ front.map Piece.shape = before.map Piece.shape ∧
      ∃ child ∈ children, piece.1 = child.type ∧ other.1 = child.type ∧ child.Swaps depth piece.2 other.2 := by
  induction children generalizing pieces others front with
  | nil =>
    rw [all.1] at shape
    simp at shape
  | cons child children ih =>
    obtain ⟨bytes, swapped, rest, after, rfl, rfl, swaps, all⟩ := all
    cases front with
    | nil =>
      cases shape
      exact ⟨[], _, after, rfl, rfl, child, List.mem_cons_self, rfl, rfl, swaps⟩
    | cons first front =>
      obtain ⟨rfl, later⟩ := List.cons_eq_cons.mp shape
      obtain ⟨before, other, after, rfl, same, owner, member, found⟩ := ih all later
      refine ⟨_ :: before, other, after, rfl, ?_, owner, List.mem_cons_of_mem _ member, found⟩
      rw [List.map_cons, List.map_cons, same, Piece.shape, Piece.shape, swaps.length]

theorem Value.Swaps.represents (swaps : v.Swaps depth bytes swapped) :
    v.Represents depth bytes := by
  induction v generalizing depth bytes swapped with
  | leaf basic own => exact ⟨swaps.1, swaps.2.1, swaps.2.2.1⟩
  | node type children ih =>
    obtain ⟨below, -, pieces, others, all, assembled, -⟩ := swaps
    refine ⟨below, pieces, ?_, assembled⟩
    clear assembled below
    induction children generalizing pieces others with
    | nil => exact all.1
    | cons child children inner =>
      obtain ⟨bytes, swapped, rest, after, rfl, rfl, swaps, all⟩ := all
      exact ⟨bytes, rest, rfl, ih child List.mem_cons_self swaps,
        inner (fun other member => ih other (List.mem_cons_of_mem _ member)) _ _ all⟩

theorem Value.Swaps.symm (swaps : v.Swaps depth bytes swapped) :
    v.byteswap.Swaps depth swapped bytes := by
  induction v generalizing depth bytes swapped with
  | leaf basic own =>
    obtain ⟨below, accepted, rfl, rfl⟩ := swaps
    exact ⟨below, Basic.accepts_swap accepted, rfl, (basic.swap_swap _).symm⟩
  | node type children ih =>
    obtain ⟨below, length, pieces, others, all, assembled, others_assembled⟩ := swaps
    refine ⟨below, length.symm, others, pieces, ?_, others_assembled, assembled⟩
    clear assembled others_assembled below length
    induction children generalizing pieces others with
    | nil => exact ⟨all.2, all.1⟩
    | cons child children inner =>
      obtain ⟨bytes, swapped, rest, after, rfl, rfl, swaps, all⟩ := all
      refine ⟨swapped, bytes, after, rest, by rw [child.type_byteswap], by rw [child.type_byteswap],
        ih child List.mem_cons_self swaps, inner (fun other member => ih other (List.mem_cons_of_mem _ member)) _ _ all⟩

theorem Value.Represents.exists_swaps (represents : v.Represents depth bytes) :
    ∃ swapped, v.Swaps depth bytes swapped := by
  induction v generalizing depth bytes with
  | leaf basic own =>
    obtain ⟨below, accepted, rfl⟩ := represents
    exact ⟨basic.swap bytes, below, accepted, rfl, rfl⟩
  | node type children ih =>
    obtain ⟨below, pieces, all, assembled⟩ := represents
    obtain ⟨others, swaps⟩ : ∃ others, Value.SwapsAll children (depth + 1) pieces others := by
      clear assembled
      induction children generalizing pieces with
      | nil => exact ⟨[], all, rfl⟩
      | cons child children inner =>
        obtain ⟨bytes, rest, rfl, represents, all⟩ := all
        obtain ⟨swapped, swaps⟩ := ih child List.mem_cons_self represents
        obtain ⟨after, others⟩ := inner (fun other member => ih other (List.mem_cons_of_mem _ member)) _ all
        exact ⟨(child.type, swapped) :: after, bytes, swapped, rest, after, rfl, rfl, swaps, others⟩
    obtain ⟨length, other⟩ := assembled.congr swaps.shape
    exact ⟨_, below, length, pieces, others, swaps, assembled, other⟩

/-! ## Where nothing is swapped, and where everything is -/

theorem piece_alignment_le {type : VariantType} {pieces : List Piece} (admitted : type.admits (pieces.map Prod.fst) = true)
    (container : type ≠ .variant) {piece : Piece} (member : piece ∈ pieces) : piece.1.alignment ≤ type.alignment := by
  have among : piece.1 ∈ pieces.map Prod.fst := List.mem_map_of_mem member
  cases tuple : type.isTuple with
  | true =>
    rw [(VariantType.admits_tuple tuple).mp admitted] at among
    exact VariantType.item_alignment_le tuple among
  | false =>
    cases type with
    | basic b => cases admitted
    | variant => exact absurd rfl container
    | maybe element =>
      have alike : piece.1 = element := by
        simp only [VariantType.admits, Bool.or_eq_true, decide_eq_true_eq] at admitted
        rcases admitted with empty | one
        · rw [empty] at among
          cases among
        · rw [one] at among
          exact List.mem_singleton.mp among
      rw [alike]
      exact Nat.le_refl _
    | array element =>
      have alike : piece.1 = element := by
        simp only [VariantType.admits, List.all_eq_true, decide_eq_true_eq] at admitted
        exact admitted piece.1 among
      rw [alike]
      exact Nat.le_refl _
    | tuple items => cases tuple
    | dictEntry key value => cases tuple

theorem Value.Swaps.unaligned (swaps : v.Swaps depth bytes swapped)
    (none_number : v.type.alignment = 0) : swapped = bytes := by
  induction v generalizing depth bytes swapped with
  | leaf basic own =>
    obtain ⟨-, -, rfl, rfl⟩ := swaps
    exact if_pos none_number
  | node type children ih =>
    obtain ⟨-, length, pieces, others, all, assembled, others_assembled⟩ := swaps
    change type.alignment = 0 at none_number
    have container : type ≠ .variant := by
      rintro rfl
      cases none_number
    have small : ∀ piece ∈ pieces, piece.1.alignment = 0 := fun piece member =>
      Nat.le_zero.mp (none_number ▸ piece_alignment_le assembled.admitted container member)
    have same : others = pieces := by
      clear assembled others_assembled
      induction children generalizing pieces others with
      | nil => rw [all.1, all.2]
      | cons child children inner =>
        obtain ⟨bytes, swapped, rest, after, rfl, rfl, swaps, all⟩ := all
        rw [ih child List.mem_cons_self swaps (small _ List.mem_cons_self),
          inner (fun other member => ih other (List.mem_cons_of_mem _ member)) _ _ all
            fun piece member => small piece (List.mem_cons_of_mem _ member)]
    rw [others_assembled.form, same, length, ← assembled.form]

theorem foldr_max_mem {numbers : List Nat} (positive : numbers.foldr max 0 ≠ 0) : numbers.foldr max 0 ∈ numbers := by
  induction numbers with
  | nil => exact absurd rfl positive
  | cons number numbers ih =>
    rw [List.foldr_cons] at positive ⊢
    rcases Nat.le_total (numbers.foldr max 0) number with small | large
    · rw [Nat.max_eq_left small]
      exact List.mem_cons_self
    · rw [Nat.max_eq_right large] at positive ⊢
      exact List.mem_cons_of_mem _ (ih positive)

theorem Assembled.single {depth : Nat} {type : VariantType} {pieces : List Piece} {bytes : Bytes}
    (assembled : Assembled depth type pieces bytes) (aligned : type.alignment ≠ 0)
    (small : type.alignment + 1 = type.fixedSize) :
    ∃ piece, pieces = [piece] ∧ piece.1.alignment = type.alignment ∧ piece.1.fixedSize = type.fixedSize ∧
      bytes = piece.2 := by
  have fixed : type.fixedSize ≠ 0 := by omega
  have length := assembled.length_fixed fixed
  obtain ⟨admitted, sized, -, -, -, form⟩ := assembled
  have tuple : type.isTuple = true := by
    cases type with
    | basic b => cases admitted
    | tuple items => rfl
    | dictEntry key item => rfl
    | _ => exact absurd rfl fixed
  have items := (VariantType.admits_tuple tuple).mp admitted
  have each := pieces_fixed tuple items fixed
  have positive : ∀ piece ∈ pieces, 0 < piece.2.length := fun piece member => by
    rw [sized piece member (each piece member)]
    exact Nat.pos_of_ne_zero (each piece member)
  -- The item with the largest alignment.
  have largest := alignment_tuple tuple
  have among : type.alignment ∈ type.items.map VariantType.alignment := by
    rw [largest] at aligned ⊢
    exact foldr_max_mem aligned
  rw [← items, List.map_map] at among
  obtain ⟨piece, member, alignment⟩ : ∃ piece : Piece, piece ∈ pieces ∧ piece.1.alignment = type.alignment :=
    List.mem_map.mp among
  obtain ⟨front, back, rfl⟩ := List.append_of_mem member
  have body := layoutEnd_le_tupleFields type (front ++ piece :: back)
  have ends := storedEnds_eq_nil each 0
  rw [assemble_tuple tuple, ends] at form
  have total := congrArg List.length form
  simp only [List.reverse_nil, List.length_append, length_table, List.length_nil, Nat.mul_zero, Nat.add_zero] at total
  have own := sized piece member (each piece member)
  have room := Nat.le_of_dvd (Nat.pos_of_ne_zero (each piece member)) piece.1.info_wellFormed.divides
  change piece.1.alignment + 1 ≤ piece.1.fixedSize at room
  have stop := stop_le_pieces (show front ++ piece :: back = front ++ piece :: back from rfl)
  have place : piece.part.stop (layoutEnd 0 (front.map Piece.part)) =
    roundUp (layoutEnd 0 (front.map Piece.part)) piece.1.alignment + piece.2.length := rfl
  have rounded := le_roundUp (layoutEnd 0 (front.map Piece.part)) piece.1.alignment
  have none_before : front = [] := by
    by_contra some_before
    obtain ⟨other, before⟩ := List.exists_mem_of_ne_nil front some_before
    have first := positive other (List.mem_append_left _ before)
    have within := @length_le_layoutEnd 0 _ _ (List.mem_map_of_mem (f := Piece.part) before)
    change other.2.length ≤ _ at within
    omega
  subst none_before
  have none_after : back = [] := by
    by_contra some_after
    obtain ⟨other, after⟩ : ∃ other : Piece, other ∈ back := List.exists_mem_of_ne_nil back some_after
    obtain ⟨between, rest, rfl⟩ := List.append_of_mem after
    have last := positive other (List.mem_append_right _ (List.mem_cons_of_mem _ after))
    have later := stop_le_pieces (show [] ++ piece :: (between ++ other :: rest) = (piece :: between) ++ other :: rest from rfl)
    have behind := le_layoutEnd (piece.part.stop 0) (between.map Piece.part)
    have further := le_roundUp (layoutEnd 0 ((piece :: between).map Piece.part)) other.1.alignment
    have length' : other.part.stop (layoutEnd 0 ((piece :: between).map Piece.part)) =
      roundUp (layoutEnd 0 ((piece :: between).map Piece.part)) other.1.alignment + other.2.length := rfl
    rw [List.map_cons, layoutEnd_cons] at further length' later
    rw [List.map_nil, layoutEnd_nil] at place
    omega
  subst none_after
  refine ⟨piece, rfl, alignment, by omega, ?_⟩
  rw [form, tupleFields, List.nil_append, List.map_singleton, layout_single]
  simp [table, zeros, show type.fixedSize - piece.2.length = 0 by omega]

theorem Value.Swaps.number (swaps : v.Swaps depth bytes swapped)
    (aligned : v.type.alignment ≠ 0) (small : v.type.alignment + 1 = v.type.fixedSize) : swapped = bytes.reverse := by
  induction v generalizing depth bytes swapped with
  | leaf basic own =>
    obtain ⟨-, -, rfl, rfl⟩ := swaps
    exact if_neg aligned
  | node type children ih =>
    obtain ⟨-, length, pieces, others, all, assembled, others_assembled⟩ := swaps
    obtain ⟨piece, rfl, alignment, size, own⟩ := assembled.single aligned small
    obtain ⟨other, rfl, -, -, their⟩ := others_assembled.single aligned small
    obtain ⟨before, found, after, shape, -, child, member, type, -, swaps⟩ := all.split (List.nil_append _).symm
    obtain ⟨rfl, rfl, rfl⟩ := singleton_split shape
    rw [own, their]
    exact ih child member swaps (by rw [← type, alignment]; exact aligned) (by rw [← type, alignment, size]; exact small)

/-! ## The traversal swaps -/

section Traversal
variable {value : Serialised}
variable {bytes : Bytes}

theorem Serialised.withBytes_place (same : bytes.length = value.size) :
    (value.withBytes bytes).size = value.size ∧ (value.withBytes bytes).data.isNull = value.data.isNull ∧
      (value.withBytes bytes).data.address = value.data.address := by
  cases data : value.data with
  | null size => simp [Serialised.size, Serialised.withBytes, data, Data.withBytes]
  | span address own =>
    rw [Serialised.size, data] at same
    simp only [Serialised.size, Serialised.withBytes, data, Data.withBytes]
    exact ⟨same, rfl, rfl⟩

theorem Serialised.Carries.withBytes {type : VariantType} {other : Bytes} (carries : value.Carries (type, bytes))
    (same : other.length = bytes.length) : (value.withBytes other).Carries (type, other) := by
  obtain ⟨size, -, address⟩ := Serialised.withBytes_place (same.trans carries.size.symm)
  have nothing : bytes = [] → other = [] := by
    rintro rfl
    exact List.length_eq_zero_iff.mp same
  refine ⟨carries.type, ?_, ?_, ?_, fun zero => ?_⟩
  · cases data : value.data with
    | null count =>
      have own := carries.bytes
      rw [data] at own
      rw [Serialised.withBytes, data]
      exact (nothing own.symm).symm
    | span address own =>
      rw [Serialised.withBytes, data]
      rfl
  · rw [size, carries.size]
    exact same.symm
  · rw [address, size]
    exact carries.placed
  · rw [address] at zero
    exact nothing (carries.null zero)

theorem Serialised.Proper.withBytes (proper : value.Proper) (same : bytes.length = value.size) :
    (value.withBytes bytes).Proper := by
  obtain ⟨size, null, address⟩ := Serialised.withBytes_place same
  refine ⟨fun fixed => ?_, fun varies => ?_, ?_⟩
  · rw [size]
    exact proper.sized fixed
  · rw [size, null]
    exact proper.backed varies
  · rw [address]
    exact proper.aligned

/-- Writing the swapped child over the child. -/
theorem Assembled.splice {front rest : List Piece} {piece other : Piece}
    (assembled : Assembled value.depth value.type (front ++ piece :: rest) bytes) (same : piece.shape = other.shape) :
    splice bytes (roundUp (layoutEnd 0 (front.map Piece.part)) piece.1.alignment) other.2 =
      assemble (gvsGetOffsetSize bytes.length) value.type (front ++ other :: rest) := by
  have shapes : (front ++ piece :: rest).map Piece.shape = (front ++ other :: rest).map Piece.shape := by
    rw [List.map_append, List.map_append, List.map_cons, List.map_cons, same]
  obtain ⟨type, length⟩ := Prod.mk.inj same
  obtain ⟨length', other_assembled⟩ := assembled.congr shapes
  rw [assemble_eq other_assembled.admitted other_assembled.sized]
  conv_lhs => rw [assembled.form, assemble_eq assembled.admitted assembled.sized]
  rw [assembleTail_congr shapes, List.map_append, List.map_append, List.map_cons, List.map_cons]
  have written := splice_layout (front.map Piece.part) piece.part (rest.map Piece.part)
    (assembleTail (gvsGetOffsetSize bytes.length) value.type (front ++ other :: rest)) (show other.2.length = piece.part.2.length from length.symm)
  rw [show other.part = (piece.part.1, other.2) by rw [Piece.part, Piece.part, type]]
  exact written

theorem byteswapChildren_eq {swap : Serialised → Option Bytes} (proper : value.Proper) {whole : Bytes}
    (carries : value.Carries (value.type, whole)) (backed : value.data.isNull = false) {children : List Value}
    (each : ∀ v ∈ children, ∀ child : Serialised, ∀ bytes swapped, child.depth = value.depth + 1 →
      v.Swaps child.depth bytes swapped → child.Carries (v.type, bytes) → child.Proper → swap child = some swapped)
    {front rest after : List Piece} {bytes : Bytes} (all : Value.SwapsAll children (value.depth + 1) rest after)
    (same : bytes.length = value.size) (assembled : Assembled value.depth value.type (front ++ rest) bytes) :
    byteswapChildren swap value rest.length front.length bytes =
      some (assemble (gvsGetOffsetSize bytes.length) value.type (front ++ after)) := by
  induction children generalizing front rest after bytes with
  | nil =>
    obtain ⟨rfl, rfl⟩ := all
    rw [← assembled.form]
    rfl
  | cons v children ih =>
    obtain ⟨own, swapped, rest, after, rfl, rfl, swaps, all⟩ := all
    have within : Assembled (value.withBytes bytes).depth (value.withBytes bytes).type (front ++ (v.type, own) :: rest) bytes :=
      assembled
    obtain ⟨found, childProper, childCarries⟩ := within.getChild (proper.withBytes same)
      (carries.withBytes (same.trans carries.size)) rfl
    have shape : Piece.shape (v.type, own) = Piece.shape (v.type, swapped) := by
      rw [Piece.shape, Piece.shape, swaps.length]
    have shapes : (front ++ (v.type, own) :: rest).map Piece.shape = (front ++ (v.type, swapped) :: rest).map Piece.shape := by
      rw [List.map_append, List.map_append, List.map_cons, List.map_cons, shape]
    obtain ⟨length, next⟩ := assembled.congr shapes
    set child := (value.withBytes bytes).pieceAt front (v.type, own) with child_def
    have depth : child.depth = value.depth + 1 := rfl
    have called := each v List.mem_cons_self child own swapped depth (depth ▸ swaps) childCarries childProper
    -- What the call leaves is the container with this child swapped.
    have written : (if child.data.isNull then bytes
        else Library.splice bytes (child.data.address - value.data.address) swapped) =
        assemble (gvsGetOffsetSize bytes.length) value.type (front ++ (v.type, swapped) :: rest) := by
      obtain ⟨-, present, address⟩ := Serialised.withBytes_place same
      rw [backed] at present
      have data : child.data = if roundUp (layoutEnd 0 (front.map Piece.part)) v.type.alignment <
          Part.stop (layoutEnd 0 (front.map Piece.part)) (Piece.part (v.type, own)) then
          (value.withBytes bytes).data.range _ _ else .null 0 := rfl
      split at data
      case isTrue =>
        rw [data, Data.isNull_range, present, if_neg Bool.false_ne_true, Data.address_range present, address,
          Nat.add_sub_cancel_left]
        exact assembled.splice shape
      case isFalse =>
        have none_byte : own = [] := by
          have size := childCarries.size
          rw [Serialised.size, data] at size
          exact List.length_eq_zero_iff.mp size.symm
        have none_swapped : swapped = [] := List.length_eq_zero_iff.mp (by rw [swaps.length, none_byte]; rfl)
        rw [data, show (Data.null 0).isNull = true from rfl, if_pos rfl, none_swapped, ← none_byte]
        exact assembled.form
    rw [List.length_cons, byteswapChildren, found]
    simp only [some_bind, called, written]
    have following := @ih (fun v member => each v (List.mem_cons_of_mem _ member)) (front ++ [(v.type, swapped)]) rest after
      (assemble (gvsGetOffsetSize bytes.length) value.type (front ++ (v.type, swapped) :: rest)) all (length.trans same)
      (by simpa using next)
    rw [List.length_append, List.length_singleton, length] at following
    simpa using following

/-- Without data or an alignment nothing is done, and a number is reversed. -/
theorem xvariantSerialisedByteswap_plain {v : Value} {swapped : Bytes} (swaps : v.Swaps value.depth bytes swapped)
    (carries : value.Carries (v.type, bytes)) (proper : value.Proper)
    (plain : value.data.isNull = true ∨ v.type.alignment = 0 ∨ v.type.alignment + 1 = v.type.fixedSize) (fuel : Nat) :
    xvariantSerialisedByteswap (fuel + 1) value = some swapped := by
  have type : value.type = v.type := carries.type
  have contents : value.data.bytes = bytes := carries.bytes
  have size : value.size = bytes.length := carries.size
  rw [xvariantSerialisedByteswap, if_pos proper.check, contents, type]
  by_cases null : value.data.isNull = true
  · have empty : bytes = [] := List.length_eq_zero_iff.mp (size.symm.trans (carries.size_of_null null))
    have none_swapped : swapped = [] := List.length_eq_zero_iff.mp (by rw [swaps.length, empty]; rfl)
    rw [if_pos null, none_swapped]
  · rw [if_neg null]
    by_cases unaligned : v.type.alignment = 0
    · rw [if_pos unaligned, swaps.unaligned unaligned]
    · have whole := (plain.resolve_left null).resolve_left unaligned
      have sized : value.size = v.type.fixedSize := type ▸ proper.sized (by rw [type]; omega)
      rw [if_neg unaligned, if_pos whole, swaps.number unaligned whole]
      rcases v.type.alignment_isAlignment with mask | mask | mask | mask
      · exact absurd mask unaligned
      all_goals
        rw [mask] at whole
        simp [sized, ← whole]

theorem xvariantSerialisedByteswap_eq {v : Value} {swapped : Bytes} (swaps : v.Swaps value.depth bytes swapped)
    (carries : value.Carries (v.type, bytes)) (proper : value.Proper) {fuel : Nat}
    (enough : maxRecursionDepth - value.depth ≤ fuel) : xvariantSerialisedByteswap fuel value = some swapped := by
  -- over the value; the fuel is the distance to the depth limit, as in the serialiser
  induction v generalizing value bytes swapped fuel with
  | leaf basic own =>
    have below := swaps.1
    obtain ⟨fuel, rfl⟩ : ∃ left, fuel = left + 1 := ⟨fuel - 1, by omega⟩
    refine xvariantSerialisedByteswap_plain swaps carries proper (Or.inr ?_) fuel
    cases basic
    case boolean | byte | string | objectPath | signature => exact Or.inl rfl
    all_goals exact Or.inr rfl
  | node type children ih =>
    have below := swaps.1
    obtain ⟨fuel, rfl⟩ : ∃ left, fuel = left + 1 := ⟨fuel - 1, by omega⟩
    by_cases plain : value.data.isNull = true ∨ type.alignment = 0 ∨ type.alignment + 1 = type.fixedSize
    · exact xvariantSerialisedByteswap_plain swaps carries proper plain fuel
    · have own : value.type = type := carries.type
      subst own
      obtain ⟨-, length, pieces, others, all, assembled, others_assembled⟩ := swaps
      obtain ⟨counted, -⟩ := assembled.holds proper.check carries
      have backed : value.data.isNull = false := by simpa using fun null => plain (Or.inl null)
      have contents : value.data.bytes = bytes := carries.bytes
      rw [xvariantSerialisedByteswap, if_pos proper.check, if_neg fun null => plain (Or.inl null),
        if_neg fun unaligned => plain (Or.inr (Or.inl unaligned)), if_neg fun whole => plain (Or.inr (Or.inr whole)),
        counted, contents, others_assembled.form, length]
      refine @byteswapChildren_eq _ _ proper _ carries backed _ (fun v member child bytes swapped depth swaps own proper => ?_)
        [] _ _ _ all carries.size.symm assembled
      exact ih v member swaps own proper (by omega)

end Traversal

end Xpl.Variant
