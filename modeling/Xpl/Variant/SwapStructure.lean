import Xpl.Variant.Byteswap
import Xpl.Variant.CheckPlan
import Xpl.Variant.Canonical

/-! Byteswapping changes the bytes of the numbers and nothing else. -/

set_option autoImplicit false

namespace Xpl.Variant
open Xpl.Library

/-- The part that the reader reaches by the indices of a path. -/
def Serialised.follow (value : Serialised) : List Nat → Option Serialised
  | [] => some value
  | index :: path => (xvariantSerialisedGetChild value index).bind fun child => child.follow path

/-- What the reader says about a part, its bytes apart. -/
def Serialised.place (value : Serialised) : VariantType × Nat × Bool × Nat × Nat :=
  (value.type, value.data.address, value.data.isNull, value.size, value.depth)

/-- The same structure; the numbers are reversed and all other bytes are equal. -/
structure Serialised.Swapped (value other : Serialised) : Prop where
  places : ∀ path, (other.follow path).map Serialised.place = (value.follow path).map Serialised.place
  counts : ∀ path, (other.follow path).bind xvariantSerialisedNChildren = (value.follow path).bind xvariantSerialisedNChildren
  leaves : ∀ path leaf b, value.follow path = some leaf → leaf.type = .basic b →
    ∃ swapped, other.follow path = some swapped ∧ swapped.data.bytes = b.swap leaf.data.bytes
  others : ∀ position, (∀ path leaf b, value.follow path = some leaf → leaf.type = .basic b → b.info.alignment ≠ 0 →
      ¬(leaf.data.address ≤ value.data.address + position ∧
        value.data.address + position < leaf.data.address + leaf.size)) →
    other.data.bytes[position]? = value.data.bytes[position]?

section Paths
variable {value : Serialised}

theorem getChild_basic {b : Basic} (type : value.type = .basic b) (index : Nat) :
    xvariantSerialisedGetChild value index = none := by
  have none_child : xvariantSerialisedNChildren value = none := by
    rw [xvariantSerialisedNChildren, type]
    split <;> rfl
  rw [xvariantSerialisedGetChild, none_child]
  rfl

theorem pieceAt_withBytes {front before : List Piece} {piece other : Piece} {swapped : Bytes} (type : piece.1 = other.1)
    (length : other.2.length = piece.2.length)
    (ends : layoutEnd 0 (front.map Piece.part) = layoutEnd 0 (before.map Piece.part))
    (contents : ((value.withBytes swapped).pieceAt before other).data.bytes = other.2) :
    (value.withBytes swapped).pieceAt before other = (value.pieceAt front piece).withBytes other.2 := by
  have stop : other.part.stop (layoutEnd 0 (before.map Piece.part)) =
      piece.part.stop (layoutEnd 0 (before.map Piece.part)) := by
    rw [Part.stop, Part.stop, Piece.part, Piece.part, type, length]
  rw [Serialised.pieceAt, stop, ← type] at contents ⊢
  rw [Serialised.pieceAt, ends]
  simp only [Serialised.childAt, Serialised.withBytes] at contents ⊢
  split
  case isTrue forward =>
    rw [if_pos forward] at contents
    cases data : value.data with
    | null size => rfl
    | span address own =>
      rw [data] at contents
      simp only [Data.withBytes, Data.range, Data.bytes] at contents ⊢
      rw [contents]
  case isFalse => rfl

theorem Value.Swaps.step {type : VariantType} {children : List Value} {bytes swapped : Bytes}
    (swaps : (Value.node type children).Swaps value.depth bytes swapped) (carries : value.Carries (type, bytes))
    (proper : value.Proper) (index : Nat) :
    (xvariantSerialisedGetChild value index = none ∧
        xvariantSerialisedGetChild (value.withBytes swapped) index = none) ∨
      ∃ child, ∃ w ∈ children, ∃ own their, xvariantSerialisedGetChild value index = some child ∧
        xvariantSerialisedGetChild (value.withBytes swapped) index = some (child.withBytes their) ∧
        w.Swaps child.depth own their ∧ child.Carries (w.type, own) ∧ child.Proper := by
  obtain ⟨-, length, pieces, others, all, assembled, others_assembled⟩ := swaps
  have own : value.type = type := carries.type
  subst own
  have otherCarries := carries.withBytes length
  have otherProper := proper.withBytes (length.trans carries.size.symm)
  have otherAssembled : Assembled (value.withBytes swapped).depth (value.withBytes swapped).type others swapped :=
    others_assembled
  have count : others.length = pieces.length := by
    have lengths := congrArg List.length all.shape
    rwa [List.length_map, List.length_map, eq_comm] at lengths
  rcases Nat.lt_or_ge index pieces.length with inside | outside
  · obtain ⟨front, piece, back, shape, place⟩ : ∃ front piece back, pieces = front ++ piece :: back ∧ front.length = index :=
      ⟨pieces.take index, pieces[index], pieces.drop (index + 1), by simp, by simp [Nat.le_of_lt inside]⟩
    subst place
    obtain ⟨found, childProper, childCarries⟩ := assembled.getChild proper carries shape
    obtain ⟨before, other, after, otherShape, shapes, w, member, type, otherType, swaps⟩ := all.split shape
    obtain ⟨otherFound, -, otherChild⟩ := otherAssembled.getChild otherProper otherCarries otherShape
    have same : front.length = before.length := by
      have lengths := congrArg List.length shapes
      rwa [List.length_map, List.length_map] at lengths
    have ends := (layoutEnds_congr (parts_of_shape shapes) 0).2
    refine Or.inr ⟨value.pieceAt front piece, w, member, piece.2, other.2, found, ?_, swaps, ?_, childProper⟩
    · rw [same, otherFound]
      exact congrArg some (pieceAt_withBytes (type.trans otherType.symm) swaps.length ends otherChild.bytes)
    · rw [← type]
      exact childCarries
  · obtain ⟨counted, -⟩ := assembled.holds proper.check carries
    obtain ⟨otherCounted, -⟩ := otherAssembled.holds otherProper.check otherCarries
    left
    rw [xvariantSerialisedGetChild, xvariantSerialisedGetChild, counted, otherCounted, count]
    simp only [some_bind]
    rw [if_neg (Nat.not_lt.mpr outside), if_neg (Nat.not_lt.mpr outside)]
    exact ⟨rfl, rfl⟩

theorem Value.Swaps.follow {v : Value} {bytes swapped : Bytes} (swaps : v.Swaps value.depth bytes swapped)
    (carries : value.Carries (v.type, bytes)) (proper : value.Proper) (path : List Nat) :
    (value.follow path = none ∧ (value.withBytes swapped).follow path = none) ∨
      ∃ reached, ∃ w : Value, ∃ own their, value.follow path = some reached ∧
        (value.withBytes swapped).follow path = some (reached.withBytes their) ∧ w.Swaps reached.depth own their ∧
        reached.Carries (w.type, own) ∧ reached.Proper := by
  -- over the path: the child of a swapped value is the child of the value, swapped
  induction path generalizing v value bytes swapped with
  | nil => exact Or.inr ⟨value, v, bytes, swapped, rfl, rfl, swaps, carries, proper⟩
  | cons index path ih =>
    cases v with
    | leaf b own =>
      have type : value.type = .basic b := carries.type
      left
      rw [Serialised.follow, Serialised.follow, getChild_basic type,
        getChild_basic (show (value.withBytes swapped).type = .basic b from type)]
      exact ⟨rfl, rfl⟩
    | node type children =>
      rcases swaps.step carries proper index with ⟨own, their⟩ | ⟨child, w, -, own, their, found, other, inner⟩
      · left
        rw [Serialised.follow, Serialised.follow, own, their]
        exact ⟨rfl, rfl⟩
      · rw [Serialised.follow, Serialised.follow, found, other, Option.bind_some, Option.bind_some]
        exact ih inner.1 inner.2.1 inner.2.2

/-- Without a type that has children there is no container. -/
theorem Value.Swaps.leaf {w : Value} {b : Basic} {depth : Nat} {own their : Bytes} (swaps : w.Swaps depth own their)
    (type : w.type = .basic b) : their = b.swap own := by
  cases w with
  | leaf basic bytes =>
    cases type
    obtain ⟨-, -, rfl, rfl⟩ := swaps
    rfl
  | node own children =>
    obtain ⟨-, -, pieces, others, -, assembled, -⟩ := swaps
    subst type
    have admitted := assembled.admitted
    cases admitted

theorem Value.Swaps.counted {w : Value} {own their : Bytes} (swaps : w.Swaps value.depth own their)
    (carries : value.Carries (w.type, own)) (proper : value.Proper) :
    xvariantSerialisedNChildren (value.withBytes their) = xvariantSerialisedNChildren value := by
  have type : value.type = w.type := carries.type
  have otherCarries := carries.withBytes swaps.length
  have otherProper := proper.withBytes (swaps.length.trans carries.size.symm)
  cases w with
  | leaf b bytes =>
    have same : (value.withBytes their).type = .basic b := type
    rw [xvariantSerialisedNChildren, xvariantSerialisedNChildren, if_pos proper.check, if_pos otherProper.check, same, type]
    rfl
  | node container children =>
    obtain rfl : value.type = container := type
    obtain ⟨-, length, pieces, others, all, assembled, others_assembled⟩ := swaps
    have otherAssembled : Assembled (value.withBytes their).depth (value.withBytes their).type others their :=
      others_assembled
    obtain ⟨counted, -⟩ := assembled.holds proper.check carries
    obtain ⟨otherCounted, -⟩ := otherAssembled.holds otherProper.check otherCarries
    have lengths := congrArg List.length all.shape
    rw [List.length_map, List.length_map] at lengths
    rw [counted, otherCounted, lengths]

/-- A byte that differs belongs to a number. -/
theorem Value.Swaps.others {v : Value} {bytes swapped : Bytes} (swaps : v.Swaps value.depth bytes swapped)
    (carries : value.Carries (v.type, bytes)) (proper : value.Proper) {position : Nat}
    (outside : ∀ path leaf b, value.follow path = some leaf → leaf.type = .basic b → b.info.alignment ≠ 0 →
      ¬(leaf.data.address ≤ value.data.address + position ∧
        value.data.address + position < leaf.data.address + leaf.size)) :
    swapped[position]? = bytes[position]? := by
  induction v generalizing value bytes swapped position with
  | leaf basic own =>
    obtain ⟨-, -, rfl, rfl⟩ := swaps
    rw [Basic.swap]
    split
    case isTrue => rfl
    case isFalse number =>
      have none_inside := outside [] value basic rfl carries.type number
      have size : value.size = bytes.length := carries.size
      rw [List.getElem?_eq_none (by rw [List.length_reverse]; omega), List.getElem?_eq_none (by omega)]
  | node container children ih =>
    obtain rfl : value.type = container := carries.type
    obtain ⟨-, length, pieces, others, all, assembled, others_assembled⟩ := swaps
    have form := assembled.form.trans (assemble_eq assembled.admitted assembled.sized)
    have otherForm := others_assembled.form.trans (assemble_eq others_assembled.admitted others_assembled.sized)
    have parts := parts_of_shape all.shape
    have ends := (layoutEnds_congr parts 0).2
    have ownLength := length_layout 0 (pieces.map Piece.part)
    have otherLength := length_layout 0 (others.map Piece.part)
    rw [form, otherForm, length, ← assembleTail_congr all.shape]
    rcases Nat.lt_or_ge position (layout 0 (pieces.map Piece.part)).length with inside | behind
    · rw [List.getElem?_append_left (by omega), List.getElem?_append_left inside]
      rcases getElem?_layout parts 0 position with equal | found
      · exact equal.symm
      · obtain ⟨front, part, back, before, other, after, place, shape, otherShape, count, below, where_, own, their⟩ := found
        rw [own, their]
        obtain ⟨fronts, rest, rfl, rfl, rest_shape⟩ := List.map_eq_append_iff.mp shape
        obtain ⟨piece, backs, rfl, rfl, rfl⟩ := List.map_eq_cons_iff.mp rest_shape
        obtain ⟨befores, others', afters, rfl, shapes, w, member, type, -, swaps⟩ := all.split rfl
        obtain ⟨got, childProper, childCarries⟩ := assembled.getChild proper carries rfl
        -- The two parts stand at one place of the two lists.
        obtain rfl : Piece.part others' = other := by
          have lengths := congrArg List.length shapes
          simp only [List.length_map] at lengths count
          have entry := congrArg (·[before.length]?) otherShape
          simpa [← count, ← lengths] using entry
        have address : (value.pieceAt fronts piece).data.address = value.data.address +
            roundUp (layoutEnd 0 (fronts.map Piece.part)) piece.1.alignment := by
          have some_byte : bytes ≠ [] := by
            rintro rfl
            have size := congrArg List.length form
            rw [List.length_append] at size
            simp only [List.length_nil] at size
            omega
          obtain ⟨address, span⟩ := carries.backed some_byte
          have forward : roundUp (layoutEnd 0 (fronts.map Piece.part)) piece.1.alignment <
              piece.part.stop (layoutEnd 0 (fronts.map Piece.part)) := by
            exact Nat.lt_add_of_pos_right (Nat.zero_lt_of_lt below)
          rw [Serialised.pieceAt, Serialised.childAt]
          rw [if_pos forward, span]
          rfl
        refine @ih w member (value.pieceAt fronts piece) piece.2 others'.2 swaps (type ▸ childCarries) childProper place ?_
        intro path leaf b found basic number
        have reached : value.follow (fronts.length :: path) = some leaf := by
          rw [Serialised.follow, got, Option.bind_some, found]
        have none_inside := outside _ leaf b reached basic number
        change 0 + position = roundUp (layoutEnd 0 (fronts.map Piece.part)) piece.1.alignment + place at where_
        omega
    · rw [List.getElem?_append_right (by omega), List.getElem?_append_right behind]
      congr 1
      omega

end Paths

theorem Value.Swaps.swapped {value : Serialised} {v : Value} {bytes swapped : Bytes}
    (swaps : v.Swaps value.depth bytes swapped) (carries : value.Carries (v.type, bytes)) (proper : value.Proper) :
    value.Swapped (value.withBytes swapped) := by
  have otherCarries := carries.withBytes swaps.length
  constructor
  · intro path
    rcases swaps.follow carries proper path with ⟨none_own, none_other⟩ | ⟨reached, w, own, their, found, other, inner⟩
    · rw [none_own, none_other]
    · obtain ⟨swaps, carries, -⟩ := inner
      obtain ⟨size, null, address⟩ := Serialised.withBytes_place (swaps.length.trans carries.size.symm)
      rw [found, other, Option.map_some, Option.map_some, Serialised.place, Serialised.place, size, null, address]
      rfl
  · intro path
    rcases swaps.follow carries proper path with ⟨none_own, none_other⟩ | ⟨reached, w, own, their, found, other, inner⟩
    · rw [none_own, none_other]
    · rw [found, other, Option.bind_some, Option.bind_some]
      exact inner.1.counted inner.2.1 inner.2.2
  · intro path leaf b found basic
    rcases swaps.follow carries proper path with ⟨none_own, -⟩ | ⟨reached, w, own, their, same, other, inner⟩
    · rw [found] at none_own
      cases none_own
    · obtain rfl : leaf = reached := Option.some.inj (found.symm.trans same)
      obtain ⟨swaps, carries, -⟩ := inner
      have type : leaf.type = w.type := carries.type
      have contents : leaf.data.bytes = own := carries.bytes
      refine ⟨_, other, ?_⟩
      rw [(carries.withBytes swaps.length).bytes, contents]
      exact swaps.leaf (type.symm.trans basic)
  · intro position outside
    have own : value.data.bytes = bytes := carries.bytes
    have their : (value.withBytes swapped).data.bytes = swapped := otherCarries.bytes
    rw [own, their]
    exact swaps.others carries proper outside

/-- Byteswapping data in normal form reverses the numbers and changes nothing else; swapping again undoes it. -/
theorem xvariantSerialisedByteswap_swapped {value : Serialised} (proper : value.Proper)
    (placed : value.data.address + value.size ≤ wordSize) (present : value.data.address = 0 → value.data.bytes = [])
    {memory : Nat → UInt8} (normal : xvariantSerialisedIsNormal memory value = some true) {fuel : Nat}
    (enough : maxRecursionDepth - value.depth ≤ fuel) :
    ∃ swapped, xvariantSerialisedByteswap fuel value = some swapped ∧ swapped.length = value.data.bytes.length ∧
      (∀ memory, xvariantSerialisedIsNormal memory (value.withBytes swapped) = some true) ∧
      value.Swapped (value.withBytes swapped) ∧
      xvariantSerialisedByteswap fuel (value.withBytes swapped) = some value.data.bytes := by
  have carries : value.Carries (value.type, value.data.bytes) := by
    refine ⟨rfl, rfl, Data.size_bytes ?_, placed, present⟩
    by_cases fixed : value.type.fixedSize = 0
    · exact proper.backed fixed
    · right
      by_contra null
      exact isNormal_null (by simpa using null) fixed (proper.sized fixed) normal
  obtain ⟨v, type, represents⟩ := represents_of_isNormal carries proper.sized normal
  obtain ⟨swapped, swaps⟩ := represents.exists_swaps
  rw [← type] at carries
  have otherCarries : (value.withBytes swapped).Carries (v.byteswap.type, swapped) :=
    v.type_byteswap ▸ carries.withBytes swaps.length
  have otherProper := proper.withBytes (swaps.length.trans carries.size.symm)
  have back : v.byteswap.Swaps (value.withBytes swapped).depth swapped value.data.bytes := swaps.symm
  exact ⟨swapped, xvariantSerialisedByteswap_eq swaps carries proper enough, swaps.length,
    fun memory => isNormal_of_represents memory back.represents otherCarries, swaps.swapped carries proper,
    xvariantSerialisedByteswap_eq back otherCarries otherProper enough⟩

theorem xvariantSerialisedByteswap_shortVariant : ∃ swapped,
    xvariantSerialisedByteswap 128 (shortVariant 8) = some swapped ∧ swapped.length = 4 ∧
      (∀ memory, xvariantSerialisedIsNormal memory ((shortVariant 8).withBytes swapped) = some true) ∧
      (shortVariant 8).Swapped ((shortVariant 8).withBytes swapped) ∧
      xvariantSerialisedByteswap 128 ((shortVariant 8).withBytes swapped) = some [1, 2, 0, ascii 'n'] :=
  xvariantSerialisedByteswap_swapped ((Serialised.proper_iff _).mpr (by decide)) (by decide) (by decide)
    (show xvariantSerialisedIsNormal (fun _ => 0) _ = some true by decide) (by decide)

example : xvariantSerialisedByteswap 128 (shortVariant 8) = some [2, 1, 0, ascii 'n'] := by decide

end Xpl.Variant
