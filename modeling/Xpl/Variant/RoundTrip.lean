import Xpl.Variant.Reading
import Xpl.Variant.Writing

/-! Reading back what was written. -/

set_option autoImplicit false

namespace Xpl.Variant
open Xpl.Library
variable {value : Serialised}

/-- The tree that the two reading functions show, down to a number of levels. -/
def readBack : Nat → Serialised → Option Value
  | 0, _ => none
  | fuel + 1, value =>
    match value.type with
    | .basic basic => some (.leaf basic value.data.bytes)
    | _ => do
      let length ← xvariantSerialisedNChildren value
      let children ← (List.range length).mapM fun index => do
        let child ← xvariantSerialisedGetChild value index
        readBack fuel child
      return .node value.type children

theorem mapM_range {α : Type} (read : Nat → Option α) (items : List α)
    (each : ∀ front item back, items = front ++ item :: back → read front.length = some item) :
    (List.range items.length).mapM read = some items := by
  have run : ∀ (rest front : List α), items = front ++ rest →
      (List.range' front.length rest.length).mapM read = some rest := by
    intro rest
    induction rest with
    | nil => exact fun _ _ => rfl
    | cons item rest ih =>
      intro front shape
      have next := ih (front ++ [item]) (by rw [shape]; simp)
      rw [List.length_append, List.length_singleton] at next
      rw [List.length_cons, List.range'_succ, List.mapM_cons, each front item rest shape, Option.bind_eq_bind,
        Option.bind_some, next]
      rfl
  rw [List.range_eq_range']
  exact run items [] rfl

theorem readBack_container (container : ∀ b, value.type ≠ .basic b) (fuel : Nat) :
    readBack (fuel + 1) value = (do
      let length ← xvariantSerialisedNChildren value
      let children ← (List.range length).mapM fun index => do
        let child ← xvariantSerialisedGetChild value index
        readBack fuel child
      return .node value.type children) := by
  rw [readBack]
  split
  case h_1 b basic => exact absurd basic (container b)
  case h_2 => rfl

theorem Serialised.Holds.getChild {pieces : List Piece} (holds : value.Holds pieces)
    (proper : value.Proper) (container : ∀ b, value.type ≠ .basic b) {front back : List Piece} {piece : Piece}
    (shape : pieces = front ++ piece :: back) :
    ∃ child, xvariantSerialisedGetChild value front.length = some child ∧ child.Carries piece ∧
      child.depth = value.depth + 1 ∧ child.Proper := by
  obtain ⟨length, counted, each⟩ := xvariantSerialised_children proper container
  obtain ⟨child, decoded, carries, depth⟩ := holds.2 front piece back shape
  rw [holds.1, Option.some.injEq] at counted
  obtain ⟨other, found, isChild⟩ := each front.length (by rw [← counted, shape]; simp)
  have same : other = child := by
    rw [xvariantSerialisedGetChild, holds.1] at found
    simp only [some_bind, decoded] at found
    split at found
    case isTrue =>
      split at found
      case isTrue => exact (Option.some.inj found).symm
      case isFalse => cases found
    case isFalse => cases found
  subst same
  exact ⟨other, found, carries, depth, isChild.proper⟩

theorem readBack_of_represents {v : Value} {bytes : Bytes}
    (represents : v.Represents value.depth bytes) (carries : value.Carries (v.type, bytes)) (proper : value.Proper)
    {fuel : Nat} (enough : maxRecursionDepth - value.depth ≤ fuel) : readBack fuel value = some v := by
  -- over the value; the fuel is the distance to the depth limit
  induction v generalizing value bytes fuel with
  | leaf basic own =>
    obtain ⟨below, -, rfl⟩ := represents
    obtain ⟨levels, rfl⟩ : ∃ levels, fuel = levels + 1 := ⟨fuel - 1, by omega⟩
    rw [readBack, carries.type]
    exact congrArg (fun stored => some (Value.leaf basic stored)) carries.bytes
  | node type children ih =>
    obtain ⟨below, pieces, all, assembled⟩ := represents
    obtain ⟨levels, rfl⟩ : ∃ levels, fuel = levels + 1 := ⟨fuel - 1, by omega⟩
    have same : value.type = type := carries.type
    have container : ∀ b, value.type ≠ .basic b := by
      intro b basic
      have admitted := assembled.admitted
      rw [← same, basic] at admitted
      cases admitted
    have holds : value.Holds pieces :=
      Assembled.holds (same.symm ▸ assembled) proper.check (same.symm ▸ carries)
    have lengths : pieces.length = children.length := ((Value.representsAll_iff _ _ _).mp all).length_eq.symm
    rw [readBack_container container, holds.1, some_bind, lengths, mapM_range _ children,
      same]
    · rfl
    · intro front child back shape
      subst shape
      obtain ⟨before, piece, after, split, place, childType, represents⟩ := all.split
      obtain ⟨found, get, childCarries, depth, childProper⟩ := holds.getChild proper container split
      rw [← place, get, some_bind]
      apply @ih child (by simp) found piece.2
      · rw [depth]
        exact represents
      · rw [← childType]
        exact childCarries
      · exact childProper
      · omega

/-- A block that an allocator returns: aligned, inside the address space, and `NULL` only
without bytes. -/
structure Allocated (base size alignment : Nat) : Prop where
  aligned : alignment + 1 ∣ base
  placed : base + size ≤ wordSize
  null : base = 0 → size = 0

/-- The data pointer of an instance in serialised form. -/
def Data.ofBlock (base : Nat) (bytes : Bytes) : Data :=
  if base = 0 then .null bytes.length else .span base bytes

theorem carries_ofBlock {base : Nat} {bytes : Bytes} {type : VariantType} {alignment : Nat}
    (allocated : Allocated base bytes.length alignment) (depth : Nat) :
    Serialised.Carries { type := type, data := Data.ofBlock base bytes, depth := depth } (type, bytes) := by
  by_cases zero : base = 0
  · have empty : bytes = [] := List.length_eq_zero_iff.mp (allocated.null zero)
    subst zero empty
    exact ⟨rfl, rfl, rfl, Nat.zero_le _, fun _ => rfl⟩
  · have span : Data.ofBlock base bytes = .span base bytes := if_neg zero
    refine ⟨rfl, by rw [span]; rfl, by rw [Serialised.size, span]; rfl, ?_, ?_⟩
    · rw [Serialised.size, span]
      exact allocated.placed
    · intro null
      rw [span] at null
      exact absurd null zero

theorem proper_ofBlock {v : Value} {depth base : Nat} {bytes : Bytes} (represents : v.Represents depth bytes)
    (allocated : Allocated base bytes.length v.type.alignment) :
    Serialised.Proper { type := v.type, data := Data.ofBlock base bytes, depth := depth } := by
  have carries := @carries_ofBlock base bytes v.type _ allocated depth
  refine ⟨fun fixed => ?_, fun _ => ?_, ?_⟩
  · rw [carries.size]
    exact represents.length_fixed fixed
  · by_cases empty : bytes = []
    · left
      rw [carries.size, empty]
      rfl
    · right
      obtain ⟨address, span⟩ := carries.backed empty
      rw [span]
      rfl
  · simp only [Data.ofBlock]
    split
    · exact Nat.dvd_zero _
    · exact allocated.aligned

/-- Writing a value and reading the bytes back yields the same tree. -/
theorem serialise_readBack (v : Value) (valid : v.wellFormed = true) (shallow : v.nesting < maxRecursionDepth)
    (fits : v.encode.length < wordSize) (base : Nat)
    (allocated : Allocated base v.encode.length v.type.alignment) :
    ∃ size buffer bytes, v.toInstance.size = some size ∧ xvariantEnsureSerialised v base = some buffer ∧
      buffer.contents = bytes.map some ∧ bytes.length = size ∧
      readBack maxRecursionDepth { type := v.type, data := Data.ofBlock base bytes, depth := 0 } = some v := by
  have writable : v.Writable := ⟨valid, fits⟩
  obtain ⟨size, buffer, written, contents⟩ := xvariantEnsureSerialised_eq writable allocated.aligned
    (fun zero => List.length_eq_zero_iff.mp (allocated.null zero))
  have represents : v.Represents 0 v.encode := Value.represents_encode writable (by omega)
  refine ⟨_, buffer, v.encode, size, written, contents, rfl, ?_⟩
  exact readBack_of_represents represents (carries_ofBlock allocated 0) (proper_ofBlock represents allocated)
    (Nat.le_refl _)

/-- `("hi", <uint16 1>, [("k", true)])`. -/
def sample : Value :=
  .node (.tuple [.basic .string, .variant, .array (.dictEntry .string (.basic .boolean))])
    [.leaf .string [ascii 'h', ascii 'i', 0],
      .node .variant [.leaf .uint16 [1, 0]],
      .node (.array (.dictEntry .string (.basic .boolean)))
        [.node (.dictEntry .string (.basic .boolean)) [.leaf .string [ascii 'k', 0], .leaf .boolean [1]]]]

theorem serialise_readBack_sample :
    ∃ size buffer bytes, sample.toInstance.size = some size ∧ xvariantEnsureSerialised sample 16 = some buffer ∧
      buffer.contents = bytes.map some ∧ bytes.length = size ∧
      readBack maxRecursionDepth { type := sample.type, data := Data.ofBlock 16 bytes, depth := 0 } = some sample :=
  serialise_readBack sample (by decide) (by decide) (by decide) 16 ⟨by decide, by decide, by decide⟩

end Xpl.Variant
