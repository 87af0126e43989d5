import Xpl.Variant.Acceptance
import Xpl.Variant.RoundTrip

/-! The normal form of a value.

The check accepts exactly the representations of values, and the serialiser writes one of
them for every value.
-/

set_option autoImplicit false

namespace Xpl.Variant
open Xpl.Library
variable {value : Serialised} {bytes : Bytes}

theorem Serialised.Carries.fits {piece : Piece} (carries : value.Carries piece) :
    piece.2.length < wordSize := by
  have placed := carries.placed
  rw [carries.size] at placed
  by_cases zero : value.data.address = 0
  · rw [carries.null zero]
    exact Nat.two_pow_pos 64
  · omega

def Serialised.FixedSize (value : Serialised) : Prop := value.type.fixedSize ≠ 0 → value.size = value.type.fixedSize

section Containers
variable {memory : Nat → UInt8} {normal : Serialised → Option Bool} {value : Serialised} {bytes : Bytes}

theorem gvsIsNormal_tuple (tuple : value.type.isTuple = true) :
    gvsIsNormal memory normal value = gvsTupleIsNormal memory normal value := by
  unfold gvsIsNormal
  cases type : value.type with
  | tuple items => rfl
  | dictEntry key item => rfl
  | _ =>
    rw [type] at tuple
    cases tuple

theorem gvsIsNormal_sound (container : ∀ b, value.type ≠ .basic b) (carries : value.Carries (value.type, bytes))
    (sizes : value.FixedSize) (accepted : gvsIsNormal memory normal value = some true) :
    ∃ pieces, Assembled value.depth value.type pieces bytes ∧ ∀ piece ∈ pieces, ChecksPiece normal value piece := by
  have size : value.size = bytes.length := carries.size
  have fits : bytes.length < wordSize := carries.fits
  -- tuples and dictionary entries are decoded by the same functions
  cases tuple : value.type.isTuple with
  | true =>
    rw [gvsIsNormal_tuple tuple] at accepted
    obtain ⟨pieces, types, each, sized, form⟩ :=
      tuple_sound carries fits tuple (fun fixed => size ▸ sizes fixed) accepted
    refine ⟨pieces, ⟨(VariantType.admits_tuple tuple).mpr types, sized, ?_, fits, ?_, ?_⟩, each⟩
    · intro variant
      rw [variant] at tuple
      cases tuple
    · intro element array
      rw [array] at tuple
      cases tuple
    · rw [assemble_tuple tuple]
      exact form
  | false =>
    cases type : value.type with
    | basic b => exact absurd type (container b)
    | variant =>
      simp only [gvsIsNormal, type] at accepted
      obtain ⟨piece, form, checks, readable, sized⟩ := variant_sound carries accepted
      refine ⟨[piece], ⟨rfl, ?_, ?_, fits, ?_, ?_⟩, ?_⟩
      · exact fun other member => List.mem_singleton.mp member ▸ sized
      · exact fun _ other member => List.mem_singleton.mp member ▸ readable
      · exact fun element array => by cases array
      · simpa [assemble] using form
      · exact fun other member => List.mem_singleton.mp member ▸ checks
    | maybe element =>
      have nothing : bytes = [] → ∃ pieces, Assembled value.depth (.maybe element) pieces bytes ∧
          ∀ piece ∈ pieces, ChecksPiece normal value piece := by
        rintro rfl
        refine ⟨[], ⟨rfl, ?_, ?_, fits, ?_, rfl⟩, ?_⟩
        all_goals simp [Sized]
      simp only [gvsIsNormal, type] at accepted
      split at accepted
      case isTrue fixed =>
        rcases fixedMaybe_sound carries accepted with empty | ⟨length, checks⟩
        · exact nothing empty
        · refine ⟨[(element, bytes)], ⟨by simp [VariantType.admits], ?_, ?_, fits, ?_, ?_⟩, ?_⟩
          · exact fun other member _ => List.mem_singleton.mp member ▸ length
          · exact fun variant => by cases variant
          · exact fun other array => by cases array
          · simp [assemble, fixed]
          · exact fun other member => List.mem_singleton.mp member ▸ checks
      case isFalse varies =>
        rcases variableMaybe_sound carries accepted with empty | ⟨inner, form, checks⟩
        · exact nothing empty
        · refine ⟨[(element, inner)], ⟨by simp [VariantType.admits], ?_, ?_, fits, ?_, ?_⟩, ?_⟩
          · intro other member fixed
            rw [List.mem_singleton.mp member] at fixed
            exact absurd fixed varies
          · exact fun variant => by cases variant
          · exact fun other array => by cases array
          · simpa [assemble, varies] using form
          · exact fun other member => List.mem_singleton.mp member ▸ checks
    | array element =>
      simp only [gvsIsNormal, type] at accepted
      split at accepted
      case isTrue fixed =>
        obtain ⟨pieces, form, each⟩ := fixedArray_sound carries fixed accepted
        refine ⟨pieces, ⟨?_, ?_, ?_, fits, ?_, ?_⟩, fun piece member => (each piece member).2.2⟩
        · simpa [VariantType.admits] using fun type bytes member => (each (type, bytes) member).1
        · intro piece member _
          obtain ⟨same, length, -⟩ := each piece member
          rw [same, length]
        · exact fun variant => by cases variant
        · intro _ _ some_piece empty
          obtain ⟨piece, member⟩ := List.exists_mem_of_ne_nil pieces some_piece
          have none_byte : piece.2 = [] := List.flatMap_eq_nil_iff.mp (form ▸ empty) piece member
          have length := (each piece member).2.1
          rw [none_byte] at length
          exact fixed length.symm
        · simpa [assemble, fixed] using form
      case isFalse varies =>
        obtain ⟨pieces, each, counted, form⟩ := variableArray_sound fits carries accepted
        refine ⟨pieces, ⟨?_, ?_, ?_, fits, fun _ _ => counted, ?_⟩, fun piece member => (each piece member).2⟩
        · simpa [VariantType.admits] using fun type bytes member => (each (type, bytes) member).1
        · exact fun piece member fixed => absurd ((each piece member).1 ▸ fixed) varies
        · exact fun variant => by cases variant
        · rw [assemble, if_neg varies]
          exact form
    | tuple items =>
      rw [type] at tuple
      cases tuple
    | dictEntry key item =>
      rw [type] at tuple
      cases tuple

/-- The check of a container whose children pass. -/
theorem gvsIsNormal_complete {pieces : List Piece} (assembled : Assembled value.depth value.type pieces bytes)
    (carries : value.Carries (value.type, bytes)) (passes : ∀ piece ∈ pieces, PassesPiece normal value piece) :
    gvsIsNormal memory normal value = some true := by
  have sizes := assembled.length_fixed
  obtain ⟨admitted, sized, readable, fits, counted, form⟩ := assembled
  cases tuple : value.type.isTuple with
  | true =>
    rw [assemble_tuple tuple] at form
    rw [gvsIsNormal_tuple tuple]
    exact tuple_complete carries fits tuple ((VariantType.admits_tuple tuple).mp admitted) sized passes form sizes
  | false =>
    cases type : value.type with
    | basic b =>
      rw [type] at admitted
      cases admitted
    | variant =>
      rw [type] at admitted form
      simp only [VariantType.admits, List.length_map, decide_eq_true_eq] at admitted
      obtain ⟨piece, rfl⟩ := List.length_eq_one_iff.mp admitted
      have single : bytes = piece.2 ++ 0 :: piece.1.string := by simpa [assemble] using form
      simp only [gvsIsNormal, type]
      exact variant_complete (single ▸ carries) (readable type piece List.mem_cons_self)
        (sized piece List.mem_cons_self) (passes piece List.mem_cons_self)
    | maybe element =>
      rw [type] at admitted form
      simp only [VariantType.admits, Bool.or_eq_true, decide_eq_true_eq, List.map_eq_nil_iff] at admitted
      simp only [gvsIsNormal, type]
      rcases admitted with rfl | one
      · have empty : value.size = 0 := by rw [carries.size, show bytes = [] from form]; rfl
        split
        · rw [gvsFixedSizedMaybeIsNormal, empty, if_neg (Nat.lt_irrefl 0)]
        · rw [gvsVariableSizedMaybeIsNormal, if_pos empty]
      · obtain ⟨piece, rest, rfl, rfl, none_rest⟩ := List.map_eq_cons_iff.mp one
        rw [List.map_eq_nil_iff] at none_rest
        subst none_rest
        have checks := passes piece List.mem_cons_self
        split
        case isTrue fixed =>
          have single : bytes = piece.2 := by simpa [assemble, fixed] using form
          rw [single] at carries
          exact fixedMaybe_complete carries fixed (sized piece List.mem_cons_self fixed) checks
        case isFalse varies =>
          have single : bytes = piece.2 ++ [0] := by simpa [assemble, varies] using form
          exact variableMaybe_complete (single ▸ carries) checks
    | array element =>
      rw [type] at admitted form
      have alike : ∀ piece ∈ pieces, piece.1 = element := by simpa [VariantType.admits] using admitted
      simp only [gvsIsNormal, type]
      split
      case isTrue fixed =>
        rw [assemble, if_pos fixed] at form
        apply fixedArray_complete (form ▸ carries) fixed _ passes
        intro piece member
        have same := alike piece member
        exact ⟨same, same ▸ sized piece member (same ▸ fixed)⟩
      case isFalse varies =>
        rw [assemble, if_neg varies] at form
        exact variableArray_complete fits carries (fun piece member => ⟨alike piece member, passes piece member⟩)
          (counted element type) form
    | tuple items =>
      rw [type] at tuple
      cases tuple
    | dictEntry key item =>
      rw [type] at tuple
      cases tuple

end Containers

theorem Basic.accepts_nil (b : Basic) : b.accepts [] = false := by
  cases b <;> rfl

theorem basicIsNormal_iff {b : Basic} (carries : value.Carries (.basic b, bytes))
    (sizes : b.info.fixedSize ≠ 0 → bytes.length = b.info.fixedSize) :
    basicIsNormal b value.data = some true ↔ b.accepts bytes = true := by
  have same : value.data.bytes = bytes := carries.bytes
  unfold basicIsNormal
  split
  case isTrue null =>
    have empty := carries.size_of_null null
    rw [← Serialised.size, carries.size, List.length_eq_zero_iff] at empty
    simp only at empty
    simp [empty, Basic.accepts_nil]
  case isFalse backed =>
    cases b
    case boolean =>
      have length : bytes.length = 1 := sizes (by decide)
      obtain ⟨byte, rfl⟩ := List.length_eq_one_iff.mp length
      obtain ⟨address, data⟩ := carries.backed (List.cons_ne_nil _ _)
      have small : byte < 2 ↔ byte = 0 ∨ byte = 1 := by
        simp only [UInt8.lt_iff_toNat_lt, ← UInt8.toNat_inj]
        change byte.toNat < 2 ↔ byte.toNat = 0 ∨ byte.toNat = 1
        omega
      simp [data, Data.byte, Basic.accepts, small]
    case string => simp [Basic.accepts, same]
    case objectPath => simp [Basic.accepts, same]
    case signature => simp [Basic.accepts, same]
    all_goals simpa [Basic.accepts] using sizes (by decide)

theorem represents_of_isNormal {memory : Nat → UInt8}
    (carries : value.Carries (value.type, bytes)) (sizes : value.FixedSize)
    (accepted : xvariantSerialisedIsNormal memory value = some true) :
    ∃ v : Value, v.type = value.type ∧ v.Represents value.depth bytes := by
  rw [xvariantSerialisedIsNormal] at accepted
  generalize count : maxRecursionDepth - value.depth = levels at accepted
  -- over the levels left: the parts that passed represent values one level deeper
  induction levels generalizing value bytes with
  | zero => cases accepted
  | succ levels ih =>
    have below : value.depth < maxRecursionDepth := by omega
    by_cases basic : ∃ b, value.type = .basic b
    · obtain ⟨b, type⟩ := basic
      simp only [isNormalWithin, gvsIsNormal, type] at accepted carries
      have length : b.info.fixedSize ≠ 0 → bytes.length = b.info.fixedSize := by
        rw [Serialised.FixedSize, type, carries.size] at sizes
        exact sizes
      exact ⟨.leaf b bytes, type.symm, below, (basicIsNormal_iff carries length).mp accepted, rfl⟩
    · obtain ⟨pieces, assembled, each⟩ :=
        gvsIsNormal_sound (fun b type => basic ⟨b, type⟩) carries sizes accepted
      have found : ∀ piece ∈ pieces, ∃ child : Value, piece.1 = child.type ∧
          child.Represents (value.depth + 1) piece.2 := by
        intro piece member
        obtain ⟨child, own, depth, passed⟩ := each piece member
        have type : child.type = piece.1 := own.type
        obtain ⟨v, same, represents⟩ := @ih child piece.2 (type.symm ▸ own)
          (fun fixed => by rw [own.size, type]; exact assembled.sized piece member (type ▸ fixed)) (by omega) passed
        exact ⟨v, by rw [same, type], depth ▸ represents⟩
      obtain ⟨children, all⟩ := Value.exists_representsAll found
      exact ⟨.node value.type children, rfl, below, pieces, all, assembled⟩

theorem isNormal_of_represents (memory : Nat → UInt8) {v : Value}
    (represents : v.Represents value.depth bytes) (carries : value.Carries (v.type, bytes)) :
    xvariantSerialisedIsNormal memory value = some true := by
  rw [xvariantSerialisedIsNormal]
  have same : value.type = v.type := carries.type
  -- over the value, whose members are represented one level deeper
  induction v generalizing value bytes with
  | leaf basic own =>
    obtain ⟨below, accepted, rfl⟩ := represents
    obtain ⟨levels, count⟩ : ∃ levels, maxRecursionDepth - value.depth = levels + 1 :=
      ⟨maxRecursionDepth - value.depth - 1, by omega⟩
    rw [count, isNormalWithin, gvsIsNormal, same]
    exact (basicIsNormal_iff carries (Basic.accepts_fixed accepted)).mpr accepted
  | node type children ih =>
    obtain ⟨below, pieces, all, assembled⟩ := represents
    obtain ⟨levels, count⟩ : ∃ levels, maxRecursionDepth - value.depth = levels + 1 :=
      ⟨maxRecursionDepth - value.depth - 1, by omega⟩
    rw [count, isNormalWithin]
    have own : value.type = type := same
    subst own
    apply gvsIsNormal_complete assembled carries
    intro piece member child childCarries depth
    obtain ⟨v, among, type, represents⟩ := all.of_piece member
    have below : levels = maxRecursionDepth - child.depth := by omega
    rw [below]
    rw [← depth] at represents
    have carried : child.Carries (v.type, piece.2) := type ▸ childCarries
    exact ih v among represents carried carried.type

/-- The serialiser writes every byte of a buffer of the needed size, as the layout of the
format has it, and what it writes is in normal form. -/
theorem serialise_isNormal (v : Value) (valid : v.wellFormed = true) (shallow : v.nesting < maxRecursionDepth)
    (fits : v.encode.length < wordSize) (base : Nat)
    (allocated : Allocated base v.encode.length v.type.alignment) (memory : Nat → UInt8) :
    v.toInstance.size = some v.encode.length ∧
      ∃ buffer, xvariantEnsureSerialised v base = some buffer ∧ buffer.contents = v.encode.map some ∧
        xvariantSerialisedIsNormal memory { type := v.type, data := Data.ofBlock base v.encode, depth := 0 } =
          some true := by
  have writable : v.Writable := ⟨valid, fits⟩
  obtain ⟨size, buffer, written, contents⟩ := xvariantEnsureSerialised_eq writable allocated.aligned
    (fun zero => List.length_eq_zero_iff.mp (allocated.null zero))
  have represents : v.Represents 0 v.encode := Value.represents_encode writable (by omega)
  exact ⟨size, buffer, written, contents, isNormal_of_represents memory represents (carries_ofBlock allocated 0)⟩

theorem serialise_isNormal_sample :
    sample.toInstance.size = some sample.encode.length ∧
      ∃ buffer, xvariantEnsureSerialised sample 16 = some buffer ∧ buffer.contents = sample.encode.map some ∧
        xvariantSerialisedIsNormal (fun _ => 0)
          { type := sample.type, data := Data.ofBlock 16 sample.encode, depth := 0 } = some true :=
  serialise_isNormal sample (by decide) (by decide) (by decide) 16 ⟨by decide, by decide, by decide⟩ _

end Xpl.Variant
