import Xpl.Variant.Serialised

/-! Decoding untrusted data is safe from every value whose pointer is aligned for
its type: no read leaves the value, no assertion fails, and each child again is such
a value.
-/

set_option autoImplicit false

namespace Xpl.Variant
open Xpl.Library
variable {value : Serialised} {element : VariantType} {index : Nat}
variable {data : Data} {size position : Nat} {bytes : Bytes}

/-- What the documentation of `GVariantSerialised` asks of a value. -/
structure Serialised.Proper (value : Serialised) : Prop where
  sized : value.type.fixedSize ≠ 0 → value.size = value.type.fixedSize
  backed : value.type.fixedSize = 0 → value.size = 0 ∨ value.data.isNull = false
  aligned : value.type.alignment + 1 ∣ value.data.address

theorem VariantType.alignment_and (t : VariantType) : t.alignment &&& 7 = t.alignment := by
  rcases t.alignment_isAlignment with same | same | same | same <;> rw [same] <;> decide

theorem VariantType.alignment_le (t : VariantType) : t.alignment ≤ 7 := by
  rcases t.alignment_isAlignment with same | same | same | same <;> rw [same] <;> decide

theorem VariantType.and_address (t : VariantType) (address : Nat) :
    t.alignment &&& address = 0 ↔ t.alignment + 1 ∣ address := by
  rw [Nat.and_comm, t.alignment_isAlignment.isMask.and_eq_mod, Nat.dvd_iff_mod_eq_zero]

theorem serialisedCheck_iff (type : VariantType) (size : Nat) (isNull : Bool) (address : Nat) :
    serialisedCheck type size isNull address = true ↔
      (type.fixedSize ≠ 0 → size = type.fixedSize) ∧
      (type.fixedSize = 0 → size = 0 ∨ isNull = false) ∧
      (size ≤ type.alignment ∨ type.alignment + 1 ∣ address) := by
  simp only [serialisedCheck, type.alignment_and]
  split
  case isTrue wrong =>
    simp only [Bool.false_eq_true, false_iff]
    exact fun h => wrong.2 (h.1 wrong.1)
  case isFalse sized =>
    split
    case isTrue wrong =>
      simp only [Bool.false_eq_true, false_iff]
      exact fun h => wrong.2 (h.2.1 wrong.1)
    case isFalse backed =>
      rw [Bool.or_eq_true, decide_eq_true_eq, decide_eq_true_eq, VariantType.and_address]
      refine ⟨fun h => ⟨fun fixed => ?_, fun varies => ?_, h⟩, fun h => h.2.2⟩
      · by_contra wrong
        exact sized ⟨fixed, wrong⟩
      · by_contra wrong
        exact backed ⟨varies, wrong⟩

theorem xvariantSerialisedCheck_iff (value : Serialised) :
    xvariantSerialisedCheck value = true ↔
      (value.type.fixedSize ≠ 0 → value.size = value.type.fixedSize) ∧
      (value.type.fixedSize = 0 → value.size = 0 ∨ value.data.isNull = false) ∧
      (value.size ≤ value.type.alignment ∨ value.type.alignment + 1 ∣ value.data.address) :=
  serialisedCheck_iff value.type value.size value.data.isNull value.data.address

theorem Serialised.Proper.check (h : value.Proper) : xvariantSerialisedCheck value = true :=
  (xvariantSerialisedCheck_iff value).mpr ⟨h.sized, h.backed, Or.inr h.aligned⟩

theorem Serialised.proper_iff (value : Serialised) :
    value.Proper ↔ xvariantSerialisedCheck value = true ∧ value.type.alignment + 1 ∣ value.data.address := by
  constructor
  · exact fun h => ⟨h.check, h.aligned⟩
  · rintro ⟨checked, aligned⟩
    obtain ⟨sized, backed, -⟩ := (xvariantSerialisedCheck_iff value).mp checked
    exact ⟨sized, backed, aligned⟩

/-- A part of a container that starts at a multiple of an alignment, or nothing. -/
def Data.IsPart (part whole : Data) (alignment : Nat) : Prop :=
  part.isNull = true ∨ ∃ start stop, start < stop ∧ stop ≤ whole.size ∧ alignment + 1 ∣ start ∧
    whole.isNull = false ∧ part = whole.range start stop

structure Serialised.IsChild (child value : Serialised) : Prop where
  part : child.data.IsPart value.data child.type.alignment
  nonempty : child.size ≠ 0 ∨ child.data.isNull = true
  proper : child.Proper

theorem Data.size_range {data : Data} {start stop : Nat} (inside : stop ≤ data.size) :
    (data.range start stop).size = stop - start := by
  cases data with
  | null size => rfl
  | span address bytes => exact length_slice bytes start stop inside

theorem Data.isNull_range (data : Data) (start stop : Nat) : (data.range start stop).isNull = data.isNull := by
  cases data <;> rfl

theorem Data.address_range (backed : data.isNull = false) (start stop : Nat) :
    (data.range start stop).address = data.address + start := by
  cases data with
  | null size => cases backed
  | span address bytes => rfl

theorem Serialised.isChild_range {value child : Serialised} (proper : value.Proper) {start stop : Nat}
    (data : child.data = value.data.range start stop) (backed : value.data.isNull = false)
    (forward : start < stop) (inside : stop ≤ value.size) (aligned : child.type.alignment + 1 ∣ start)
    (coarser : child.type.alignment ≤ value.type.alignment)
    (sized : child.type.fixedSize ≠ 0 → stop - start = child.type.fixedSize) : child.IsChild value := by
  have size : child.size = stop - start := by
    rw [Serialised.size, data]
    exact Data.size_range inside
  have divides := child.type.alignment_isAlignment.isMask.dvd_of_le value.type.alignment_isAlignment.isMask coarser
  refine ⟨Or.inr ⟨start, stop, forward, inside, aligned, backed, data⟩, Or.inl (by omega), ⟨?_, ?_, ?_⟩⟩
  · exact fun fixed => size.trans (sized fixed)
  · exact fun _ => Or.inr (by rw [data, Data.isNull_range, backed])
  · rw [data, Data.address_range backed]
    exact Nat.dvd_add (Nat.dvd_trans divides proper.aligned) aligned

theorem Serialised.isChild_null {child : Serialised} (size : Nat) (data : child.data = .null size)
    (sized : size = child.type.fixedSize) : child.IsChild value := by
  refine ⟨Or.inl (by rw [data]; rfl), Or.inr (by rw [data]; rfl), ⟨fun _ => ?_, fun varies => Or.inl ?_, ?_⟩⟩
  · rw [Serialised.size, data]
    exact sized
  · rw [Serialised.size, data]
    exact sized.trans varies
  · rw [data]
    exact Nat.dvd_zero _

/-! ## Maybes and arrays -/

theorem Serialised.Proper.backed_of_size (proper : value.Proper) (varies : value.type.fixedSize = 0)
    (nonempty : value.size ≠ 0) : value.data.isNull = false :=
  (proper.backed varies).resolve_left nonempty

theorem gvsGetOffsetSize_le (size : Nat) : gvsGetOffsetSize size ≤ size := by
  simp only [gvsGetOffsetSize]
  split_ifs <;> omega

theorem gvsGetOffsetSize_pos (nonempty : size ≠ 0) : 0 < gvsGetOffsetSize size := by
  simp only [gvsGetOffsetSize]
  split_ifs <;> omega

theorem gvsReadUnalignedLe_inside (backed : data.isNull = false)
    (inside : position + size ≤ data.size) : ∃ offset, gvsReadUnalignedLe data position size = some offset := by
  cases data with
  | null size => cases backed
  | span address bytes =>
    have bound : position + size ≤ bytes.length := inside
    exact ⟨_, by rw [gvsReadUnalignedLe, if_pos bound]⟩

theorem fixedMaybe_isChild (proper : value.Proper)
    (type : value.type = .maybe element) (fixed : element.fixedSize ≠ 0)
    (one : gvsFixedSizedMaybeNChildren element value = 1) :
    (gvsFixedSizedMaybeGetChild element value).IsChild value := by
  have size : element.fixedSize = value.size := by
    by_contra wrong
    simp [gvsFixedSizedMaybeNChildren, wrong] at one
  have varies : value.type.fixedSize = 0 := by rw [type]; rfl
  have alignment : value.type.alignment = element.alignment := by rw [type]; rfl
  have backed := proper.backed_of_size varies (by omega)
  have whole : value.data = value.data.range 0 value.size := by
    cases data : value.data with
    | null size => rw [data] at backed; cases backed
    | span address bytes => simp [Data.range, Serialised.size, data, Data.size, slice_all]
  exact Serialised.isChild_range proper whole backed (by omega) (Nat.le_refl _) (Nat.dvd_zero _)
    (Nat.le_of_eq alignment.symm) fun _ => (Nat.sub_zero _).trans size.symm

theorem variableMaybe_isChild (proper : value.Proper)
    (type : value.type = .maybe element) (varying : element.fixedSize = 0)
    (one : gvsVariableSizedMaybeNChildren value = 1) :
    (gvsVariableSizedMaybeGetChild element value).IsChild value := by
  have nonempty : value.size > 0 := by
    by_contra wrong
    simp [gvsVariableSizedMaybeNChildren, wrong] at one
  have varies : value.type.fixedSize = 0 := by rw [type]; rfl
  have alignment : value.type.alignment = element.alignment := by rw [type]; rfl
  have backed := proper.backed_of_size varies (by omega)
  by_cases single : value.size - 1 = 0
  · exact Serialised.isChild_null _ (by rw [gvsVariableSizedMaybeGetChild, if_pos single]) varying.symm
  · exact Serialised.isChild_range proper (by rw [gvsVariableSizedMaybeGetChild, if_neg single]) backed
      (by omega) (by omega) (Nat.dvd_zero _) (Nat.le_of_eq alignment.symm) fun fixed => absurd varying fixed

theorem fixedArray_isChild (proper : value.Proper)
    (type : value.type = .array element) (fixed : element.fixedSize ≠ 0)
    (bound : index < gvsFixedSizedArrayNChildren element value) :
    (gvsFixedSizedArrayGetChild element value index).IsChild value := by
  rw [gvsFixedSizedArrayNChildren] at bound
  split at bound
  case isFalse => exact absurd bound (Nat.not_lt_zero _)
  case isTrue whole =>
    have varies : value.type.fixedSize = 0 := by rw [type]; rfl
    have alignment : value.type.alignment = element.alignment := by rw [type]; rfl
    -- The element ends at or before the last multiple of its size.
    have inside : element.fixedSize * index + element.fixedSize ≤ value.size := by
      have below := Nat.mul_le_mul_left element.fixedSize bound
      rw [Nat.mul_succ, Nat.mul_div_cancel' (Nat.dvd_of_mod_eq_zero whole)] at below
      exact below
    have backed := proper.backed_of_size varies (by omega)
    exact Serialised.isChild_range proper rfl backed (by omega) inside
      (Nat.dvd_mul_right_of_dvd element.info_wellFormed.divides index) (Nat.le_of_eq alignment.symm)
      fun _ => Nat.add_sub_cancel_left _ _

/-! The offset table of an array, read from its bytes. -/

def arrayLastEnd (bytes : Bytes) : Nat :=
  leValue (slice bytes (bytes.length - gvsGetOffsetSize bytes.length)
    (bytes.length - gvsGetOffsetSize bytes.length + gvsGetOffsetSize bytes.length))

def arrayEntry (bytes : Bytes) (index : Nat) : Nat :=
  leValue (slice bytes (arrayLastEnd bytes + gvsGetOffsetSize bytes.length * index)
    (arrayLastEnd bytes + gvsGetOffsetSize bytes.length * index + gvsGetOffsetSize bytes.length))

def arrayStart (alignment : Nat) (bytes : Bytes) (index : Nat) : Nat :=
  if index > 0 then alignUp (arrayEntry bytes (index - 1)) alignment % wordSize else 0

def arrayLength (bytes : Bytes) : Nat :=
  if arrayLastEnd bytes > bytes.length then 0
  else if (bytes.length - arrayLastEnd bytes) % gvsGetOffsetSize bytes.length ≠ 0 then 0
  else (bytes.length - arrayLastEnd bytes) / gvsGetOffsetSize bytes.length

theorem gvsReadUnalignedLe_span (address : Nat) (inside : position + size ≤ bytes.length) :
    gvsReadUnalignedLe (.span address bytes) position size =
      some (leValue (slice bytes position (position + size))) := by
  rw [gvsReadUnalignedLe, if_pos inside]

theorem variableArray_nChildren {address : Nat}
    (data : value.data = .span address bytes) (nonempty : bytes ≠ []) :
    gvsVariableSizedArrayNChildren value = some (arrayLength bytes) := by
  have size : value.size = bytes.length := by rw [Serialised.size, data]; rfl
  have positive : bytes.length ≠ 0 := fun empty => nonempty (List.length_eq_zero_iff.mp empty)
  have width := gvsGetOffsetSize_le bytes.length
  have read : gvsReadUnalignedLe value.data (bytes.length - gvsGetOffsetSize bytes.length)
      (gvsGetOffsetSize bytes.length) = some (arrayLastEnd bytes) := by
    rw [data, gvsReadUnalignedLe_span address (Nat.le_of_eq (Nat.sub_add_cancel width)), arrayLastEnd]
  rw [gvsVariableSizedArrayNChildren, size, if_neg positive, arrayLength]
  simp only [read, some_bind]
  by_cases beyond : arrayLastEnd bytes > bytes.length
  · rw [if_pos beyond, if_pos beyond]
    rfl
  · rw [if_neg beyond, if_neg beyond]
    split <;> rfl

theorem arrayEntry_inside (bound : index < arrayLength bytes) :
    arrayLastEnd bytes + gvsGetOffsetSize bytes.length * index + gvsGetOffsetSize bytes.length ≤ bytes.length := by
  rw [arrayLength] at bound
  split at bound
  case isTrue => exact absurd bound (Nat.not_lt_zero _)
  case isFalse first =>
    split at bound
    case isTrue => exact absurd bound (Nat.not_lt_zero _)
    case isFalse whole =>
      have below := Nat.mul_le_mul_left (gvsGetOffsetSize bytes.length) bound
      rw [Nat.mul_succ, Nat.mul_div_cancel' (Nat.dvd_of_mod_eq_zero (by omega))] at below
      omega

theorem variableArray_getChild {element : VariantType} {value : Serialised} {address : Nat} {bytes : Bytes}
    (data : value.data = .span address bytes) {index : Nat} (bound : index < arrayLength bytes) :
    gvsVariableSizedArrayGetChild element value index = some
      { type := element
        data := if arrayStart element.alignment bytes index < arrayEntry bytes index ∧
            arrayEntry bytes index ≤ bytes.length ∧ arrayEntry bytes index ≤ arrayLastEnd bytes then
          value.data.range (arrayStart element.alignment bytes index) (arrayEntry bytes index) else .null 0
        depth := value.depth + 1 } := by
  have size : value.size = bytes.length := by rw [Serialised.size, data]; rfl
  have width := gvsGetOffsetSize_le bytes.length
  have inside := arrayEntry_inside bound
  have last : gvsReadUnalignedLe value.data (bytes.length - gvsGetOffsetSize bytes.length)
      (gvsGetOffsetSize bytes.length) = some (arrayLastEnd bytes) := by
    rw [data, gvsReadUnalignedLe_span address (Nat.le_of_eq (Nat.sub_add_cancel width)), arrayLastEnd]
  have entry : ∀ k, k ≤ index → gvsReadUnalignedLe value.data
      (arrayLastEnd bytes + gvsGetOffsetSize bytes.length * k) (gvsGetOffsetSize bytes.length) =
        some (arrayEntry bytes k) := by
    intro k below
    have order := Nat.mul_le_mul_left (gvsGetOffsetSize bytes.length) below
    rw [data, gvsReadUnalignedLe_span address (by omega), arrayEntry]
  rw [gvsVariableSizedArrayGetChild, size, last]
  simp only [some_bind, entry index (Nat.le_refl _)]
  by_cases first : index > 0
  · rw [if_pos first, entry (index - 1) (Nat.sub_le _ _)]
    simp [arrayStart, first]
  · rw [if_neg first]
    simp [arrayStart, first]

theorem arrayStart_aligned (element : VariantType) (bytes : Bytes) (index : Nat) :
    element.alignment + 1 ∣ arrayStart element.alignment bytes index := by
  have mask := element.alignment_isAlignment.isMask
  rw [arrayStart]
  split
  · rw [alignUp_eq_roundUp mask]
    exact (Nat.dvd_mod_iff mask.dvd_word).mpr (dvd_roundUp _ _)
  · exact Nat.dvd_zero _

theorem variableArray_counted (proper : value.Proper) (varies : value.type.fixedSize = 0) :
    ∃ length, gvsVariableSizedArrayNChildren value = some length := by
  by_cases empty : value.size = 0
  · exact ⟨0, by rw [gvsVariableSizedArrayNChildren, if_pos empty]⟩
  · cases data : value.data with
    | null size =>
      have backed := proper.backed_of_size varies empty
      rw [data] at backed
      cases backed
    | span address bytes =>
      refine ⟨_, variableArray_nChildren data ?_⟩
      rintro rfl
      exact empty (by rw [Serialised.size, data]; rfl)

theorem variableArray_isChild (proper : value.Proper)
    (type : value.type = .array element) (varying : element.fixedSize = 0) {length : Nat}
    (counted : gvsVariableSizedArrayNChildren value = some length) (bound : index < length) :
    ∃ child, gvsVariableSizedArrayGetChild element value index = some child ∧ child.IsChild value := by
  have varies : value.type.fixedSize = 0 := by rw [type]; rfl
  have alignment : value.type.alignment = element.alignment := by rw [type]; rfl
  have nonempty : value.size ≠ 0 := by
    intro empty
    rw [gvsVariableSizedArrayNChildren, if_pos empty, Option.some.injEq] at counted
    omega
  cases data : value.data with
  | null size =>
    have backed := proper.backed_of_size varies nonempty
    rw [data] at backed
    cases backed
  | span address bytes =>
    have some_bytes : bytes ≠ [] := by
      rintro rfl
      exact nonempty (by rw [Serialised.size, data]; rfl)
    rw [variableArray_nChildren data some_bytes, Option.some.injEq] at counted
    subst counted
    have size : value.size = bytes.length := by rw [Serialised.size, data]; rfl
    refine ⟨_, variableArray_getChild data bound, ?_⟩
    split
    case isTrue forward =>
      exact Serialised.isChild_range proper rfl (by rw [data]; rfl) forward.1 (by omega)
        (arrayStart_aligned element bytes index) (Nat.le_of_eq alignment.symm) fun fixed => absurd varying fixed
    case isFalse => exact Serialised.isChild_null _ rfl varying.symm

/-! ## Tuples -/

theorem memberAt_ending_fixed {front back : List VariantType} {item : VariantType} :
    (memberAt front item back).ending = .fixed ↔ item.fixedSize ≠ 0 := by
  rw [memberAt_ending]
  split
  case isTrue fixed => exact ⟨fun _ => fixed, fun _ => rfl⟩
  case isFalse varies =>
    refine ⟨fun ends => ?_, fun fixed => absurd fixed varies⟩
    split at ends <;> cases ends

theorem readTable_inside {width : Nat} (backed : data.isNull = true → data.size = 0)
    (inside : position + width ≤ data.size) : ∃ offset, gvsReadUnalignedLe data position width = some offset := by
  cases data with
  | null size =>
    have empty : size = 0 := backed rfl
    have start : position = 0 := by
      simp only [Data.size] at inside
      omega
    exact ⟨0, by rw [gvsReadUnalignedLe, if_pos start]⟩
  | span address bytes => exact gvsReadUnalignedLe_inside rfl inside

theorem gvsTupleOffset_inside {count : Nat}
    (backed : value.data.isNull = true → value.data.size = 0) (positive : 0 < count)
    (inside : gvsGetOffsetSize value.size * count ≤ value.size) : ∃ offset, gvsTupleOffset value count = some offset := by
  have one := Nat.le_mul_of_pos_right (gvsGetOffsetSize value.size) positive
  exact readTable_inside backed (by change _ ≤ value.size; omega)

theorem gvsTupleChild_isChild (proper : value.Proper) (tuple : value.type.isTuple = true)
    {front back : List VariantType} {item : VariantType} (shape : value.type.items = front ++ item :: back)
    (lastEnd : Nat → Option Nat) (bounded : ∀ stop, ∃ bound, lastEnd stop = some bound) :
    ∃ child, gvsTupleChild value (memberAt front item back) lastEnd = some child ∧ child.IsChild value := by
  have member : item ∈ value.type.items := by simp [shape]
  have index := memberAt_i front back item
  have coarser := VariantType.item_alignment_le tuple member
  have fits := item.info_wellFormed.fits
  have ending := @memberAt_ending_fixed front back item
  set m := memberAt front item back with m_def
  have places : ∀ previous, item.alignment + 1 ∣ m.start previous ∧ m.start previous < 2 ^ 64 := fun previous =>
    memberAt_start_aligned front back item previous item.alignment_isAlignment
      (stateAfter_mask fun other _ => other.alignment_isAlignment)
  have type : m.type = item := rfl
  have info : m.typeInfo.fixedSize = item.fixedSize := rfl
  have count : (m.i + 1).toNat = variableCount front := by omega
  have next : (m.i + 2).toNat = variableCount front + 1 := by omega
  unfold gvsTupleChild
  simp only [info, type, count, next]
  split
  case isTrue missing =>
    -- Only a fixed-sized tuple has a size without data.
    have fixed : value.type.fixedSize ≠ 0 := by
      intro varies
      rcases proper.backed varies with empty | backed
      · exact missing.2 empty
      · rw [missing.1] at backed
        cases backed
    have item_fixed := VariantType.item_fixed tuple fixed member
    rw [if_pos item_fixed]
    exact ⟨_, rfl, Serialised.isChild_null _ rfl rfl⟩
  case isFalse present =>
    have backed : value.data.isNull = true → value.data.size = 0 := fun null => by
      by_contra size
      exact present ⟨null, size⟩
    split
    case isTrue short =>
      have varies : item.fixedSize = 0 := by
        by_contra fixed
        rw [ending.mpr fixed] at short
        cases short.1
      exact ⟨_, rfl, Serialised.isChild_null _ rfl varies.symm⟩
    case isFalse room =>
      split
      case isTrue => exact ⟨_, rfl, Serialised.isChild_null _ rfl rfl⟩
      case isFalse table =>
        have through : m.ending = .offset →
            gvsGetOffsetSize value.size * (variableCount front + 1) ≤ value.size := fun offset => by
          by_contra more
          exact room ⟨offset, by omega⟩
        have before : gvsGetOffsetSize value.size * variableCount front ≤ value.size := by
          by_cases offset : m.ending = .offset
          · exact Nat.le_trans (Nat.mul_le_mul_left _ (Nat.le_succ _)) (through offset)
          · by_contra more
            exact table ⟨offset, by omega⟩
        obtain ⟨previous, read⟩ : ∃ previous, gvsTuplePrevEnd value m = some previous := by
          rw [gvsTuplePrevEnd, count]
          split
          case isTrue later => exact gvsTupleOffset_inside backed (by omega) before
          case isFalse => exact ⟨0, rfl⟩
        obtain ⟨stop, found, length⟩ : ∃ stop, gvsTupleEnd value m (m.start previous) = some stop ∧
            (item.fixedSize ≠ 0 → stop = (m.start previous + item.fixedSize) % wordSize) := by
          rw [gvsTupleEnd]
          cases kind : m.ending with
          | last => exact ⟨_, rfl, fun fixed => absurd (ending.mpr fixed) (by simp [kind])⟩
          | fixed => exact ⟨_, rfl, fun _ => rfl⟩
          | offset =>
            obtain ⟨offset, entry⟩ := gvsTupleOffset_inside backed (Nat.succ_pos _) (through kind)
            refine ⟨offset, ?_, fun fixed => absurd (ending.mpr fixed) (by simp [kind])⟩
            rw [next]
            exact entry
        obtain ⟨bound, limit⟩ := bounded stop
        simp only [read, found, limit, some_bind]
        refine ⟨_, rfl, ?_⟩
        obtain ⟨aligned, small⟩ := places previous
        split
        case isTrue forward =>
          have data_backed : value.data.isNull = false := by
            by_contra null
            have empty : value.size = 0 := backed (by simpa using null)
            omega
          refine Serialised.isChild_range proper rfl data_backed forward.1 forward.2.1 aligned coarser fun fixed => ?_
          have sum := length fixed
          have fixed_fits : item.fixedSize < 2 ^ 64 := fits
          have ahead := forward.1
          rw [sum] at ahead ⊢
          simp only [wordSize] at ahead ⊢
          omega
        case isFalse =>
          refine Serialised.isChild_null _ rfl ?_
          split
          · rfl
          case isFalse other =>
            by_contra fixed
            exact other (ending.mpr fun varies => fixed varies.symm)

theorem gvsTupleGetChild_isChild (proper : value.Proper) (tuple : value.type.isTuple = true)
    (bound : index < gvsTupleNChildren value) :
    ∃ child, gvsTupleGetChild value index = some child ∧ child.IsChild value := by
  have entry : value.type.members[index]? = some value.type.members[index] := List.getElem?_eq_getElem bound
  obtain ⟨front, item, back, shape, -, member⟩ := exists_memberAt entry
  have some_member : value.type.members ≠ [] := List.ne_nil_of_length_pos (Nat.zero_lt_of_lt bound)
  obtain ⟨last, lastChild⟩ : ∃ last, gvsTupleLastChild value = some last := by
    have final := List.getLast?_eq_some_getLast some_member
    rw [List.getLast?_eq_getElem?] at final
    obtain ⟨front, item, back, shape, -, same⟩ := exists_memberAt final
    obtain ⟨child, found, -⟩ := gvsTupleChild_isChild proper tuple shape some fun stop => ⟨stop, rfl⟩
    refine ⟨child, ?_⟩
    rw [gvsTupleLastChild, List.getLast?_eq_some_getLast some_member, same]
    exact found
  rw [gvsTupleGetChild, entry, member]
  simp only [some_bind, lastChild]
  split
  · exact gvsTupleChild_isChild proper tuple shape _ fun _ => ⟨_, rfl⟩
  · exact gvsTupleChild_isChild proper tuple shape some fun stop => ⟨stop, rfl⟩

/-! ## Variants -/

theorem findNul_inside (address : Nat) (bytes : Bytes) (start : Nat) (inside : start < bytes.length) :
    ∃ position, findNul (.span address bytes) start = some position ∧ position ≤ start := by
  induction start with
  | zero => exact ⟨0, rfl, Nat.le_refl _⟩
  | succ start ih =>
    have byte : Data.byte (.span address bytes) (start + 1) = some bytes[start + 1] :=
      List.getElem?_eq_getElem inside
    rw [findNul, byte]
    simp only [some_bind]
    split
    · exact ⟨start + 1, rfl, Nat.le_refl _⟩
    · obtain ⟨position, found, below⟩ := ih (by omega)
      exact ⟨position, found, by omega⟩

theorem ofString_of_valid {string : Bytes} (valid : xvariantTypeStringIsValid string = true)
    (definite : xvariantTypeIsDefinite string = true) :
    ∃ type : VariantType, VariantType.ofString string = some type ∧ type.string = string := by
  obtain ⟨expression, rfl, -⟩ := (xvariantTypeStringIsValid_iff string).mp valid
  obtain ⟨type, rfl⟩ := (xvariantTypeIsDefinite_string expression).mp definite
  exact ⟨type, type.ofString_string, rfl⟩

theorem unitChild_isChild (value : Serialised) : (unitChild value).IsChild value :=
  Serialised.isChild_null _ rfl rfl

theorem gvsVariantGetChild_isChild (proper : value.Proper) (type : value.type = .variant) :
    ∃ child, gvsVariantGetChild value = some child ∧ child.IsChild value := by
  have varies : value.type.fixedSize = 0 := by rw [type]; rfl
  have alignment : value.type.alignment = 7 := by rw [type]; rfl
  have unit : ∃ child, (pure (unitChild value) : Option Serialised) = some child ∧ child.IsChild value :=
    ⟨_, rfl, unitChild_isChild value⟩
  unfold gvsVariantGetChild
  split
  case isTrue => exact unit
  case isFalse nonempty =>
    have backed := proper.backed_of_size varies nonempty
    cases data : value.data with
    | null size =>
      rw [data] at backed
      cases backed
    | span address bytes =>
      have size : value.size = bytes.length := by rw [Serialised.size, data]; rfl
      obtain ⟨position, found, below⟩ := findNul_inside address bytes (value.size - 1) (by omega)
      have byte : Data.byte (.span address bytes) position = some bytes[position] :=
        List.getElem?_eq_getElem (by omega)
      simp only [found, byte, Option.bind_eq_bind, Option.bind_some]
      split
      case isTrue => exact unit
      case isFalse =>
        split
        case isFalse => exact unit
        case isTrue valid =>
          rw [Bool.and_eq_true] at valid
          obtain ⟨child, parsed, -⟩ := ofString_of_valid valid.1 valid.2
          simp only [parsed, Option.bind_some]
          split
          case isFalse => exact unit
          case isTrue fitting =>
            refine ⟨_, rfl, ?_⟩
            by_cases start : position = 0
            · refine Serialised.isChild_null 0 (by simp [start]) ?_
              rcases fitting.1 with varying | fixed
              · exact varying.symm
              · exact start.symm.trans fixed.symm
            · refine @Serialised.isChild_range value _ proper 0 position (by simp [start, data]) (by rw [data]; rfl)
                (Nat.pos_of_ne_zero start) (by omega) (Nat.dvd_zero _) ?_ fun fixed => ?_
              · rw [alignment]
                exact child.alignment_le
              · exact (fitting.1.resolve_left fixed).symm

/-! ## Every descent -/

theorem xvariantSerialised_children (proper : value.Proper)
    (container : ∀ b, value.type ≠ .basic b) :
    ∃ length, xvariantSerialisedNChildren value = some length ∧
      ∀ index < length, ∃ child, xvariantSerialisedGetChild value index = some child ∧ child.IsChild value := by
  have counted : ∃ length, xvariantSerialisedNChildren value = some length ∧
      ∀ index < length, ∃ child, gvsGetChild value index = some child ∧ child.IsChild value := by
    simp only [xvariantSerialisedNChildren, proper.check, if_true, gvsGetChild]
    cases type : value.type with
    | basic b => exact absurd type (container b)
    | variant => exact ⟨1, rfl, fun _ _ => gvsVariantGetChild_isChild proper type⟩
    | maybe element =>
      by_cases fixed : element.fixedSize = 0
      · simp only [fixed, ne_eq, not_true_eq_false, if_false]
        refine ⟨_, rfl, fun index bound => ⟨_, rfl, variableMaybe_isChild proper type fixed ?_⟩⟩
        rw [gvsVariableSizedMaybeNChildren] at bound ⊢
        split at bound <;> simp_all
      · simp only [fixed, ne_eq, not_false_eq_true, if_true]
        refine ⟨_, rfl, fun index bound => ⟨_, rfl, fixedMaybe_isChild proper type fixed ?_⟩⟩
        rw [gvsFixedSizedMaybeNChildren] at bound ⊢
        split at bound <;> simp_all
    | array element =>
      by_cases fixed : element.fixedSize = 0
      · simp only [fixed, ne_eq, not_true_eq_false, if_false]
        obtain ⟨length, counted⟩ := variableArray_counted proper (by rw [type]; rfl)
        exact ⟨length, counted, fun index bound => variableArray_isChild proper type fixed counted bound⟩
      · simp only [fixed, ne_eq, not_false_eq_true, if_true]
        exact ⟨_, rfl, fun index bound => ⟨_, rfl, fixedArray_isChild proper type fixed bound⟩⟩
    | tuple items => exact ⟨_, rfl, fun index bound => gvsTupleGetChild_isChild proper (by rw [type]; rfl) bound⟩
    | dictEntry key item =>
      exact ⟨_, rfl, fun index bound => gvsTupleGetChild_isChild proper (by rw [type]; rfl) bound⟩
  obtain ⟨length, number, each⟩ := counted
  refine ⟨length, number, fun index bound => ?_⟩
  obtain ⟨child, found, isChild⟩ := each index bound
  refine ⟨child, ?_, isChild⟩
  rw [xvariantSerialisedGetChild, number]
  simp only [Option.bind_eq_bind, Option.bind_some]
  rw [if_pos bound, found]
  simp only [Option.bind_some]
  rw [if_pos ⟨isChild.nonempty, isChild.proper.check⟩]
  rfl

/-- The values reached from `value` by a sequence of valid child indices. -/
inductive Descends (value : Serialised) : Serialised → Prop where
  | here : Descends value value
  | child {container child : Serialised} {length : Nat} (index : Nat) : Descends value container →
      xvariantSerialisedNChildren container = some length → index < length →
      xvariantSerialisedGetChild container index = some child → Descends value child

theorem Descends.proper {reached : Serialised} (h : Descends value reached) (proper : value.Proper) :
    reached.Proper := by
  induction h with
  | here => exact proper
  | @child container child length index _ counted bound found ih =>
    have some_type : ∀ b, container.type ≠ .basic b := by
      intro b basic
      simp [xvariantSerialisedNChildren, basic] at counted
    obtain ⟨number, same, each⟩ := xvariantSerialised_children ih some_type
    rw [counted, Option.some.injEq] at same
    subst same
    obtain ⟨other, got, isChild⟩ := each index bound
    rw [found, Option.some.injEq] at got
    exact got ▸ isChild.proper

def Serialised.DecodesSafely (container : Serialised) : Prop :=
  ∃ length, xvariantSerialisedNChildren container = some length ∧
    ∀ index < length, ∃ child, xvariantSerialisedGetChild container index = some child ∧
      child.data.IsPart container.data child.type.alignment ∧
      (child.type.fixedSize ≠ 0 → child.size = child.type.fixedSize) ∧
      xvariantSerialisedCheck child = true

/-- From data whose pointer is aligned for its type every descent is safe. -/
theorem decoding_safe (value : Serialised) (checked : xvariantSerialisedCheck value = true)
    (aligned : value.type.alignment + 1 ∣ value.data.address) :
    ∀ container, Descends value container → (∀ b, container.type ≠ .basic b) → container.DecodesSafely := by
  intro container descends some_type
  have proper := descends.proper ((Serialised.proper_iff value).mpr ⟨checked, aligned⟩)
  obtain ⟨length, counted, each⟩ := xvariantSerialised_children proper some_type
  refine ⟨length, counted, fun index bound => ?_⟩
  obtain ⟨child, found, isChild⟩ := each index bound
  exact ⟨child, found, isChild.part, isChild.proper.sized, isChild.proper.check⟩

/-- A variant that holds the 16-bit integer `0x0201`, at a given address. -/
def shortVariant (address : Nat) : Serialised :=
  { type := .variant, data := .span address [1, 2, 0, ascii 'n'], depth := 0 }

theorem decoding_safe_shortVariant : (shortVariant 8).DecodesSafely :=
  decoding_safe (shortVariant 8) (by decide) (by decide) _ .here (by intro b; exact nofun)

/-- At an odd address the variant is exempt from the alignment check, being small,
but its child is not: the assertion on the child fails. -/
theorem decoding_unaligned_fails : ¬∀ value, xvariantSerialisedCheck value = true →
    ∀ container, Descends value container → (∀ b, container.type ≠ .basic b) → container.DecodesSafely := by
  intro claim
  obtain ⟨length, counted, each⟩ := claim (shortVariant 1) (by decide) _ .here (by intro b; exact nofun)
  have one : xvariantSerialisedNChildren (shortVariant 1) = some 1 := by decide
  rw [one, Option.some.injEq] at counted
  obtain ⟨child, found, -⟩ := each 0 (by omega)
  have fails : xvariantSerialisedGetChild (shortVariant 1) 0 = none := by decide
  cases found

end Xpl.Variant
