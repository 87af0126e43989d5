import Xpl.Variant.Normal
import Xpl.Variant.Reading

/-! What the check for normal form accepts: the representations of values. -/

set_option autoImplicit false

namespace Xpl.Variant
open Xpl.Library
variable {bytes : Bytes}

/-! ## Padding -/

section Padding
variable {isPadding : Nat → Option Bool} {mask : Nat}

theorem skipPadding_sound (isMask : IsMask mask) {fuel offset stop : Nat}
    (skipped : skipPadding isPadding mask fuel offset = some (some stop)) :
    stop = roundUp offset mask ∧
      ∀ position, offset ≤ position → position < stop → isPadding position = some true := by
  have at_multiple : ∀ {offset : Nat}, offset &&& mask = 0 → roundUp offset mask = offset := fun low =>
    roundUp_of_dvd (Nat.dvd_of_mod_eq_zero (isMask.and_eq_mod _ ▸ low))
  induction fuel generalizing offset with
  | zero =>
    rw [skipPadding] at skipped
    split at skipped
    case isTrue low =>
      cases skipped
      exact ⟨(at_multiple low).symm, fun position above below => by omega⟩
    case isFalse => cases skipped
  | succ fuel ih =>
    rw [skipPadding] at skipped
    split at skipped
    case isTrue low =>
      cases skipped
      exact ⟨(at_multiple low).symm, fun position above below => by omega⟩
    case isFalse low =>
      obtain ⟨zero, byte, rest⟩ := Option.bind_eq_some_iff.mp skipped
      cases zero with
      | false => cases rest
      | true =>
        have between : ¬mask + 1 ∣ offset := fun multiple =>
          low (by rw [isMask.and_eq_mod, Nat.mod_eq_zero_of_dvd multiple])
        obtain ⟨same, others⟩ := ih rest
        refine ⟨same.trans (roundUp_succ between), fun position above below => ?_⟩
        rcases Nat.eq_or_lt_of_le above with rfl | later
        · exact byte
        · exact others position later below

theorem skipPadding_complete (isMask : IsMask mask) {fuel offset : Nat} (enough : roundUp offset mask - offset ≤ fuel)
    (padding : ∀ position, offset ≤ position → position < roundUp offset mask → isPadding position = some true) :
    skipPadding isPadding mask fuel offset = some (some (roundUp offset mask)) := by
  have rounded := le_roundUp offset mask
  induction fuel generalizing offset with
  | zero =>
    have multiple : roundUp offset mask = offset := by omega
    have low : offset &&& mask = 0 := by
      rw [isMask.and_eq_mod, ← Nat.dvd_iff_mod_eq_zero, ← multiple]
      exact dvd_roundUp offset mask
    rw [skipPadding, if_pos low, multiple]
  | succ fuel ih =>
    by_cases multiple : mask + 1 ∣ offset
    · have low : offset &&& mask = 0 := by rwa [isMask.and_eq_mod, ← Nat.dvd_iff_mod_eq_zero]
      rw [skipPadding, if_pos low, roundUp_of_dvd multiple]
    · have low : ¬offset &&& mask = 0 := by rwa [isMask.and_eq_mod, ← Nat.dvd_iff_mod_eq_zero]
      have next := roundUp_succ multiple
      have more := le_roundUp (offset + 1) mask
      rw [skipPadding, if_neg low, padding offset (Nat.le_refl _) (by omega), some_bind,
        if_pos rfl, ih (by omega) (fun position above below => padding position (by omega) (by omega)) more, next]

end Padding

def ChecksPiece (normal : Serialised → Option Bool) (value : Serialised) (piece : Piece) : Prop :=
  ∃ child : Serialised, child.Carries piece ∧ child.depth = value.depth + 1 ∧ normal child = some true

def PassesPiece (normal : Serialised → Option Bool) (value : Serialised) (piece : Piece) : Prop :=
  ∀ child : Serialised, child.Carries piece → child.depth = value.depth + 1 → normal child = some true

theorem layout_extend {type : VariantType} {pieces : List Piece} {offset start stop last : Nat}
    (rounded : start = roundUp offset type.alignment)
    (padding : ∀ position, offset ≤ position → position < start → bytes[position]? = some 0)
    (forward : start ≤ stop) (inside : stop ≤ bytes.length) (onward : stop ≤ last)
    (rest : slice bytes stop last = layout stop (pieces.map Piece.part)) :
    Part.stop offset (Piece.part (type, slice bytes start stop)) = stop ∧
      slice bytes offset last = layout offset (((type, slice bytes start stop) :: pieces).map Piece.part) := by
  have before : offset ≤ start := rounded ▸ le_roundUp offset type.alignment
  have length := length_slice bytes start stop inside
  have ends : Part.stop offset (Piece.part (type, slice bytes start stop)) = stop := by
    simp only [Part.stop, Piece.part, ← rounded, length]
    omega
  refine ⟨ends, ?_⟩
  rw [List.map_cons, layout, ends, ← rest]
  simp only [Part.spaced, Piece.part, ← rounded]
  rw [← slice_eq_zeros padding, slice_join bytes offset start stop before forward,
    slice_join bytes offset stop last (by omega) onward]

theorem layout_extract {piece : Piece} {pieces : List Piece} {offset last : Nat}
    (stop : layoutEnd offset ((piece :: pieces).map Piece.part) = last) (inside : last ≤ bytes.length)
    (body : slice bytes offset last = layout offset ((piece :: pieces).map Piece.part)) :
    slice bytes offset (roundUp offset piece.1.alignment) = zeros (roundUp offset piece.1.alignment - offset) ∧
      slice bytes (roundUp offset piece.1.alignment) (piece.part.stop offset) = piece.2 ∧
      slice bytes (piece.part.stop offset) last = layout (piece.part.stop offset) (pieces.map Piece.part) := by
  rw [List.map_cons, layoutEnd_cons] at stop
  have later := le_layoutEnd (piece.part.stop offset) (pieces.map Piece.part)
  have before := piece.part.le_stop offset
  have rounded := le_roundUp offset piece.1.alignment
  obtain ⟨first, rest⟩ := slice_split (by omega) inside body
  rw [piece.part.length_spaced] at first rest
  obtain ⟨padding, own⟩ := slice_split before (by omega) first
  have place : offset + (zeros (roundUp offset piece.part.1 - offset)).length = roundUp offset piece.1.alignment := by
    rw [length_zeros]
    change offset + (roundUp offset piece.1.alignment - offset) = _
    omega
  rw [place] at padding own
  exact ⟨padding, own, rest⟩

section Arrays
variable {memory : Nat → UInt8} {normal : Serialised → Option Bool} {element : VariantType} {value : Serialised}

theorem arrayNormalLoop_step (width lastEnd count index offset : Nat) :
    arrayNormalLoop normal element value width lastEnd (count + 1) index offset = some true ↔
      ∃ thisEnd start, gvsReadUnalignedLe value.data (lastEnd + width * index) width = some thisEnd ∧
        offset ≤ thisEnd ∧ thisEnd ≤ lastEnd ∧
        skipPadding (isArrayPadding value thisEnd) element.alignment element.alignment offset = some (some start) ∧
        normal (value.childAt element start thisEnd) = some true ∧
        arrayNormalLoop normal element value width lastEnd count (index + 1) thisEnd = some true := by
  rw [arrayNormalLoop]
  constructor
  · intro accepted
    obtain ⟨thisEnd, read, accepted⟩ := Option.bind_eq_some_iff.mp accepted
    split at accepted
    case isTrue => cases accepted
    case isFalse ordered =>
      obtain ⟨skipped, padding, accepted⟩ := Option.bind_eq_some_iff.mp accepted
      cases skipped with
      | none => cases accepted
      | some start =>
        obtain ⟨passed, checked, accepted⟩ := Option.bind_eq_some_iff.mp accepted
        cases passed with
        | false => cases accepted
        | true => exact ⟨thisEnd, start, read, by omega, by omega, padding, checked, accepted⟩
  · rintro ⟨thisEnd, start, read, above, below, padding, checked, accepted⟩
    have ordered : ¬(thisEnd < offset ∨ thisEnd > lastEnd) := by omega
    simp only [read, some_bind, if_neg ordered, padding, checked, if_true]
    exact accepted

/-- The rest of an array: the bytes from an offset and the entries from an index on. -/
structure ArrayRun (bytes : Bytes) (width lastEnd index offset : Nat) (pieces : List Piece) : Prop where
  stop : layoutEnd offset (pieces.map Piece.part) = lastEnd
  body : slice bytes offset lastEnd = layout offset (pieces.map Piece.part)
  ends : slice bytes (lastEnd + width * index) (lastEnd + width * (index + pieces.length)) =
    table width (layoutEnds offset (pieces.map Piece.part))

variable {address : Nat} {bytes : Bytes} {width lastEnd : Nat}

theorem arrayNormalLoop_sound (data : value.data = .span address bytes)
    (carries : value.Carries (value.type, bytes)) {count index offset : Nat}
    (inside : lastEnd + width * (index + count) ≤ bytes.length) 
    (accepted : arrayNormalLoop normal element value width lastEnd count index offset = some true) :
    ∃ pieces, pieces.length = count ∧ (∀ piece ∈ pieces, piece.1 = element ∧ ChecksPiece normal value piece) ∧
      ArrayRun bytes width lastEnd index offset pieces := by
  induction count generalizing index offset with
  | zero =>
    rw [arrayNormalLoop] at accepted
    split at accepted
    case isTrue same =>
      subst same
      refine ⟨[], rfl, by simp, rfl, ?_, ?_⟩
      · simp [slice, layout]
      · simp [slice, table, layoutEnds]
    case isFalse => cases accepted
  | succ count ih =>
    obtain ⟨thisEnd, start, read, above, below, padding, checked, rest⟩ :=
      (arrayNormalLoop_step width lastEnd count index offset).mp accepted
    have entry : lastEnd + width * index + width ≤ bytes.length := by
      have more := Nat.mul_le_mul_left width (by omega : index + 1 ≤ index + (count + 1))
      rw [Nat.mul_succ] at more
      omega
    rw [data, gvsReadUnalignedLe_span address entry, Option.some.injEq] at read
    obtain ⟨pieces, length, each, run⟩ := ih (by rw [Nat.add_right_comm]; exact inside) rest
    obtain ⟨rounded, zero⟩ := skipPadding_sound element.alignment_isAlignment.isMask padding
    have before := le_roundUp offset element.alignment
    -- Padding bytes lie before the end of the element, so they are bytes of the array.
    have pads : ∀ position, offset ≤ position → position < start →
        position < thisEnd ∧ bytes[position]? = some 0 := by
      intro position least most
      have byte := zero position least most
      rw [isArrayPadding] at byte
      split at byte
      case isTrue within =>
        rw [data] at byte
        obtain ⟨found, present, isZero⟩ := Option.map_eq_some_iff.mp byte
        exact ⟨within, by rw [show bytes[position]? = some found from present, of_decide_eq_true isZero]⟩
      case isFalse => cases byte
    have forward : start ≤ thisEnd := by
      rcases Nat.eq_or_lt_of_le (rounded ▸ before : offset ≤ start) with same | more
      · omega
      · exact Nat.succ_le_of_lt (pads (start - 1) (by omega) (by omega)).1 |>.trans' (by omega)
    have within : thisEnd ≤ bytes.length := by omega
    obtain ⟨ends, body⟩ := layout_extend rounded (fun position least most => (pads position least most).2) forward
      within below run.body
    refine ⟨(element, slice bytes start thisEnd) :: pieces, by simp [length], ?_, ?_, body, ?_⟩
    · rintro piece member
      rcases List.mem_cons.mp member with rfl | later
      · exact ⟨rfl, _, carries.childAt element within rfl, rfl, checked⟩
      · exact each piece later
    · rw [List.map_cons, layoutEnd_cons, ends, run.stop]
    · have word : slice bytes (lastEnd + width * index) (lastEnd + width * index + width) = leBytes width thisEnd := by
        have stored := leBytes_leValue (slice bytes (lastEnd + width * index) (lastEnd + width * index + width))
        rw [length_slice _ _ _ entry, Nat.add_sub_cancel_left, read] at stored
        exact stored.symm
      have next := run.ends
      have place : lastEnd + width * (index + 1) = lastEnd + width * index + width := by rw [Nat.mul_succ]; omega
      have count : index + 1 + pieces.length = index + (pieces.length + 1) := by omega
      rw [place, count] at next
      rw [List.length_cons, List.map_cons, layoutEnds, ends, table_cons, ← word, ← next, slice_join]
      · omega
      · have more := Nat.mul_le_mul_left width (by omega : index + 1 ≤ index + (pieces.length + 1))
        omega

theorem arrayNormalLoop_complete (data : value.data = .span address bytes)
    (carries : value.Carries (value.type, bytes)) {pieces : List Piece} {index offset : Nat}
    (inside : lastEnd + width * (index + pieces.length) ≤ bytes.length) (range : lastEnd < 256 ^ width)
    (each : ∀ piece ∈ pieces, piece.1 = element ∧ PassesPiece normal value piece)
    (run : ArrayRun bytes width lastEnd index offset pieces) :
    arrayNormalLoop normal element value width lastEnd pieces.length index offset = some true := by
  -- over the elements: the offset of the next entry follows from where the last element ended
  induction pieces generalizing index offset with
  | nil => rw [List.length_nil, arrayNormalLoop, if_pos (by simpa using run.stop)]
  | cons piece pieces ih =>
    obtain ⟨same, passes⟩ := each piece List.mem_cons_self
    obtain ⟨stop, body, ends⟩ := run
    have below : piece.part.stop offset ≤ lastEnd := by
      rw [← stop, List.map_cons, layoutEnd_cons]
      exact le_layoutEnd _ _
    have within : lastEnd ≤ bytes.length := by omega
    obtain ⟨padding, own, rest⟩ := layout_extract stop within body
    rw [List.length_cons] at inside ⊢
    have more := Nat.mul_le_mul_left width (by omega : index + 1 ≤ index + (pieces.length + 1))
    obtain ⟨word, others⟩ := slice_split (by rw [Nat.mul_succ] at more; omega) inside ends
    rw [length_leBytes] at word others
    have place : lastEnd + width * (index + 1) = lastEnd + width * index + width := by rw [Nat.mul_succ]; omega
    have count : index + 1 + pieces.length = index + (pieces.length + 1) := by omega
    have rounded := le_roundUp offset element.alignment
    have near := roundUp_le offset element.alignment
    have forward : roundUp offset element.alignment ≤ piece.part.stop offset := by
      rw [← same]
      exact Nat.le_add_right _ _
    rw [same] at padding own
    apply (arrayNormalLoop_step width lastEnd pieces.length index offset).mpr
    refine ⟨piece.part.stop offset, roundUp offset element.alignment, ?_, by omega, below, ?_, ?_, ?_⟩
    · rw [data, gvsReadUnalignedLe_span address (by omega), word, leValue_leBytes _ _ (by omega)]
    · apply skipPadding_complete element.alignment_isAlignment.isMask (by omega)
      intro position least most
      have byte := getElem?_of_slice_zeros padding least most
      rw [isArrayPadding, if_pos (by omega), data]
      exact congrArg (Option.map fun b => decide (b = 0)) byte
    · apply passes _ _ rfl
      have carried := carries.childAt element (by simp only; omega) own
      rw [← same] at carried ⊢
      exact carried
    · apply ih (by rw [count]; exact inside) fun other member => each other (List.mem_cons_of_mem _ member)
      exact ⟨stop, rest, by rw [place, count]; exact others⟩

theorem variableArray_sound (fits : bytes.length < wordSize) (carries : value.Carries (value.type, bytes))
    (accepted : gvsVariableSizedArrayIsNormal normal element value = some true) :
    ∃ pieces, (∀ piece ∈ pieces, piece.1 = element ∧ ChecksPiece normal value piece) ∧
      (pieces ≠ [] → bytes ≠ []) ∧
      bytes = layout 0 (pieces.map Piece.part) ++
        table (gvsGetOffsetSize bytes.length) (layoutEnds 0 (pieces.map Piece.part)) := by
  have size : value.size = bytes.length := carries.size
  rw [gvsVariableSizedArrayIsNormal, size] at accepted
  split at accepted
  case isTrue empty =>
    have none_bytes : bytes = [] := List.length_eq_zero_iff.mp empty
    subst none_bytes
    exact ⟨[], by simp, by simp, rfl⟩
  case isFalse nonempty =>
    have some_bytes : bytes ≠ [] := fun empty => nonempty (by rw [empty]; rfl)
    obtain ⟨address, data⟩ := carries.backed some_bytes
    simp only at data
    obtain ⟨lastEnd, read, accepted⟩ := Option.bind_eq_some_iff.mp accepted
    split at accepted
    case isTrue => cases accepted
    case isFalse within =>
      dsimp only at accepted
      split at accepted
      case isTrue => cases accepted
      case isFalse whole =>
        split at accepted
        case isTrue => cases accepted
        case isFalse =>
          have total := Nat.mul_div_cancel' (Nat.dvd_of_mod_eq_zero (not_not.mp whole))
          obtain ⟨pieces, count, each, run⟩ := arrayNormalLoop_sound data carries (by rw [Nat.zero_add]; omega) accepted
          refine ⟨pieces, each, fun _ => some_bytes, ?_⟩
          have joined := slice_join bytes 0 lastEnd bytes.length (Nat.zero_le _) (by omega)
          have ends := run.ends
          rw [Nat.mul_zero, Nat.add_zero, Nat.zero_add, count, total, Nat.add_sub_cancel' (by omega)] at ends
          rw [run.body, ends, slice_all] at joined
          exact joined.symm

theorem variableArray_complete (fits : bytes.length < wordSize) (carries : value.Carries (value.type, bytes))
    {pieces : List Piece} (each : ∀ piece ∈ pieces, piece.1 = element ∧ PassesPiece normal value piece)
    (counted : pieces ≠ [] → bytes ≠ [])
    (form : bytes = layout 0 (pieces.map Piece.part) ++
      table (gvsGetOffsetSize bytes.length) (layoutEnds 0 (pieces.map Piece.part))) :
    gvsVariableSizedArrayIsNormal normal element value = some true := by
  have size : value.size = bytes.length := carries.size
  rw [gvsVariableSizedArrayIsNormal, size]
  by_cases some_piece : pieces = []
  · subst some_piece
    have empty : bytes = [] := by simpa [layout, layoutEnds, table] using form
    rw [empty, if_pos List.length_nil]
  · have table : ArrayTable bytes pieces := ⟨fits, counted some_piece, some_piece, form⟩
    obtain ⟨address, data⟩ := carries.backed table.nonempty
    simp only at data
    have total := table.length
    have width := table.width
    have body := length_layout 0 (pieces.map Piece.part)
    have count : 0 < pieces.length := List.length_pos_iff.mpr some_piece
    have below := gvsGetOffsetSize_le bytes.length
    have range := size_lt_offsetRange fits
    have read : gvsReadUnalignedLe value.data (bytes.length - gvsGetOffsetSize bytes.length)
        (gvsGetOffsetSize bytes.length) = some (layoutEnd 0 (pieces.map Piece.part)) := by
      rw [data, gvsReadUnalignedLe_span address (by omega), ← table.lastEnd]
      rfl
    have rest : bytes.length - layoutEnd 0 (pieces.map Piece.part) =
        gvsGetOffsetSize bytes.length * pieces.length := by omega
    rw [if_neg fun empty => table.nonempty (List.length_eq_zero_iff.mp empty)]
    simp only [read, some_bind, if_neg (by omega : ¬layoutEnd 0 (pieces.map Piece.part) > bytes.length),
      rest, Nat.mul_mod_right, ne_eq, not_true_eq_false, if_false, Nat.mul_div_cancel_left _ width,
      Nat.pos_iff_ne_zero.mp count]
    apply arrayNormalLoop_complete data carries (by rw [Nat.zero_add]; omega) (by omega) each
    refine ⟨rfl, ?_, ?_⟩
    · have cut := slice_append_left (layout 0 (pieces.map Piece.part))
        (Library.table (gvsGetOffsetSize bytes.length) (layoutEnds 0 (pieces.map Piece.part))) 0
        (layoutEnd 0 (pieces.map Piece.part)) (by omega)
      rw [← form] at cut
      rw [cut, ← body, Nat.zero_add, slice_all]
    · have cut := slice_append_right (layout 0 (pieces.map Piece.part))
        (Library.table (gvsGetOffsetSize bytes.length) (layoutEnds 0 (pieces.map Piece.part))) 0
        (gvsGetOffsetSize bytes.length * pieces.length)
      rw [← form] at cut
      rw [Nat.mul_zero, Nat.zero_add, ← body, Nat.zero_add, cut]
      have whole := slice_all (Library.table (gvsGetOffsetSize bytes.length) (layoutEnds 0 (pieces.map Piece.part)))
      rw [length_table, length_layoutEnds, List.length_map] at whole
      exact whole

end Arrays

/-! ## Tuples -/

theorem Serialised.Carries.read {value : Serialised} (carries : value.Carries (value.type, bytes))
    {position width : Nat} (inside : position + width ≤ bytes.length) :
    gvsReadUnalignedLe value.data position width = some (leValue (slice bytes position (position + width))) := by
  have form := carries.bytes
  cases data : value.data with
  | null size =>
    rw [data] at form
    simp only [Data.bytes] at form
    subst form
    have zero : position = 0 ∧ width = 0 := by
      rw [List.length_nil] at inside
      omega
    obtain ⟨rfl, rfl⟩ := zero
    rfl
  | span address stored =>
    rw [data] at form
    subst form
    exact gvsReadUnalignedLe_span address inside

section Tuples
variable {memory : Nat → UInt8} {normal : Serialised → Option Bool} {value : Serialised} {bytes : Bytes}
variable {start offset : Nat}

theorem byteIn_of_carries (carries : value.Carries (value.type, bytes)) {position : Nat}
    (inside : position < bytes.length) : value.data.byteIn memory position = bytes[position]? := by
  obtain ⟨address, data⟩ := carries.backed (by
    rintro rfl
    exact Nat.not_lt_zero _ inside)
  rw [data, Data.byteIn, List.getElem?_eq_getElem inside, List.getD_eq_getElem _ _ inside]

theorem tupleNormalLoop_step (width : Nat) (member : MemberInfo) (members : List MemberInfo) (offset offsetPtr : Nat)
    (result : Nat × Nat) :
    tupleNormalLoop memory normal value width (member :: members) offset offsetPtr = some (some result) ↔
      ∃ start stop next, skipPadding (isTuplePadding memory value) member.typeInfo.alignment
          member.typeInfo.alignment offset = some (some start) ∧
        tupleNormalEnd value width member start offsetPtr = some (some (stop, next)) ∧ start ≤ stop ∧ stop ≤ next ∧
        normal (value.childAt member.type start stop) = some true ∧
        tupleNormalLoop memory normal value width members stop next = some (some result) := by
  rw [tupleNormalLoop]
  constructor
  · intro accepted
    obtain ⟨skipped, padding, accepted⟩ := Option.bind_eq_some_iff.mp accepted
    cases skipped with
    | none => cases accepted
    | some start =>
      obtain ⟨found, ending, accepted⟩ := Option.bind_eq_some_iff.mp accepted
      cases found with
      | none => cases accepted
      | some place =>
        obtain ⟨stop, next⟩ := place
        dsimp only at accepted
        split at accepted
        case isTrue => cases accepted
        case isFalse ordered =>
          obtain ⟨passed, checked, accepted⟩ := Option.bind_eq_some_iff.mp accepted
          cases passed with
          | false => cases accepted
          | true => exact ⟨start, stop, next, padding, ending, by omega, by omega, checked, accepted⟩
  · rintro ⟨start, stop, next, padding, ending, above, below, checked, accepted⟩
    have ordered : ¬(stop < start ∨ stop > next) := by omega
    simp only [padding, some_bind, ending, if_neg ordered, checked, if_true]
    exact accepted

theorem tupleNormalEnd_sound (carries : value.Carries (value.type, bytes)) (fits : bytes.length < wordSize)
    {width : Nat} {item : VariantType} {back : List VariantType} {member : MemberInfo}
    (kind : member.kind = (item, item.info, memberEnding item back)) {stop offsetPtr next : Nat}
    (ptr : offsetPtr ≤ bytes.length) (above : start ≤ stop) (below : stop ≤ next)
    (found : tupleNormalEnd value width member start offsetPtr = some (some (stop, next))) :
    if item.fixedSize ≠ 0 then stop = start + item.fixedSize ∧ next = offsetPtr
    else if back.isEmpty then stop = offsetPtr ∧ next = offsetPtr
    else next + width = offsetPtr ∧ slice bytes next offsetPtr = leBytes width stop := by
  have info : member.typeInfo = item.info := congrArg (fun kind => kind.2.1) kind
  have ending : member.ending = memberEnding item back := congrArg (fun kind => kind.2.2) kind
  rw [tupleNormalEnd, ending, memberEnding] at found
  split
  case isTrue fixed =>
    rw [if_pos fixed] at found
    simp only [Option.some.injEq, Prod.mk.injEq] at found
    obtain ⟨place, rfl⟩ := found
    have small : item.fixedSize < wordSize := item.info_wellFormed.fits
    have size : member.typeInfo.fixedSize = item.fixedSize := by rw [info]; rfl
    rw [size] at place
    refine ⟨?_, rfl⟩
    -- An end that wrapped would lie before the start.
    rcases Nat.lt_or_ge (start + item.fixedSize) wordSize with plain | wraps
    · rw [Nat.mod_eq_of_lt plain] at place
      exact place.symm
    · rw [Nat.mod_eq_sub_mod wraps, Nat.mod_eq_of_lt (by omega)] at place
      omega
  case isFalse varies =>
    rw [if_neg varies] at found
    split
    case isTrue last =>
      rw [if_pos last] at found
      simp only [Option.some.injEq, Prod.mk.injEq] at found
      exact ⟨found.1.symm, found.2.symm⟩
    case isFalse more =>
      rw [if_neg more] at found
      simp only at found
      split at found
      case isTrue => cases found
      case isFalse room =>
        split at found
        case isTrue => cases found
        case isFalse =>
          obtain ⟨read, stored, same⟩ := Option.bind_eq_some_iff.mp found
          cases same
          have place : offsetPtr - width + width = offsetPtr := by omega
          rw [carries.read (by omega), Option.some.injEq, place] at stored
          refine ⟨place, ?_⟩
          have word := leBytes_leValue (slice bytes (offsetPtr - width) offsetPtr)
          rw [length_slice _ _ _ ptr, stored] at word
          rw [← word]
          congr 1
          omega

/-- The rest of a tuple: the bytes from an offset on and the offsets below a place. -/
structure TupleRun (bytes : Bytes) (width offset offsetPtr : Nat) (pieces : List Piece) : Prop where
  room : layoutEnd offset (pieces.map Piece.part) + width * (storedEnds offset pieces).length ≤ offsetPtr
  body : slice bytes offset (layoutEnd offset (pieces.map Piece.part)) = layout offset (pieces.map Piece.part)
  ends : slice bytes (offsetPtr - width * (storedEnds offset pieces).length) offsetPtr =
    table width (storedEnds offset pieces).reverse

theorem tuplePadding_sound (carries : value.Carries (value.type, bytes))
    (inside : start ≤ bytes.length)
    (padding : ∀ position, offset ≤ position → position < start → isTuplePadding memory value position = some true) :
    ∀ position, offset ≤ position → position < start → bytes[position]? = some 0 := by
  intro position least most
  have byte := padding position least most
  have size : value.size = bytes.length := carries.size
  rw [isTuplePadding, if_neg (by omega), byteIn_of_carries carries (by omega)] at byte
  obtain ⟨found, present, isZero⟩ := Option.map_eq_some_iff.mp byte
  rw [present, of_decide_eq_true isZero]

theorem tupleNormalLoop_sound (carries : value.Carries (value.type, bytes)) (fits : bytes.length < wordSize)
    {width : Nat} {items : List VariantType} {members : List MemberInfo}
    (kinds : members.map MemberInfo.kind = memberKinds items) {offsetPtr : Nat} {result : Nat × Nat}
    (ordered : offset ≤ offsetPtr) (ptr : offsetPtr ≤ bytes.length)
    (accepted : tupleNormalLoop memory normal value width members offset offsetPtr = some (some result)) :
    ∃ pieces, pieces.map Prod.fst = items ∧ (∀ piece ∈ pieces, ChecksPiece normal value piece) ∧ Sized pieces ∧
      result = (layoutEnd offset (pieces.map Piece.part), offsetPtr - width * (storedEnds offset pieces).length) ∧
      TupleRun bytes width offset offsetPtr pieces := by
  -- one member is cut off in front, and its end offset, where it has one, behind
  induction items generalizing members offset offsetPtr with
  | nil =>
    have none_left := List.map_eq_nil_iff.mp kinds
    subst none_left
    simp only [tupleNormalLoop, Option.some.injEq] at accepted
    refine ⟨[], rfl, by simp, by simp [Sized], accepted.symm, ordered, ?_, ?_⟩
    · simp [slice, layout]
    · simp [slice, storedEnds, table]
  | cons item items ih =>
    obtain ⟨member, members, rfl, kind, kinds⟩ := List.map_eq_cons_iff.mp kinds
    obtain ⟨start, stop, next, padding, found, above, below, checked, rest⟩ :=
      (tupleNormalLoop_step width member members offset offsetPtr result).mp accepted
    have type : member.type = item := congrArg (fun kind => kind.1) kind
    have mask : member.typeInfo.alignment = item.alignment := congrArg (fun kind => kind.2.1.alignment) kind
    rw [mask] at padding
    rw [type] at checked
    obtain ⟨rounded, zero⟩ := skipPadding_sound item.alignment_isAlignment.isMask padding
    have ending := tupleNormalEnd_sound carries fits kind ptr above below found
    have lower : next ≤ offsetPtr := by
      split at ending
      · omega
      · split at ending <;> omega
    obtain ⟨pieces, types, each, sized, same, run⟩ := ih kinds below (by omega) rest
    have within : stop ≤ bytes.length := by omega
    obtain ⟨ends, body⟩ := layout_extend rounded (tuplePadding_sound carries (by omega) zero) above within
      (le_layoutEnd stop (pieces.map Piece.part)) run.body
    have length := length_slice bytes start stop within
    have room := run.room
    have last : layoutEnd offset (((item, slice bytes start stop) :: pieces).map Piece.part) =
        layoutEnd stop (pieces.map Piece.part) := by
      rw [List.map_cons, layoutEnd_cons, ends]
    have nonempty : pieces = [] ↔ items = [] := by
      rw [← types, List.map_eq_nil_iff]
    have every : ∀ piece ∈ (item, slice bytes start stop) :: pieces, ChecksPiece normal value piece := by
      intro piece among
      rcases List.mem_cons.mp among with rfl | later
      · exact ⟨_, carries.childAt item within rfl, rfl, checked⟩
      · exact each piece later
    have sizes : Sized ((item, slice bytes start stop) :: pieces) := by
      intro piece among fixed
      rcases List.mem_cons.mp among with rfl | later
      · rw [if_pos fixed] at ending
        simp only [length]
        omega
      · exact sized piece later fixed
    refine ⟨(item, slice bytes start stop) :: pieces, by simp [types], every, sizes, ?_⟩
    -- the entry of this member stands before those of the later ones
    by_cases stored : item.fixedSize = 0 ∧ items ≠ []
    · rw [if_neg (not_not.mpr stored.1), if_neg (by simpa using stored.2)] at ending
      obtain ⟨place, word⟩ := ending
      have kept : storedEnds offset ((item, slice bytes start stop) :: pieces) = stop :: storedEnds stop pieces := by
        simp only [storedEnds, ends]
        rw [if_pos ⟨stored.1, fun none_left => stored.2 (nonempty.mp none_left)⟩]
      have lowest : offsetPtr - width * (stop :: storedEnds stop pieces).length =
          next - width * (storedEnds stop pieces).length := by
        rw [List.length_cons, Nat.mul_succ]
        omega
      rw [last, kept, lowest]
      refine ⟨same, ?_, by rw [last]; exact body, ?_⟩
      · rw [last, kept, List.length_cons, Nat.mul_succ]
        omega
      · rw [kept, lowest, List.reverse_cons, table_append, ← run.ends, ← slice_join bytes _ next _ (by omega) lower, word]
        simp [table]
    · have kept : storedEnds offset ((item, slice bytes start stop) :: pieces) = storedEnds stop pieces := by
        simp only [storedEnds, ends]
        rw [if_neg fun both => stored ⟨both.1, fun none_left => both.2 (nonempty.mpr none_left)⟩]
      have unmoved : next = offsetPtr := by
        split at ending
        · exact ending.2
        · rename_i varies
          have single : items = [] := by
            by_contra more
            exact stored ⟨not_not.mp varies, more⟩
          rw [if_pos (by simp [single])] at ending
          exact ending.2
      subst unmoved
      rw [last, kept]
      exact ⟨same, by rw [last, kept]; exact room, by rw [last]; exact body, by rw [kept]; exact run.ends⟩

theorem tuplePadding_complete (carries : value.Carries (value.type, bytes))
    (inside : start ≤ bytes.length) (padding : slice bytes offset start = zeros (start - offset)) :
    ∀ position, offset ≤ position → position < start → isTuplePadding memory value position = some true := by
  intro position least most
  have byte := getElem?_of_slice_zeros padding least most
  have size : value.size = bytes.length := carries.size
  rw [isTuplePadding, if_neg (by omega), byteIn_of_carries carries (by omega), byte]
  rfl

theorem tupleNormalLoop_complete (carries : value.Carries (value.type, bytes)) (fits : bytes.length < wordSize)
    {width : Nat} (range : ∀ stop ≤ bytes.length, stop < 256 ^ width) {pieces : List Piece}
    {members : List MemberInfo} (kinds : members.map MemberInfo.kind = memberKinds (pieces.map Prod.fst))
    {offset offsetPtr : Nat} (ptr : offsetPtr ≤ bytes.length) (sized : Sized pieces)
    (each : ∀ piece ∈ pieces, PassesPiece normal value piece) (run : TupleRun bytes width offset offsetPtr pieces)
    (tight : (∀ piece ∈ pieces, piece.1.fixedSize ≠ 0) ∨
      layoutEnd offset (pieces.map Piece.part) + width * (storedEnds offset pieces).length = offsetPtr) :
    tupleNormalLoop memory normal value width members offset offsetPtr =
      some (some (layoutEnd offset (pieces.map Piece.part),
        offsetPtr - width * (storedEnds offset pieces).length)) := by
  -- the loop takes the members from the front of the body and their end offsets from the back of the table
  induction pieces generalizing members offset offsetPtr with
  | nil =>
    have none_left := List.map_eq_nil_iff.mp kinds
    subst none_left
    rfl
  | cons piece pieces ih =>
    obtain ⟨member, members, rfl, kind, kinds⟩ := List.map_eq_cons_iff.mp kinds
    have type : member.type = piece.1 := congrArg (fun kind => kind.1) kind
    have info : member.typeInfo = piece.1.info := congrArg (fun kind => kind.2.1) kind
    have ending : member.ending = memberEnding piece.1 (pieces.map Prod.fst) := congrArg (fun kind => kind.2.2) kind
    have mask : member.typeInfo.alignment = piece.1.alignment := congrArg TypeInfo.alignment info
    obtain ⟨room, body, ends⟩ := run
    have later : piece.part.stop offset ≤ layoutEnd offset ((piece :: pieces).map Piece.part) := by
      exact le_layoutEnd _ _
    obtain ⟨padding, own, rest⟩ := layout_extract rfl (by omega) body
    have near := roundUp_le offset piece.1.alignment
    have forward : roundUp offset piece.1.alignment ≤ piece.part.stop offset := Nat.le_add_right _ _
    have passed := each piece List.mem_cons_self _ (carries.childAt piece.1 (by simp only; omega) own) rfl
    have skipped := @skipPadding_complete (isTuplePadding memory value) _ piece.1.alignment_isAlignment.isMask
      piece.1.alignment offset (by omega) (tuplePadding_complete carries (by omega) padding)
    have others : ∀ other ∈ pieces, PassesPiece normal value other := fun other among =>
      each other (List.mem_cons_of_mem _ among)
    have sizes : Sized pieces := fun other among => sized other (List.mem_cons_of_mem _ among)
    rw [List.map_cons, layoutEnd_cons] at room tight body rest later ⊢
    apply (tupleNormalLoop_step width member members offset offsetPtr _).mpr
    -- only members of variable size before the last one have an entry in the table
    by_cases stored : piece.1.fixedSize = 0 ∧ pieces ≠ []
    · have kept : storedEnds offset (piece :: pieces) =
          piece.part.stop offset :: storedEnds (piece.part.stop offset) pieces := by
        simp only [storedEnds, if_pos stored]
      rw [kept, List.length_cons, Nat.mul_succ] at room tight ends ⊢
      rw [List.reverse_cons, table_append] at ends
      obtain ⟨earlier, word⟩ := slice_split (by omega) ptr ends
      have place : offsetPtr - (width * (storedEnds (piece.part.stop offset) pieces).length + width) +
          (table width (storedEnds (piece.part.stop offset) pieces).reverse).length = offsetPtr - width := by
        rw [length_table, List.length_reverse]
        omega
      rw [place] at earlier word
      have lowest : offsetPtr - (width * (storedEnds (piece.part.stop offset) pieces).length + width) =
          offsetPtr - width - width * (storedEnds (piece.part.stop offset) pieces).length := by omega
      rw [lowest] at earlier ⊢
      refine ⟨roundUp offset piece.1.alignment, piece.part.stop offset, offsetPtr - width, mask ▸ skipped, ?_, forward,
        by omega, type ▸ passed, ?_⟩
      · have isOffset : member.ending = .offset := by
          rw [ending, memberEnding, if_neg (not_not.mpr stored.1), if_neg (by simpa using stored.2)]
        have single : table width [piece.part.stop offset] = leBytes width (piece.part.stop offset) := by simp [table]
        have ordered : ¬offsetPtr - width < roundUp offset piece.1.alignment := by omega
        simp only [tupleNormalEnd, isOffset, if_neg (by omega : ¬offsetPtr < width), if_neg ordered]
        rw [carries.read (by omega), Nat.sub_add_cancel (by omega), word, single,
          leValue_leBytes _ _ (range _ (by omega))]
        rfl
      · apply ih kinds (by omega) sizes others
        · exact ⟨by omega, rest, earlier⟩
        · right
          rcases tight with fixed | whole
          · exact absurd stored.1 (fixed piece List.mem_cons_self)
          · omega
    · have kept : storedEnds offset (piece :: pieces) = storedEnds (piece.part.stop offset) pieces := by
        simp only [storedEnds, if_neg stored]
      rw [kept] at room tight ends ⊢
      refine ⟨roundUp offset piece.1.alignment, piece.part.stop offset, offsetPtr, mask ▸ skipped, ?_, forward,
        by omega, type ▸ passed, ?_⟩
      · by_cases varies : piece.1.fixedSize = 0
        · have single : pieces = [] := by
            by_contra more
            exact stored ⟨varies, more⟩
          subst single
          have isLast : member.ending = .last := by
            rw [ending, memberEnding, if_neg (not_not.mpr varies)]
            rfl
          have whole := tight.resolve_left fun fixed => fixed piece List.mem_cons_self varies
          simp only [List.map_nil, layoutEnd_nil, storedEnds, List.length_nil, Nat.mul_zero, Nat.add_zero] at whole
          rw [tupleNormalEnd, isLast, whole]
        · have isFixed : member.ending = .fixed := by rw [ending, memberEnding, if_pos varies]
          have size : member.typeInfo.fixedSize = piece.2.length := by
            rw [info]
            exact (sized piece List.mem_cons_self varies).symm
          have stop : roundUp offset piece.1.alignment + piece.2.length = piece.part.stop offset := rfl
          rw [tupleNormalEnd, isFixed]
          simp only [size, stop]
          rw [Nat.mod_eq_of_lt (by omega)]
      · apply ih kinds ptr sizes others
        · exact ⟨room, rest, ends⟩
        · rcases tight with fixed | whole
          · exact Or.inl fun other among => fixed other (List.mem_cons_of_mem _ among)
          · exact Or.inr whole

theorem tupleNormalTail_sound (carries : value.Carries (value.type, bytes)) (tuple : value.type.isTuple = true)
    (fixed : bytes.length = value.type.fixedSize) (start : value.type.items = [] → offset = 0)
    (accepted : tupleNormalTail memory value offset = some (some bytes.length)) :
    slice bytes offset bytes.length = zeros (bytes.length - offset) := by
  apply slice_eq_zeros
  have zero : ∀ position, position < bytes.length → isTailPadding memory value position = some true →
      bytes[position]? = some 0 := by
    intro position inside byte
    rw [isTailPadding, byteIn_of_carries carries inside] at byte
    obtain ⟨found, present, isZero⟩ := Option.map_eq_some_iff.mp byte
    rw [present, of_decide_eq_true isZero]
  rw [tupleNormalTail, length_members] at accepted
  split at accepted
  case isTrue unit =>
    have none_item := List.length_eq_zero_iff.mp unit
    have size := VariantType.fixedSize_unit tuple none_item
    obtain ⟨padded, byte, -⟩ := Option.bind_eq_some_iff.mp accepted
    intro position least most
    have first : position = offset := by
      have := start none_item
      omega
    subst first
    apply zero position most
    cases padded with
    | true => exact byte
    | false => simp_all
  case isFalse =>
    obtain ⟨-, padding⟩ := skipPadding_sound value.type.alignment_isAlignment.isMask accepted
    exact fun position least most => zero position most (padding position least most)

theorem tuple_sound (carries : value.Carries (value.type, bytes)) (fits : bytes.length < wordSize)
    (tuple : value.type.isTuple = true) (sizes : value.type.fixedSize ≠ 0 → bytes.length = value.type.fixedSize)
    (accepted : gvsTupleIsNormal memory normal value = some true) :
    ∃ pieces, pieces.map Prod.fst = value.type.items ∧ (∀ piece ∈ pieces, ChecksPiece normal value piece) ∧
      Sized pieces ∧ bytes = tupleFields value.type pieces ++
        table (gvsGetOffsetSize bytes.length) (storedEnds 0 pieces).reverse := by
  have size : value.size = bytes.length := carries.size
  rw [gvsTupleIsNormal, size] at accepted
  split at accepted
  case isTrue => cases accepted
  case isFalse =>
    obtain ⟨looped, loop, accepted⟩ := Option.bind_eq_some_iff.mp accepted
    cases looped with
    | none => cases accepted
    | some result =>
      obtain ⟨pieces, types, each, sized, same, run⟩ :=
        tupleNormalLoop_sound carries fits (members_kinds value.type) (Nat.zero_le _) (Nat.le_refl _) loop
      subst same
      dsimp only at accepted
      have room := run.room
      have body := run.body
      have ends := run.ends
      have length := length_layout 0 (pieces.map Piece.part)
      refine ⟨pieces, types, each, sized, ?_⟩
      split at accepted
      case isTrue fixed =>
        have none_end : storedEnds 0 pieces = [] := storedEnds_eq_nil (pieces_fixed tuple types fixed) 0
        split at accepted
        case isFalse => cases accepted
        case isTrue =>
          obtain ⟨tailed, tail, accepted⟩ := Option.bind_eq_some_iff.mp accepted
          cases tailed with
          | none => cases accepted
          | some stop =>
            dsimp only at accepted
            split at accepted
            case isFalse => cases accepted
            case isTrue whole =>
              subst whole
              have first : value.type.items = [] → layoutEnd 0 (pieces.map Piece.part) = 0 := by
                intro unit
                have none_piece : pieces = [] := List.map_eq_nil_iff.mp (types.trans unit)
                rw [none_piece]
                rfl
              have padding := tupleNormalTail_sound carries tuple (sizes fixed) first tail
              have joined := slice_join bytes 0 (layoutEnd 0 (pieces.map Piece.part)) bytes.length (Nat.zero_le _)
                (by omega)
              rw [slice_all, body, padding] at joined
              have left : value.type.fixedSize - (layout 0 (pieces.map Piece.part)).length =
                  bytes.length - layoutEnd 0 (pieces.map Piece.part) := by
                have := sizes fixed
                omega
              simp only [tupleFields, none_end, List.reverse_nil, table, List.flatMap_nil, List.append_nil, left]
              exact joined.symm
      case isFalse varies =>
        have met := of_decide_eq_true (Option.some.inj accepted)
        have joined := slice_join bytes 0 (layoutEnd 0 (pieces.map Piece.part)) bytes.length (Nat.zero_le _) (by omega)
        rw [met] at ends
        rw [slice_all, body, ends] at joined
        simp only [tupleFields, not_not.mp varies, Nat.zero_sub, zeros, List.replicate_zero, List.append_nil]
        exact joined.symm

theorem tuple_complete (carries : value.Carries (value.type, bytes)) (fits : bytes.length < wordSize)
    (tuple : value.type.isTuple = true) {pieces : List Piece} (types : pieces.map Prod.fst = value.type.items)
    (sized : Sized pieces) (each : ∀ piece ∈ pieces, PassesPiece normal value piece)
    (form : bytes = tupleFields value.type pieces ++
      table (gvsGetOffsetSize bytes.length) (storedEnds 0 pieces).reverse)
    (sizes : value.type.fixedSize ≠ 0 → bytes.length = value.type.fixedSize) :
    gvsTupleIsNormal memory normal value = some true := by
  have size : value.size = bytes.length := carries.size
  have length := length_layout 0 (pieces.map Piece.part)
  have total := congrArg List.length form
  simp only [tupleFields, List.length_append, length_zeros, length_table, List.length_reverse] at total
  have range : ∀ stop ≤ bytes.length, stop < 256 ^ gvsGetOffsetSize bytes.length := fun stop below =>
    Nat.lt_of_le_of_lt below (size_lt_offsetRange fits)
  have body : slice bytes 0 (layoutEnd 0 (pieces.map Piece.part)) = layout 0 (pieces.map Piece.part) := by
    have cut := slice_append_left (layout 0 (pieces.map Piece.part))
      (zeros (value.type.fixedSize - (layout 0 (pieces.map Piece.part)).length) ++
        table (gvsGetOffsetSize bytes.length) (storedEnds 0 pieces).reverse) 0
      (layoutEnd 0 (pieces.map Piece.part)) (by omega)
    rw [← List.append_assoc] at cut
    change slice (tupleFields value.type pieces ++ _) _ _ = _ at cut
    rw [← form] at cut
    rw [cut, ← length, Nat.zero_add, slice_all]
  have ends : slice bytes (bytes.length - gvsGetOffsetSize bytes.length * (storedEnds 0 pieces).length) bytes.length =
      table (gvsGetOffsetSize bytes.length) (storedEnds 0 pieces).reverse := by
    have cut := slice_append_right (tupleFields value.type pieces)
      (table (gvsGetOffsetSize bytes.length) (storedEnds 0 pieces).reverse) 0
      (gvsGetOffsetSize bytes.length * (storedEnds 0 pieces).length)
    have whole := slice_all (table (gvsGetOffsetSize bytes.length) (storedEnds 0 pieces).reverse)
    rw [length_table, List.length_reverse] at whole
    have fields : (tupleFields value.type pieces).length + 0 =
        bytes.length - gvsGetOffsetSize bytes.length * (storedEnds 0 pieces).length := by
      simp only [tupleFields, List.length_append, length_zeros]
      omega
    have last : (tupleFields value.type pieces).length +
        gvsGetOffsetSize bytes.length * (storedEnds 0 pieces).length = bytes.length := by
      omega
    rw [← form, fields, last, whole] at cut
    exact cut
  -- what the loop is left with where all members have been taken
  have tight : (∀ piece ∈ pieces, piece.1.fixedSize ≠ 0) ∨ layoutEnd 0 (pieces.map Piece.part) +
      gvsGetOffsetSize bytes.length * (storedEnds 0 pieces).length = bytes.length := by
    -- a tuple of fixed size has no table, but may end in padding
    by_cases fixed : value.type.fixedSize = 0
    · right
      omega
    · exact Or.inl (pieces_fixed tuple types fixed)
  have looped := @tupleNormalLoop_complete memory normal value bytes carries fits _ range pieces value.type.members
    (by rw [members_kinds, types]) 0 bytes.length (Nat.le_refl _) sized each ⟨by omega, body, ends⟩ tight
  have present : ¬(value.data.isNull = true ∧ bytes.length ≠ 0) := by
    rintro ⟨null, nonempty⟩
    exact nonempty (size ▸ carries.size_of_null null)
  rw [gvsTupleIsNormal, size, if_neg present]
  simp only [looped, some_bind]
  by_cases fixed : value.type.fixedSize = 0
  · rw [if_neg (not_not.mpr fixed)]
    have met : bytes.length - gvsGetOffsetSize bytes.length * (storedEnds 0 pieces).length =
        layoutEnd 0 (pieces.map Piece.part) := by omega
    rw [met]
    simp
  · have whole := sizes fixed
    have none_end : storedEnds 0 pieces = [] := storedEnds_eq_nil (pieces_fixed tuple types fixed) 0
    have padding : ∀ position, layoutEnd 0 (pieces.map Piece.part) ≤ position → position < bytes.length →
        isTailPadding memory value position = some true := by
      intro position least most
      have zero : bytes[position]? = some 0 := by
        rw [form]
        simp only [tupleFields, none_end, List.reverse_nil, table, List.flatMap_nil, List.append_nil]
        rw [List.getElem?_append_right (by omega), zeros, List.getElem?_replicate, if_pos (by omega)]
      rw [isTailPadding, byteIn_of_carries carries most, zero]
      rfl
    have tail : tupleNormalTail memory value (layoutEnd 0 (pieces.map Piece.part)) = some (some bytes.length) := by
      rw [tupleNormalTail, length_members]
      by_cases unit : pieces = []
      · have none_item : value.type.items = [] := by rw [← types, unit]; rfl
        have one := VariantType.fixedSize_unit tuple none_item
        have start : layoutEnd 0 (pieces.map Piece.part) = 0 := by rw [unit]; rfl
        rw [start] at padding ⊢
        rw [if_pos (by rw [none_item]; rfl), padding 0 (Nat.le_refl _) (by omega)]
        simp [whole, one]
      · have rounded := roundUp_body tuple types sized fixed unit (by omega)
        have some_item : ¬value.type.items.length = 0 := by
          rw [← types, List.length_map]
          exact fun none_piece => unit (List.length_eq_zero_iff.mp none_piece)
        have near := roundUp_le (layoutEnd 0 (pieces.map Piece.part)) value.type.alignment
        rw [if_neg some_item, skipPadding_complete value.type.alignment_isAlignment.isMask (by omega)
          (fun position least most => padding position least (by omega)), rounded, whole]
    rw [if_pos fixed, if_pos ⟨whole.symm, by rw [none_end]; simp⟩, tail]
    simp [none_end]

end Tuples

/-! ## Variants -/

theorem VariantType.nesting_of_valid {t : VariantType} (valid : xvariantTypeStringIsValid t.string = true) :
    t.toExpr.nesting ≤ maxRecursionDepth := by
  obtain ⟨expression, same, shallow⟩ := (xvariantTypeStringIsValid_iff _).mp valid
  have definite : xvariantTypeIsDefinite t.string = true := (xvariantTypeIsDefinite_string _).mpr ⟨t, rfl⟩
  rw [same] at definite
  obtain ⟨other, rfl⟩ := (xvariantTypeIsDefinite_string _).mp definite
  rw [VariantType.string_injective (t := t) (u := other) same]
  exact shallow

theorem gvsVariantGetChild_cases {value child : Serialised}
    (carries : value.Carries (value.type, bytes)) (found : gvsVariantGetChild value = some child) :
    child = unitChild value ∨ ∃ type position, position < bytes.length ∧
      bytes = slice bytes 0 position ++ 0 :: type.string ∧ child = value.childAt type 0 position ∧
      type.Readable value.depth ∧ (type.fixedSize ≠ 0 → position = type.fixedSize) := by
  have size : value.size = bytes.length := carries.size
  rw [gvsVariantGetChild, size] at found
  split at found
  case isTrue => exact Or.inl (Option.some.inj found).symm
  case isFalse nonempty =>
    obtain ⟨address, data⟩ := carries.backed (fun empty => nonempty (by simp only at empty; rw [empty]; rfl))
    rw [data] at found
    obtain ⟨position, searched, found⟩ := Option.bind_eq_some_iff.mp found
    obtain ⟨other, again, bound⟩ := findNul_inside address bytes (bytes.length - 1) (by omega)
    rw [searched, Option.some.injEq] at again
    obtain ⟨byte, here, found⟩ := Option.bind_eq_some_iff.mp found
    split at found
    case isTrue => exact Or.inl (Option.some.inj found).symm
    case isFalse zero =>
      have isZero := not_not.mp zero
      subst isZero
      dsimp only at found
      split at found
      case isFalse => exact Or.inl (Option.some.inj found).symm
      case isTrue accepted =>
        rw [Bool.and_eq_true] at accepted
        obtain ⟨type, parsed, string⟩ := ofString_of_valid accepted.1 accepted.2
        rw [parsed] at found
        simp only [some_bind] at found
        split at found
        case isFalse => exact Or.inl (Option.some.inj found).symm
        case isTrue fitting =>
          right
          refine ⟨type, position, by omega, ?_, ?_, ⟨?_, fitting.2⟩, fun fixed => ?_⟩
          · have first := slice_join bytes 0 position bytes.length (Nat.zero_le _) (by omega)
            have second := slice_join bytes position (position + 1) bytes.length (by omega) (by omega)
            have single : slice bytes position (position + 1) = [0] := by
              have present : bytes[position]? = some 0 := here
              obtain ⟨inside, same⟩ := List.getElem?_eq_some_iff.mp present
              rw [slice, List.drop_eq_getElem_cons inside, same]
              simp
            have rest : slice bytes (position + 1) bytes.length = type.string := string.symm
            rw [single, rest] at second
            rw [← second, slice_all] at first
            exact first.symm
          · rw [← Option.some.inj found, Serialised.childAt, data]
            by_cases empty : position = 0
            · simp [empty]
            · simp [empty, Nat.pos_of_ne_zero empty]
          · apply VariantType.nesting_of_valid
            rw [string]
            exact accepted.1
          · exact (fitting.1.resolve_left fixed).symm

section Variants
variable {normal : Serialised → Option Bool} {value : Serialised} {bytes : Bytes}

theorem variant_sound (carries : value.Carries (value.type, bytes))
    (accepted : gvsVariantIsNormal normal value = some true) :
    ∃ piece : Piece, bytes = piece.2 ++ 0 :: piece.1.string ∧ ChecksPiece normal value piece ∧
      piece.1.Readable value.depth ∧ (piece.1.fixedSize ≠ 0 → piece.2.length = piece.1.fixedSize) := by
  obtain ⟨child, found, accepted⟩ := Option.bind_eq_some_iff.mp accepted
  split at accepted
  case isFalse => cases accepted
  case isTrue allowed =>
    rcases gvsVariantGetChild_cases carries found with rfl | ⟨type, position, inside, form, rfl, readable, fixed⟩
    · rcases allowed.2 with present | empty
      · cases present
      · cases empty
    · have length := length_slice bytes 0 position (by omega)
      refine ⟨(type, slice bytes 0 position), form, ⟨_, ?_, rfl, accepted⟩, readable, fun size => ?_⟩
      · exact carries.childAt type (by simp only; omega) rfl
      · have place : position = type.fixedSize := fixed size
        simp only [length]
        omega

theorem variant_complete {piece : Piece} (carries : value.Carries (value.type, piece.2 ++ 0 :: piece.1.string))
    (readable : piece.1.Readable value.depth)
    (sized : piece.1.fixedSize ≠ 0 → piece.2.length = piece.1.fixedSize) (passes : PassesPiece normal value piece) :
    gvsVariantIsNormal normal value = some true := by
  have child := variant_childAt carries
  have present : (value.childAt piece.1 0 piece.2.length).data.isNull = false ∨
      (value.childAt piece.1 0 piece.2.length).size = 0 := by
    by_cases empty : piece.2 = []
    · right
      rw [child.size, empty]
      rfl
    · left
      obtain ⟨address, data⟩ := child.backed empty
      rw [data]
      rfl
  rw [gvsVariantIsNormal, gvsVariantGetChild_eq carries readable sized]
  simp only [some_bind]
  rw [if_pos ⟨readable.2, present⟩]
  exact passes _ child rfl

end Variants

/-! ## Maybes and fixed-sized arrays -/

section Maybes
variable {normal : Serialised → Option Bool} {element : VariantType} {value : Serialised} {bytes : Bytes}

theorem fixedMaybe_sound (carries : value.Carries (value.type, bytes))
    (accepted : gvsFixedSizedMaybeIsNormal normal element value = some true) :
    bytes = [] ∨ bytes.length = element.fixedSize ∧ ChecksPiece normal value (element, bytes) := by
  have size : value.size = bytes.length := carries.size
  rw [gvsFixedSizedMaybeIsNormal, size] at accepted
  split at accepted
  case isFalse empty => exact Or.inl (List.length_eq_zero_iff.mp (by omega))
  case isTrue =>
    split at accepted
    case isTrue => cases accepted
    case isFalse same =>
      exact Or.inr ⟨not_not.mp same, { type := element, data := value.data, depth := value.depth + 1 },
        ⟨rfl, carries.bytes, carries.size, carries.placed, carries.null⟩, rfl, accepted⟩

theorem variableMaybe_sound (carries : value.Carries (value.type, bytes))
    (accepted : gvsVariableSizedMaybeIsNormal normal element value = some true) :
    bytes = [] ∨ ∃ inner, bytes = inner ++ [0] ∧ ChecksPiece normal value (element, inner) := by
  have size : value.size = bytes.length := carries.size
  rw [gvsVariableSizedMaybeIsNormal, size] at accepted
  split at accepted
  case isTrue empty => exact Or.inl (List.length_eq_zero_iff.mp empty)
  case isFalse nonempty =>
    obtain ⟨address, data⟩ := carries.backed (fun empty => nonempty (by simp only at empty; rw [empty]; rfl))
    obtain ⟨last, byte, accepted⟩ := Option.bind_eq_some_iff.mp accepted
    split at accepted
    case isTrue => cases accepted
    case isFalse zero =>
      have isZero := not_not.mp zero
      subst isZero
      rw [data] at byte accepted
      have present : bytes[bytes.length - 1]? = some 0 := byte
      obtain ⟨inside, same⟩ := List.getElem?_eq_some_iff.mp present
      have joined := slice_join bytes 0 (bytes.length - 1) bytes.length (Nat.zero_le _) (by omega)
      have single : slice bytes (bytes.length - 1) bytes.length = [0] := by
        have width : bytes.length - (bytes.length - 1) = 1 := by omega
        rw [slice, List.drop_eq_getElem_cons inside, same, width]
        simp
      rw [single, slice_all] at joined
      have length := length_slice bytes 0 (bytes.length - 1) (by omega)
      have placed := carries.placed
      have null := carries.null
      rw [Serialised.size, data] at placed
      rw [data] at null
      simp only [Data.address, Data.size] at placed null
      refine Or.inr ⟨slice bytes 0 (bytes.length - 1), joined.symm, _, ⟨rfl, rfl, rfl, ?_, ?_⟩, rfl, accepted⟩
      · simp only [Serialised.size, Data.range, Data.address, Data.size, length]
        omega
      · intro zero
        have empty := null zero
        simp [empty, slice]

theorem fixedMaybe_complete (carries : value.Carries (value.type, bytes)) (fixed : element.fixedSize ≠ 0)
    (sized : bytes.length = element.fixedSize) (passes : PassesPiece normal value (element, bytes)) :
    gvsFixedSizedMaybeIsNormal normal element value = some true := by
  have size : value.size = bytes.length := carries.size
  rw [gvsFixedSizedMaybeIsNormal, size, if_pos (by omega), if_neg (not_not.mpr sized)]
  exact passes _ ⟨rfl, carries.bytes, carries.size, carries.placed, carries.null⟩ rfl

theorem variableMaybe_complete (carries : value.Carries (value.type, bytes ++ [0]))
    (passes : PassesPiece normal value (element, bytes)) :
    gvsVariableSizedMaybeIsNormal normal element value = some true := by
  have size : value.size = bytes.length + 1 := by simpa using carries.size
  obtain ⟨address, data⟩ := carries.backed (by simp)
  have byte : value.data.byte (value.size - 1) = some 0 := by
    rw [data, size, Data.byte, Nat.add_sub_cancel, List.getElem?_append_right (Nat.le_refl _), Nat.sub_self]
    rfl
  have placed := carries.placed
  have null := carries.null
  rw [data] at placed null
  simp only [Data.address] at placed null
  have cut := slice_append_left bytes [0] 0 bytes.length (Nat.le_refl _)
  rw [slice_all] at cut
  rw [gvsVariableSizedMaybeIsNormal, if_neg (by omega), byte]
  apply passes _ _ rfl
  rw [size, Nat.add_sub_cancel, data, Data.range, cut]
  refine ⟨rfl, rfl, rfl, ?_, ?_⟩
  · simp only [Serialised.size, Data.address, Data.size]
    omega
  · intro zero
    simpa using null zero

theorem allNormal_iff (children : List Serialised) :
    allNormal normal children = some true ↔ ∀ child ∈ children, normal child = some true := by
  induction children with
  | nil => simp [allNormal]
  | cons child children ih =>
    rw [allNormal, List.forall_mem_cons, ← ih]
    constructor
    · intro accepted
      obtain ⟨passed, checked, accepted⟩ := Option.bind_eq_some_iff.mp accepted
      cases passed with
      | false => cases accepted
      | true => exact ⟨checked, accepted⟩
    · rintro ⟨checked, accepted⟩
      simp only [checked, some_bind, if_true]
      exact accepted

theorem flatMap_blocks (bytes : Bytes) (size count : Nat) (length : bytes.length = size * count) :
    ((List.range count).map fun index => slice bytes (size * index) (size * index + size)).flatten = bytes := by
  have run : ∀ n ≤ count, ((List.range n).map fun index => slice bytes (size * index) (size * index + size)).flatten =
      slice bytes 0 (size * n) := by
    intro n
    induction n with
    | zero => exact fun _ => by simp [slice]
    | succ n ih =>
      intro bound
      rw [List.range_succ, List.map_append, List.flatten_append, ih (by omega), List.map_singleton,
        List.flatten_singleton, slice_join bytes 0 (size * n) (size * n + size) (Nat.zero_le _) (Nat.le_add_right _ _),
        Nat.mul_succ]
  rw [run count (Nat.le_refl _), ← length, slice_all]

theorem fixedArray_sound (carries : value.Carries (value.type, bytes)) (fixed : element.fixedSize ≠ 0)
    (accepted : gvsFixedSizedArrayIsNormal normal element value = some true) :
    ∃ pieces : List Piece, bytes = pieces.flatMap Prod.snd ∧
      ∀ piece ∈ pieces, piece.1 = element ∧ piece.2.length = element.fixedSize ∧ ChecksPiece normal value piece := by
  have size : value.size = bytes.length := carries.size
  rw [gvsFixedSizedArrayIsNormal, size] at accepted
  split at accepted
  case isTrue => cases accepted
  case isFalse whole =>
    have length := Nat.mul_div_cancel' (Nat.dvd_of_mod_eq_zero (not_not.mp whole))
    rw [allNormal_iff] at accepted
    refine ⟨(List.range (bytes.length / element.fixedSize)).map fun index =>
      (element, slice bytes (element.fixedSize * index) (element.fixedSize * index + element.fixedSize)), ?_, ?_⟩
    · rw [List.flatMap_map, List.flatMap_def]
      exact (flatMap_blocks bytes _ _ length.symm).symm
    · intro piece member
      obtain ⟨index, bound, rfl⟩ := List.mem_map.mp member
      have below := Nat.mul_le_mul_left element.fixedSize (List.mem_range.mp bound)
      rw [Nat.succ_eq_add_one, Nat.mul_succ, length] at below
      refine ⟨rfl, ?_, gvsFixedSizedArrayGetChild element value index, ?_, rfl, ?_⟩
      · rw [length_slice _ _ _ below]
        omega
      · exact carries.range (element.fixedSize * index) _ below (gvsFixedSizedArrayGetChild element value index)
          (by rw [if_pos (by omega)]; rfl)
      · exact accepted _ (List.mem_map_of_mem bound)

theorem fixedArray_complete {pieces : List Piece} (carries : value.Carries (value.type, pieces.flatMap Prod.snd))
    (fixed : element.fixedSize ≠ 0)
    (alike : ∀ piece ∈ pieces, piece.1 = element ∧ piece.2.length = element.fixedSize)
    (passes : ∀ piece ∈ pieces, PassesPiece normal value piece) :
    gvsFixedSizedArrayIsNormal normal element value = some true := by
  have size : value.size = element.fixedSize * pieces.length := carries.size.trans (length_flatMap_fixed alike)
  rw [gvsFixedSizedArrayIsNormal, size, Nat.mul_mod_right, if_neg (not_not.mpr rfl),
    Nat.mul_div_cancel_left _ (Nat.pos_of_ne_zero fixed), allNormal_iff]
  intro child member
  obtain ⟨index, bound, rfl⟩ := List.mem_map.mp member
  have inside := List.mem_range.mp bound
  have shape : pieces = pieces.take index ++ pieces[index] :: pieces.drop (index + 1) := by
    rw [List.getElem_cons_drop, List.take_append_drop]
  have place : (pieces.take index).length = index := by
    rw [List.length_take]
    omega
  have found := fixedArray_child fixed carries alike shape
  rw [place] at found
  exact passes _ (List.getElem_mem inside) _ found rfl

end Maybes

end Xpl.Variant
