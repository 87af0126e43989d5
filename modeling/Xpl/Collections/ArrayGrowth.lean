import Xpl.Collections.ArrayElements

/-! What growable arrays hold after elements have been added. -/

set_option autoImplicit false

namespace Xpl.Collections
open Xpl.Library RealArray

section Expansion

variable {array : RealArray} {process : Process} {count : Nat}

theorem gNearestPow_lt (num : Nat) : Yields (fun power => power < 2 ^ 64) (gNearestPow num) := by
  exact Meets.ite (fun _ => Nat.mod_lt _ (Nat.two_pow_pos 64)) fun _ => trivial

/-- What the expansion leaves alone, and the block that it asks for. -/
structure Preserved (array after : RealArray) : Prop where
  bytes : ∀ p < array.eltSize * array.eltCapacity, after.byteAt p = array.byteAt p
  len : after.len = array.len
  eltSize : after.eltSize = array.eltSize
  clear : after.clear = array.clear
  block : after = array ∨ ∃ block, after.data = some block ∧ block.size < 2 ^ 64

theorem gRealloc_kept (bounded : array.Bounded) (size : Nat) :
    Yields (fun block : Block => block.size = size ∧ ∀ p < array.eltSize * array.eltCapacity, block.byte p = array.byteAt p)
      (gRealloc process array.data size) := by
  refine Meets.ite (fun _ => ⟨rfl, fun p below => ?_⟩) fun _ => trivial
  have allocated := bounded.allocated
  rw [Nat.mul_comm] at allocated
  cases held : array.data with
  | none =>
    rw [bounded.empty held, Nat.mul_zero] at below
    exact absurd below (Nat.not_lt_zero p)
  | some block =>
    rw [held, Option.map_some, Option.getD_some] at allocated
    rw [RealArray.byteAt, held]
    exact if_pos (Nat.lt_of_lt_of_le below allocated)

theorem gArrayMaybeExpand_preserves (bounded : array.Bounded) :
    Yields (Preserved array) (gArrayMaybeExpand process array count) := by
  refine Meets.ite (fun _ => trivial) fun _ => ?_
  refine Meets.ite (fun _ => ?_) fun _ => ⟨fun p _ => rfl, rfl, rfl, rfl, Or.inl rfl⟩
  refine (gNearestPow_lt _).bind fun nearest small => (gRealloc_kept bounded _).bind fun block ⟨size, kept⟩ => ?_
  have alloc : block.size < 2 ^ 64 := by
    unfold minArraySize at size
    omega
  refine Meets.ite (fun _ => memcpy_effect.mono fun after written => ?_) fun _ => ⟨kept, rfl, rfl, rfl, Or.inr ⟨block, rfl, alloc⟩⟩
  refine ⟨fun p below => ?_, written.len, written.eltSize, written.clear, Or.inr ?_⟩
  · rw [written.bytes p, if_neg (fun inside => absurd below (Nat.not_lt.mpr inside.1))]
    exact kept p below
  · obtain ⟨final, held, sizes⟩ := Option.map_eq_some_iff.mp written.sizes
    exact ⟨final, held, sizes ▸ alloc⟩

/-- The exact sums of the claim of room: the block has it, and its size is an `xsize_t`. -/
theorem gArrayMaybeExpand_room (bounded : array.Bounded) :
    Safe (fun after => Expanded array count after ∧ Preserved array after) (gArrayMaybeExpand process array count) :=
  (gArrayMaybeExpand_safe process bounded count).and (gArrayMaybeExpand_preserves bounded)

end Expansion

section Adding

variable {array : RealArray} {process : Process} {data : Nat → UInt8} {count : Nat}

/-- The end of the operations that add elements. -/
theorem zeroTerminate_added {after : RealArray} (expanded : Expanded array count after) (some : 0 < count) :
    Safe (fun final => final.elements = chunks array.eltSize after.byteAt (array.len + count))
      { after with len := wrapUint (after.len + count) }.zeroTerminate := by
  have capacity := expanded.capacity
  have block : after.data ≠ none := by
    intro none
    have := expanded.bounded.empty none
    omega
  rw [expanded.len, wrapUint_of_expanded expanded]
  refine (zeroTerminate_elements (expanded.bounded.resize (by omega) (fun zero _ => ?_) expanded.limit) fun _ => block).mono
    fun final same => ?_
  · rw [← expanded.zeroTerminated, zero, Bool.toNat_true] at capacity
    omega
  · rw [same, ← expanded.eltSize]
    rfl

theorem Preserved.elements {after : RealArray} (preserved : Preserved array after) (bounded : array.Bounded) {p : Nat}
    (below : p < array.eltSize * array.len) : after.byteAt p = array.byteAt p :=
  preserved.bytes p (Nat.lt_of_lt_of_le below (Nat.mul_le_mul_left _ bounded.len_le))

theorem gArrayAppendVals_elements (bounded : array.Bounded) :
    Safe (fun after => after.elements = array.elements ++ chunks array.eltSize data count)
      (gArrayAppendVals process array data count) := by
  refine Meets.ite (fun none => ?_) fun some => ?_
  · subst none
    exact (List.append_nil _).symm
  · refine (gArrayMaybeExpand_room bounded).bind fun after ⟨expanded, preserved⟩ => ?_
    have capacity := expanded.capacity
    refine (memcpy_written (inside_elements expanded.bounded ?_)).bind fun written same => ?_
    · rw [expanded.len]
      omega
    · refine (zeroTerminate_added (expanded.sameShape same.toSameShape) (by omega)).mono fun final elements => ?_
      rw [elements]
      have bytes := same.bytes
      simp only [eltLen, expanded.len, expanded.eltSize] at bytes
      refine chunks_append (fun p below => ?_) fun p below => ?_
      · rw [bytes, if_neg (by omega)]
        exact preserved.elements bounded below
      · rw [bytes, if_pos (by omega), Nat.add_sub_cancel_left]

theorem gArrayPrependVals_elements (bounded : array.Bounded) :
    Safe (fun after => after.elements = chunks array.eltSize data count ++ array.elements)
      (gArrayPrependVals process array data count) := by
  refine Meets.ite (fun none => ?_) fun some => ?_
  · subst none
    exact (List.nil_append _).symm
  · refine (gArrayMaybeExpand_room bounded).bind fun after ⟨expanded, preserved⟩ => ?_
    have capacity := expanded.capacity
    have old := expanded.len
    refine (memmove_written (inside_elements expanded.bounded (by omega)) (inside_elements expanded.bounded (by omega))).bind
      fun moved move => ?_
    have expandedMoved := expanded.sameShape move.toSameShape
    refine (memcpy_written (inside_elements expandedMoved.bounded ?_)).bind fun written same => ?_
    · have capacity := expandedMoved.capacity
      omega
    · refine (zeroTerminate_added (expandedMoved.sameShape same.toSameShape) (by omega)).mono fun final elements => ?_
      rw [elements, Nat.add_comm]
      have bytes := same.bytes
      have shifted := move.bytes
      simp only [eltLen, expandedMoved.eltSize, Nat.mul_zero, Nat.zero_add] at bytes
      simp only [eltLen, expanded.len, expanded.eltSize, Nat.mul_zero, Nat.zero_add] at shifted
      refine chunks_append (fun p below => ?_) fun p below => ?_
      · rw [bytes, if_pos ⟨Nat.zero_le _, below⟩, Nat.sub_zero]
      · rw [bytes, if_neg (by omega), shifted, if_pos (by omega), Nat.add_sub_cancel_left]
        exact preserved.elements bounded below

/-- Elements put between others. -/
theorem gArrayInsertVals_within (bounded : array.Bounded) {index : Nat} (within : index < array.len) :
    Safe (fun after => after.elements =
        array.elements.take index ++ chunks array.eltSize data count ++ array.elements.drop index)
      (gArrayInsertVals process array index data count) := by
  refine Meets.ite (fun none => ?_) fun some => Meets.ite (fun beyond => by omega) fun _ => ?_
  · subst none
    show array.elements = array.elements.take index ++ [] ++ array.elements.drop index
    rw [List.append_nil, List.take_append_drop]
  · refine (gArrayMaybeExpand_room bounded).bind fun after ⟨expanded, preserved⟩ => ?_
    have capacity := expanded.capacity
    have lt := expanded.bounded.capacity_lt
    have old := expanded.len
    rw [wrapUint, Nat.mod_eq_of_lt (by omega)]
    refine (memmove_written (inside_elements expanded.bounded (by omega)) (inside_elements expanded.bounded (by omega))).bind
      fun moved move => ?_
    have expandedMoved := expanded.sameShape move.toSameShape
    refine (memcpy_written (inside_elements expandedMoved.bounded ?_)).bind fun written same => ?_
    · have capacity := expandedMoved.capacity
      omega
    · refine (zeroTerminate_added (expandedMoved.sameShape same.toSameShape) (by omega)).mono fun final elements => ?_
      have bytes := same.bytes
      have shifted := move.bytes
      simp only [eltLen, expandedMoved.eltSize] at bytes
      simp only [eltLen, expanded.len, expanded.eltSize, Nat.mul_add] at shifted
      have split : array.len + count = index + count + (array.len - index) := by omega
      rw [elements, RealArray.elements, take_chunks (Nat.le_of_lt within), drop_chunks (Nat.le_of_lt within), split, chunks_add]
      have whole : array.eltSize * array.len = array.eltSize * index + array.eltSize * (array.len - index) := by
        rw [← Nat.mul_add, Nat.add_sub_of_le (Nat.le_of_lt within)]
      congr 1
      · refine chunks_append (fun p below => ?_) fun p below => ?_
        · rw [bytes, if_neg (by omega), shifted, if_neg (by omega)]
          exact preserved.elements bounded (by omega)
        · rw [bytes, if_pos (by omega), Nat.add_sub_cancel_left]
      · refine chunks_eq_iff.mpr fun p below => ?_
        rw [Nat.mul_add, bytes, if_neg (by omega), shifted, if_pos (by omega),
          show array.eltSize * index + array.eltSize * count + p - (array.eltSize * count + array.eltSize * index) = p by omega]
        exact preserved.elements bounded (by omega)

theorem makeSize_bytes (bounded : array.Bounded) {length : Nat} (longer : array.len ≤ length) :
    Yields (fun after => after.eltSize = array.eltSize ∧ (∀ p < array.eltSize * array.len, after.byteAt p = array.byteAt p) ∧
        (array.clear = true → ∀ p, array.eltSize * array.len ≤ p → p < array.eltSize * length → after.byteAt p = 0))
      (makeSize process array length) := by
  refine Meets.ite (fun grow => ?_) fun same => Meets.ite (fun shorter => absurd shorter (Nat.not_lt.mpr longer)) fun _ => ?_
  · refine (gArrayMaybeExpand_preserves bounded).bind fun after preserved => ?_
    have upTo : array.eltSize * length = array.eltSize * array.len + array.eltSize * (length - array.len) := by
      rw [← Nat.mul_add, Nat.add_sub_of_le longer]
    rw [doIf, preserved.clear]
    refine Meets.ite (fun _ => memcpy_effect.mono fun final written => ?_) fun plain => ?_
    · have bytes := written.bytes
      simp only [eltLen, preserved.len, preserved.eltSize] at bytes
      refine ⟨written.eltSize.trans preserved.eltSize, fun p below => ?_, fun _ p above below => ?_⟩
      · rw [bytes, if_neg (by omega)]
        exact preserved.elements bounded below
      · rw [bytes, if_pos (by omega)]
    · exact ⟨preserved.eltSize, fun p below => preserved.elements bounded below, fun clear => absurd clear plain⟩
  · have equal : length = array.len := by omega
    subst equal
    exact ⟨rfl, fun p _ => rfl, fun _ p above below => absurd below (Nat.not_lt.mpr above)⟩

/-- Elements added by `g_array_set_size`. -/
structure Padded (array : RealArray) (length : Nat) (padding : List (List UInt8)) : Prop where
  length_eq : padding.length = length - array.len
  cleared : array.clear = true → ∀ element ∈ padding, element = List.replicate array.eltSize 0

theorem gArraySetSize_elements (bounded : array.Bounded) {length : Nat} (longer : array.len ≤ length)
    (block : array.zeroTerminated = true → array.data ≠ none) :
    Safe (fun after => after.Bounded ∧ after.eltSize = array.eltSize ∧
        ∃ padding, Padded array length padding ∧ after.elements = array.elements ++ padding)
      (gArraySetSize process array length) := by
  refine ((makeSize_safe bounded fun zero _ => block zero).and (makeSize_bytes bounded longer)).bind
    fun after ⟨⟨sized, held⟩, size, kept, cleared⟩ => ?_
  refine ((zeroTerminate_safe sized held).and (@zeroTerminate_elements _ Stop.Clean sized held)).mono
    fun final ⟨⟨sound, same⟩, elements⟩ => ⟨sound.toBounded, same.eltSize.trans size, ?_⟩
  refine ⟨chunks array.eltSize (fun p => after.byteAt (array.eltSize * array.len + p)) (length - array.len),
    ⟨length_chunks, fun clear element member => ?_⟩, ?_⟩
  · obtain ⟨i, inside, rfl⟩ := List.mem_map.mp member
    have inside := List.mem_range.mp inside
    refine List.eq_replicate_iff.mpr ⟨length_bytesOf, fun byte member => ?_⟩
    obtain ⟨k, below, rfl⟩ := List.mem_map.mp member
    have below := List.mem_range.mp below
    refine cleared clear _ (Nat.le_add_right _ _) ?_
    calc array.eltSize * array.len + (array.eltSize * i + k) < array.eltSize * array.len + array.eltSize * (i + 1) := by
          rw [Nat.mul_succ]
          omega
      _ = array.eltSize * (array.len + (i + 1)) := (Nat.mul_add _ _ _).symm
      _ ≤ array.eltSize * length := Nat.mul_le_mul_left _ (by omega)
  · rw [elements]
    have split : length = array.len + (length - array.len) := by omega
    conv_lhs => rw [size, split]
    exact chunks_append kept fun p _ => rfl

/-- Elements put behind the end: those in between are zero where the array clears new elements. -/
theorem gArrayInsertVals_beyond (bounded : array.Bounded) {index : Nat} (beyond : array.len ≤ index) (some : 0 < count) :
    Safe (fun after => ∃ padding, Padded array index padding ∧
        after.elements = array.elements ++ padding ++ chunks array.eltSize data count)
      (gArrayInsertVals process array index data count) := by
  refine Meets.ite (fun none => by omega) fun _ => Meets.ite (fun _ => ?_) fun within => absurd beyond within
  refine (gArrayMaybeExpand_room bounded).bind fun after ⟨expanded, preserved⟩ => ?_
  have held : after.zeroTerminated = true → after.data ≠ none := by
    intro zero none
    have capacity := expanded.capacity
    have nothing := expanded.bounded.empty none
    rw [← expanded.zeroTerminated, zero, Bool.toNat_true] at capacity
    omega
  refine (gArraySetSize_elements expanded.bounded (by rw [expanded.len]; exact beyond) held).bind
    fun sized ⟨boundedSized, size, padding, padded, elements⟩ => ?_
  refine (gArrayAppendVals_elements boundedSized).mono fun final added => ⟨padding, ⟨?_, ?_⟩, ?_⟩
  · rw [padded.length_eq, expanded.len]
  · rw [← expanded.eltSize]
    exact fun clear => padded.cleared (preserved.clear.trans clear)
  · rw [added, size, expanded.eltSize, elements]
    congr 2
    rw [RealArray.elements, RealArray.elements, expanded.len, expanded.eltSize]
    exact chunks_eq_iff.mpr fun p below => preserved.elements bounded below

end Adding

end Xpl.Collections
