import Mathlib.Data.Nat.Bitwise
import Xpl.Collections.Array

/-! No operation on a growable array leaves the block of the array, but for two slips:
the terminator that is written where there is no block, and the sum of two 32-bit
integers that wraps in a check. -/

set_option autoImplicit false

namespace Xpl.Collections
open Xpl.Library

/-- The computation stops at most where the program ends itself. -/
def Stop.Clean (stop : Stop) : Prop := stop = .xerror

abbrev Safe {α : Type} (post : α → Prop) (x : Except Stop α) : Prop := Meets Stop.Clean post x

namespace RealArray

/-- What is said of an array between two calls. -/
structure Disciplined (array : RealArray) : Prop where
  len_le : array.len ≤ array.eltCapacity
  allocated : array.eltCapacity * array.eltSize ≤ (array.data.map Block.size).getD 0
  terminated : array.zeroTerminated = true → array.data ≠ none →
    array.len + 1 ≤ array.eltCapacity ∧ ∀ k < array.eltSize, array.byteAt (array.eltSize * array.len + k) = 0

/-- The sizes on which every operation relies. -/
structure Bounded (array : RealArray) : Prop where
  size_pos : 0 < array.eltSize
  size_lt : array.eltSize < 2 ^ 32
  len_le : array.len ≤ array.eltCapacity
  capacity_lt : array.eltCapacity < 2 ^ 32
  allocated : array.eltCapacity * array.eltSize ≤ (array.data.map Block.size).getD 0
  empty : array.data = none → array.eltCapacity = 0
  room : array.zeroTerminated = true → array.data ≠ none → array.len < array.eltCapacity
  limit : array.len ≤ gArrayMaxLen array

/-- The last element of a zero-terminated array is followed by a zero element. -/
def Terminated (array : RealArray) : Prop :=
  array.zeroTerminated = true → array.data ≠ none →
    ∀ k < array.eltSize, array.byteAt (array.eltSize * array.len + k) = 0

structure Sound (array : RealArray) : Prop extends Bounded array where
  terminated : array.Terminated

theorem Sound.disciplined {array : RealArray} (sound : array.Sound) : array.Disciplined where
  len_le := sound.len_le
  allocated := sound.allocated
  terminated zero some := ⟨sound.room zero some, sound.terminated zero some⟩

/-- The two arrays differ at most in the bytes of their blocks. -/
structure SameShape (before after : RealArray) : Prop where
  len : after.len = before.len
  eltCapacity : after.eltCapacity = before.eltCapacity
  eltSize : after.eltSize = before.eltSize
  zeroTerminated : after.zeroTerminated = before.zeroTerminated
  clear : after.clear = before.clear
  sizes : after.data.map Block.size = before.data.map Block.size

variable {array : RealArray}

theorem SameShape.refl (array : RealArray) : SameShape array array := ⟨rfl, rfl, rfl, rfl, rfl, rfl⟩

theorem SameShape.trans {first second third : RealArray} (one : SameShape first second) (two : SameShape second third) :
    SameShape first third :=
  ⟨two.len.trans one.len, two.eltCapacity.trans one.eltCapacity, two.eltSize.trans one.eltSize,
    two.zeroTerminated.trans one.zeroTerminated, two.clear.trans one.clear, two.sizes.trans one.sizes⟩

theorem SameShape.none_iff {before after : RealArray} (same : SameShape before after) :
    after.data = none ↔ before.data = none := by
  have sizes := same.sizes
  cases h : after.data <;> cases k : before.data <;> simp [h, k] at sizes ⊢

theorem SameShape.bounded {before after : RealArray} (same : SameShape before after) (bounded : before.Bounded) :
    after.Bounded where
  size_pos := by rw [same.eltSize]; exact bounded.size_pos
  size_lt := by rw [same.eltSize]; exact bounded.size_lt
  len_le := by rw [same.len, same.eltCapacity]; exact bounded.len_le
  capacity_lt := by rw [same.eltCapacity]; exact bounded.capacity_lt
  allocated := by rw [same.eltCapacity, same.eltSize, same.sizes]; exact bounded.allocated
  empty none := by rw [same.eltCapacity]; exact bounded.empty (same.none_iff.mp none)
  room zero some := by
    rw [same.len, same.eltCapacity]
    exact bounded.room (same.zeroTerminated ▸ zero) fun none => some (same.none_iff.mpr none)
  limit := by
    rw [gArrayMaxLen, same.len, same.eltSize, same.zeroTerminated]
    exact bounded.limit

section Memory
variable {offset size count limit : Nat} {source : Nat → UInt8}

theorem sameShape_overwrite (array : RealArray) (offset size : Nat) (source : Nat → UInt8) :
    SameShape array (array.overwrite offset size source) := by
  refine ⟨rfl, rfl, rfl, rfl, rfl, ?_⟩
  cases h : array.data <;> simp [overwrite, h]

theorem inside_elements (bounded : array.Bounded) {first count : Nat} (fits : first + count ≤ array.eltCapacity) :
    array.inside (array.eltLen first) (array.eltLen count) = true := by
  unfold inside eltLen
  rw [Bool.or_eq_true, decide_eq_true_iff, Bool.and_eq_true, decide_eq_true_iff, ← Nat.mul_add, Nat.mul_comm array.eltCapacity]
  rcases Nat.eq_zero_or_pos count with rfl | positive
  · exact Or.inl (Nat.mul_zero _)
  · refine Or.inr ⟨?_, Nat.mul_le_mul_left _ fits⟩
    rw [Option.isSome_iff_ne_none]
    intro none
    have := bounded.empty none
    omega

theorem inside_mono {small large : Nat} (le : small ≤ large) (inside : array.inside offset large = true) :
    array.inside offset small = true := by
  simp only [RealArray.inside, Bool.or_eq_true, decide_eq_true_eq, Bool.and_eq_true] at inside ⊢
  rcases inside with none | ⟨block, fits⟩
  · exact Or.inl (by omega)
  · exact Or.inr ⟨block, by omega⟩

/-- A write inside the block changes bytes only. -/
theorem memcpy_safe (inside : array.inside offset size = true) :
    Safe (SameShape array) (array.memcpy offset source size) := by
  rw [memcpy, if_pos inside]
  exact sameShape_overwrite _ _ _ _

theorem memmove_safe {target source : Nat} (from_inside : array.inside source size = true)
    (to_inside : array.inside target size = true) : Safe (SameShape array) (array.memmove target source size) := by
  rw [memmove, if_pos from_inside]
  exact memcpy_safe to_inside

theorem eltZero_safe (bounded : array.Bounded) {first : Nat} (fits : first + count ≤ array.eltCapacity) :
    Safe (SameShape array) (array.eltZero first count) :=
  memcpy_safe (inside_elements bounded fits)

theorem byteAt_overwrite {p : Nat} (some : array.data ≠ none) :
    (array.overwrite offset size source).byteAt p =
      if offset ≤ p ∧ p < offset + size then source (p - offset) else array.byteAt p := by
  obtain ⟨block, h⟩ := Option.ne_none_iff_exists'.mp some
  simp [byteAt, overwrite, h]

theorem overwrite_nothing (array : RealArray) (offset : Nat) (source : Nat → UInt8) :
    array.overwrite offset 0 source = array := by
  have empty : ∀ p, ¬(offset ≤ p ∧ p < offset + 0) := fun p => by omega
  unfold overwrite
  simp only [if_neg (empty _), Option.map_id']

/-- The two arrays have the same shape and the same bytes from `limit` on. -/
structure Keeps (limit : Nat) (before after : RealArray) : Prop extends SameShape before after where
  bytes : ∀ p, limit ≤ p → after.byteAt p = before.byteAt p

theorem Keeps.refl (limit : Nat) (array : RealArray) : Keeps limit array array := ⟨SameShape.refl _, fun _ _ => rfl⟩

theorem Keeps.trans {first second third : RealArray} (one : Keeps limit first second)
    (two : Keeps limit second third) : Keeps limit first third :=
  ⟨one.toSameShape.trans two.toSameShape, fun p above => (two.bytes p above).trans (one.bytes p above)⟩

theorem Keeps.terminated {after : RealArray} (keeps : Keeps (array.eltLen array.len) array after)
    (terminated : array.Terminated) : after.Terminated := by
  intro zero some k below
  rw [keeps.eltSize] at below
  rw [keeps.len, keeps.eltSize, keeps.bytes _ (by unfold eltLen; omega)]
  exact terminated (keeps.zeroTerminated ▸ zero) (fun none => some (keeps.none_iff.mpr none)) k below

theorem memcpy_keeps (inside : array.inside offset size = true)
    (below : offset + size ≤ limit) : Safe (Keeps limit array) (array.memcpy offset source size) := by
  rw [memcpy, if_pos inside]
  refine ⟨sameShape_overwrite _ _ _ _, fun p above => ?_⟩
  cases h : array.data with
  | none => simp [byteAt, overwrite, h]
  | some block =>
    rw [byteAt_overwrite (by rw [h]; exact Option.some_ne_none _), if_neg (by omega)]

theorem memmove_keeps {target source : Nat} (from_inside : array.inside source size = true)
    (to_inside : array.inside target size = true) (below : target + size ≤ limit) :
    Safe (Keeps limit array) (array.memmove target source size) := by
  rw [memmove, if_pos from_inside]
  exact memcpy_keeps to_inside below

theorem callClear_keeps (bounded : array.Bounded) {index : Nat} (below : index < count)
    (fits : count ≤ array.eltCapacity) : Safe (Keeps (array.eltLen count) array) (array.callClear index) := by
  unfold callClear
  split
  · exact Keeps.refl _ _
  · have inside := @inside_elements array bounded index 1 (by omega)
    rw [eltLen, eltLen, Nat.mul_one] at inside
    have last : array.eltSize * (index + 1) ≤ array.eltSize * count := Nat.mul_le_mul_left _ below
    exact memcpy_keeps inside (by unfold eltLen; rw [Nat.mul_add, Nat.mul_one] at last; exact last)

theorem eltZero_terminates (bounded : array.Bounded) (one : 0 < count)
    (fits : array.len + count ≤ array.eltCapacity) :
    Safe (fun after => after.Sound ∧ SameShape array after) (array.eltZero array.len count) := by
  have inside := inside_elements bounded fits
  rw [eltZero, memset, memcpy, if_pos inside]
  refine ⟨⟨(sameShape_overwrite _ _ _ _).bounded bounded, ?_⟩, sameShape_overwrite _ _ _ _⟩
  intro zero some k below
  have held : array.data ≠ none := by
    rw [Ne, ← (sameShape_overwrite array _ _ _).none_iff]
    exact some
  rw [byteAt_overwrite held]
  have wide : array.eltSize * 1 ≤ array.eltSize * count := Nat.mul_le_mul_left _ one
  have below : k < array.eltSize := below
  exact if_pos ⟨Nat.le_add_right _ _, by unfold eltLen; show array.eltSize * array.len + k < _; omega⟩

theorem zeroTerminate_safe (bounded : array.Bounded) (block : array.zeroTerminated = true → array.data ≠ none) :
    Safe (fun after => after.Sound ∧ SameShape array after) array.zeroTerminate := by
  unfold zeroTerminate
  split
  · next zero => exact eltZero_terminates bounded Nat.one_pos (bounded.room zero (block zero))
  · next zero => exact ⟨⟨bounded, fun h => absurd h zero⟩, SameShape.refl _⟩

end Memory

end RealArray

section Expansion
open RealArray

theorem smear_bounds {n bits : Nat} (below : n < 2 ^ 63) : n ≤ smear n bits ∧ smear n bits < 2 ^ 63 := by
  refine ⟨Nat.left_le_or, Nat.or_lt_two_pow below ?_⟩
  exact Nat.lt_of_le_of_lt (Nat.shiftRight_le _ _) below

theorem gNearestPow_le (num : Nat) : Safe (fun power => num ≤ power) (gNearestPow num) := by
  apply Meets.ite
  · rintro ⟨positive, small⟩
    unfold gMaxsize at small
    obtain ⟨le₁, lt₁⟩ := @smear_bounds (num - 1) 1 (by omega)
    obtain ⟨le₂, lt₂⟩ := @smear_bounds _ 2 lt₁
    obtain ⟨le₃, lt₃⟩ := @smear_bounds _ 4 lt₂
    obtain ⟨le₄, lt₄⟩ := @smear_bounds _ 8 lt₃
    obtain ⟨le₅, lt₅⟩ := @smear_bounds _ 16 lt₄
    obtain ⟨le₆, lt₆⟩ := @smear_bounds _ 32 lt₅
    rw [meets_ok, Nat.mod_eq_of_lt (by omega)]
    omega
  · intro _
    rfl

theorem gRealloc_size (process : Process) (data : Option Block) (size : Nat) :
    Safe (fun block => block.size = size) (gRealloc process data size) := by
  exact Meets.ite (fun _ => rfl) (fun _ => rfl)

/-- What is known after room for `count` more elements has been made. -/
structure Expanded (array : RealArray) (count : Nat) (after : RealArray) : Prop where
  bounded : after.Bounded
  len : after.len = array.len
  eltSize : after.eltSize = array.eltSize
  zeroTerminated : after.zeroTerminated = array.zeroTerminated
  capacity : array.len + count + array.zeroTerminated.toNat ≤ after.eltCapacity
  limit : array.len + count ≤ gArrayMaxLen after

variable {array after : RealArray} {count : Nat}

theorem Expanded.sameShape {expanded : RealArray} (room : Expanded array count expanded) (same : SameShape expanded after) :
    Expanded array count after where
  bounded := same.bounded room.bounded
  len := same.len.trans room.len
  eltSize := same.eltSize.trans room.eltSize
  zeroTerminated := same.zeroTerminated.trans room.zeroTerminated
  capacity := same.eltCapacity ▸ room.capacity
  limit := by
    rw [gArrayMaxLen, same.eltSize, same.zeroTerminated]
    exact room.limit

theorem maxLen_add (array : RealArray) (bounded : array.Bounded) :
    gArrayMaxLen array + array.zeroTerminated.toNat ≤ min (gMaxsize / 2 / array.eltSize) gMaxuint := by
  have size_lt := bounded.size_lt
  have one : 1 ≤ gMaxsize / 2 / array.eltSize := by
    rw [Nat.one_le_div_iff bounded.size_pos, gMaxsize]
    omega
  have flag := Bool.toNat_le array.zeroTerminated
  unfold gArrayMaxLen gMaxuint
  omega

theorem gArrayMaybeExpand_safe (process : Process) (bounded : array.Bounded) (count : Nat) :
    Safe (Expanded array count) (gArrayMaybeExpand process array count) := by
  have largest := maxLen_add array bounded
  have limit := bounded.limit
  refine Meets.ite (fun _ => rfl) fun fits => ?_
  have maxLen_lt : gArrayMaxLen array + array.zeroTerminated.toNat < 2 ^ 32 := by
    unfold gMaxuint at largest
    omega
  have total : array.len + count ≤ gArrayMaxLen array := by
    unfold subUint at fits
    rw [show gArrayMaxLen array + (2 ^ 32 - array.len) = gArrayMaxLen array - array.len + 2 ^ 32 by omega,
      Nat.add_mod_right, Nat.mod_eq_of_lt (by omega)] at fits
    omega
  have want : wrapUint (array.len + count + array.zeroTerminated.toNat) = array.len + count + array.zeroTerminated.toNat :=
    Nat.mod_eq_of_lt (by omega)
  rw [want]
  refine Meets.ite (fun grow => ?_) fun stay => ?_
  · refine (gNearestPow_le _).bind fun nearest least => (gRealloc_size process _ _).bind fun block size => ?_
    have elements : array.len + count + array.zeroTerminated.toNat ≤ max nearest minArraySize / array.eltSize := by
      rw [Nat.le_div_iff_mul_le bounded.size_pos, Nat.mul_comm]
      exact Nat.le_trans least (Nat.le_max_left _ _)
    have expanded : Expanded array count
        { array with data := some block, eltCapacity := min (max nearest minArraySize / array.eltSize) gMaxuint } := by
      have capacity : array.len + count + array.zeroTerminated.toNat ≤
          min (max nearest minArraySize / array.eltSize) gMaxuint := by
        omega
      refine ⟨⟨bounded.size_pos, bounded.size_lt, ?_, ?_, ?_, ?_, ?_, bounded.limit⟩, rfl, rfl, rfl, capacity, total⟩
      · exact Nat.le_trans (Nat.le_add_right _ _) (Nat.le_trans (Nat.le_add_right _ _) capacity)
      · show min _ gMaxuint < 2 ^ 32
        unfold gMaxuint
        omega
      · show min _ gMaxuint * array.eltSize ≤ block.size
        rw [size]
        exact Nat.le_trans (Nat.mul_le_mul_right _ (Nat.min_le_left _ _)) (Nat.div_mul_le_self _ _)
      · intro none
        cases none
      · intro zero _
        rw [show array.zeroTerminated = true from zero, Bool.toNat_true] at capacity
        exact Nat.lt_of_lt_of_le (Nat.lt_succ_of_le (Nat.le_add_right array.len count)) capacity
    refine Meets.ite (fun _ => ?_) fun _ => expanded
    refine (memcpy_safe (inside_elements expanded.bounded ?_)).mono fun after same => expanded.sameShape same
    have capacity := expanded.capacity
    omega
  · exact ⟨bounded, rfl, rfl, rfl, by omega, total⟩

end Expansion

section Operations
open RealArray
variable {length : Nat}
variable {array : RealArray} {process : Process}

theorem RealArray.Bounded.resize (bounded : array.Bounded) (le : length ≤ array.eltCapacity)
    (room : array.zeroTerminated = true → array.data ≠ none → length < array.eltCapacity)
    (limit : length ≤ gArrayMaxLen array) : { array with len := length }.Bounded :=
  { bounded with len_le := le, room := room, limit := limit }

theorem wrapUint_of_expanded {count : Nat} {after : RealArray} (expanded : Expanded array count after) :
    wrapUint (array.len + count) = array.len + count := by
  have capacity := expanded.capacity
  have lt := expanded.bounded.capacity_lt
  exact Nat.mod_eq_of_lt (by omega)

/-- The end of the operations that add elements. -/
theorem zeroTerminate_grown {count : Nat} {after : RealArray} (expanded : Expanded array count after) (some : 0 < count) :
    Safe Sound { after with len := wrapUint (after.len + count) }.zeroTerminate := by
  have capacity := expanded.capacity
  have block : after.data ≠ none := by
    intro none
    have := expanded.bounded.empty none
    omega
  rw [expanded.len, wrapUint_of_expanded expanded]
  refine (zeroTerminate_safe (expanded.bounded.resize (by omega) (fun zero _ => ?_) expanded.limit) fun _ => block).mono
    fun _ => And.left
  rw [← expanded.zeroTerminated, zero, Bool.toNat_true] at capacity
  omega

theorem gArrayAppendVals_safe (sound : array.Sound) (data : Nat → UInt8) (len : Nat) :
    Safe Sound (gArrayAppendVals process array data len) := by
  refine Meets.ite (fun _ => sound) fun some => ?_
  refine (gArrayMaybeExpand_safe process sound.toBounded len).bind fun after expanded => ?_
  have capacity := expanded.capacity
  refine (memcpy_safe (inside_elements expanded.bounded ?_)).bind fun written same => ?_
  · rw [expanded.len]
    omega
  · exact zeroTerminate_grown (expanded.sameShape same) (by omega)

theorem gArrayPrependVals_safe (sound : array.Sound) (data : Nat → UInt8) (len : Nat) :
    Safe Sound (gArrayPrependVals process array data len) := by
  refine Meets.ite (fun _ => sound) fun some => ?_
  refine (gArrayMaybeExpand_safe process sound.toBounded len).bind fun after expanded => ?_
  have capacity := expanded.capacity
  have old := expanded.len
  refine (memmove_safe (inside_elements expanded.bounded (by omega)) (inside_elements expanded.bounded (by omega))).bind
    fun moved same => ?_
  have expanded := expanded.sameShape same
  refine (memcpy_safe (inside_elements expanded.bounded ?_)).bind fun written same => ?_
  · have capacity := expanded.capacity
    omega
  · exact zeroTerminate_grown (expanded.sameShape same) (by omega)

theorem afterRemoval_safe (bounded : array.Bounded) (fits : array.len + length ≤ array.eltCapacity)
    (terminated : length = 0 → array.Terminated)
    (block : process.gcFriendly = false → array.zeroTerminated = true → array.data ≠ none) :
    Safe (fun after => after.Sound ∧ SameShape array after) (afterRemoval process array length) := by
  refine Meets.ite (fun _ => ?_) fun plain => zeroTerminate_safe bounded (block (by simpa using plain))
  rcases Nat.eq_zero_or_pos length with rfl | positive
  · rw [eltZero, memset, memcpy, if_pos (inside_elements bounded fits), eltLen, eltLen, Nat.mul_zero, overwrite_nothing]
    exact ⟨⟨bounded, terminated rfl⟩, SameShape.refl _⟩
  · exact eltZero_terminates bounded positive fits

/-- What is known after the removal of `length` elements. -/
structure Removed (array : RealArray) (length : Nat) (after : RealArray) : Prop where
  sound : after.Sound
  len : after.len = array.len - length
  none_iff : after.data = none ↔ array.data = none
  zeroTerminated : after.zeroTerminated = array.zeroTerminated

theorem afterRemoval_kept {after : RealArray} {length : Nat} (bounded : array.Bounded) (le : length ≤ array.len)
    (keeps : Keeps (array.eltLen array.len) array after) (terminated : length = 0 → array.Terminated)
    (block : process.gcFriendly = false → array.zeroTerminated = true → array.data ≠ none) :
    Safe (Removed array length) (afterRemoval process { after with len := after.len - length } length) := by
  have kept := keeps.bounded bounded
  have len_le := kept.len_le
  have limit := kept.limit
  have same := keeps.len
  refine (afterRemoval_safe (kept.resize (by omega) (fun zero some => ?_) (by omega)) ?_ ?_ ?_).mono ?_
  · have := kept.room zero some
    omega
  · show after.len - length + length ≤ after.eltCapacity
    omega
  · intro zero
    subst zero
    exact keeps.terminated (terminated rfl)
  · intro plain zero none
    exact block plain (keeps.zeroTerminated ▸ zero) (keeps.none_iff.mp none)
  · rintro final ⟨sound, shape⟩
    exact ⟨sound, shape.len.trans (same ▸ rfl), shape.none_iff.trans keeps.none_iff,
      shape.zeroTerminated.trans keeps.zeroTerminated⟩

theorem subUint_of_le {a b : Nat} (le : b ≤ a) (small : a < 2 ^ 32) : subUint a b = a - b := by
  unfold subUint
  rw [show a + (2 ^ 32 - b) = a - b + 2 ^ 32 by omega, Nat.add_mod_right, Nat.mod_eq_of_lt (by omega)]

theorem removeOne_safe {index : Nat} {close : RealArray → Except Stop RealArray} (sound : array.Sound)
    (below : index < array.len)
    (closes : ∀ cleared, Keeps (array.eltLen array.len) array cleared →
      Safe (Keeps (cleared.eltLen cleared.len) cleared) (close cleared)) :
    Safe Sound (do
      let array ← array.callClear index
      let array ← close array
      afterRemoval process { array with len := array.len - 1 } 1) := by
  have len_le := sound.len_le
  have block : array.data ≠ none := by
    intro none
    have := sound.empty none
    omega
  refine (callClear_keeps sound.toBounded below len_le).bind fun cleared keeps => ?_
  refine (closes cleared keeps).bind fun moved next => ?_
  rw [eltLen, keeps.len, keeps.eltSize] at next
  exact (@afterRemoval_kept _ _ _ 1 sound.toBounded (by omega) (keeps.trans next) (fun none => by omega)
    fun _ _ => block).mono fun _ => Removed.sound

theorem gArrayRemoveIndex_safe (sound : array.Sound) (index : Nat) :
    Safe Sound (gArrayRemoveIndex process array index) := by
  refine Meets.ite (fun _ => sound) fun below => removeOne_safe sound (Nat.lt_of_not_le below) fun cleared keeps => ?_
  have kept := keeps.bounded sound.toBounded
  have len_le := kept.len_le
  have len := keeps.len
  refine Meets.ite (fun inner => ?_) fun _ => Keeps.refl _ _
  refine memmove_keeps (inside_elements kept (by omega)) (inside_elements kept (by omega)) ?_
  unfold eltLen
  rw [← Nat.mul_add]
  exact Nat.mul_le_mul_left _ (by omega)

theorem gArrayRemoveIndexFast_safe (sound : array.Sound) (index : Nat) :
    Safe Sound (gArrayRemoveIndexFast process array index) := by
  refine Meets.ite (fun _ => sound) fun below => removeOne_safe sound (Nat.lt_of_not_le below) fun cleared keeps => ?_
  have kept := keeps.bounded sound.toBounded
  have len_le := kept.len_le
  have len := keeps.len
  refine Meets.ite (fun inner => ?_) fun _ => Keeps.refl _ _
  refine memmove_keeps (inside_elements kept (by omega)) (inside_elements kept (by omega)) ?_
  unfold eltLen
  rw [← Nat.mul_add]
  exact Nat.mul_le_mul_left _ (by omega)

theorem gArrayRemoveRange_safe {index : Nat} (bounded : array.Bounded) (le : index + length ≤ array.len)
    (terminated : length = 0 → array.Terminated)
    (block : process.gcFriendly = false → array.zeroTerminated = true → array.data ≠ none) :
    Safe (Removed array length) (gArrayRemoveRange process array index length) := by
  have len_le := bounded.len_le
  have small := bounded.capacity_lt
  have stop : wrapUint (index + length) = index + length := Nat.mod_eq_of_lt (by omega)
  unfold gArrayRemoveRange
  rw [stop, if_neg (by omega), if_neg (by omega)]
  have clears : Safe (Keeps (array.eltLen array.len) array) (array.doIf array.clearFunc.isSome
      ((List.range length).foldlM (fun array i => array.callClear (wrapUint (index + i))) array)) := by
    refine Meets.ite (fun _ => ?_) fun _ => Keeps.refl _ _
    refine Meets.foldlM (Keeps.refl _ _) fun cleared i member keeps => ?_
    have kept := keeps.bounded bounded
    have position : i < length := List.mem_range.mp member
    rw [wrapUint, Nat.mod_eq_of_lt (by omega)]
    refine (callClear_keeps kept (by omega : index + i < array.len) (keeps.eltCapacity ▸ len_le)).mono fun after next => ?_
    rw [eltLen, keeps.eltSize] at next
    exact keeps.trans next
  refine clears.bind fun cleared keeps => ?_
  have kept := keeps.bounded bounded
  have len := keeps.len
  have capacity := keeps.eltCapacity
  have moves : Safe (Keeps (array.eltLen array.len) array) (cleared.doIf (index + length ≠ cleared.len)
      (cleared.memmove (cleared.eltLen index) (cleared.eltLen (index + length))
        (wrapUint (subUint cleared.len (index + length) * cleared.eltSize)))) := by
    refine Meets.ite (fun _ => ?_) fun _ => keeps
    rw [subUint_of_le (by omega) (by omega), Nat.mul_comm]
    -- the product may wrap, which only makes the move shorter
    have shorter : wrapUint (cleared.eltSize * (cleared.len - (index + length))) ≤
        cleared.eltLen (cleared.len - (index + length)) := Nat.mod_le _ _
    refine (memmove_keeps (inside_mono shorter (inside_elements kept (by omega)))
      (inside_mono shorter (inside_elements kept (by omega))) ?_).mono fun moved next => keeps.trans next
    refine Nat.le_trans (Nat.add_le_add_left shorter _) ?_
    unfold eltLen
    rw [keeps.eltSize, ← Nat.mul_add]
    exact Nat.mul_le_mul_left _ (by omega)
  refine moves.bind fun moved keeps => ?_
  rw [subUint_of_le (by rw [keeps.len]; omega) (by rw [keeps.len]; omega)]
  exact afterRemoval_kept bounded (by omega) keeps terminated block

theorem makeSize_safe (bounded : array.Bounded)
    (block : array.zeroTerminated = true → length = 0 → array.data ≠ none) :
    Safe (fun after => { after with len := length }.Bounded ∧ (after.zeroTerminated = true → after.data ≠ none))
      (makeSize process array length) := by
  have held : array.zeroTerminated = true → length ≤ array.len → array.data ≠ none := by
    intro zero small none
    have capacity := bounded.empty none
    have len_le := bounded.len_le
    exact block zero (by omega) none
  refine Meets.ite (fun grow => ?_) fun _ => Meets.ite (fun shrink => ?_) fun _ => ?_
  · refine (gArrayMaybeExpand_safe process bounded _).bind fun after expanded => ?_
    have cleared : Safe (SameShape after) (after.doIf after.clear (after.eltZero after.len (length - after.len))) := by
      refine Meets.ite (fun _ => eltZero_safe expanded.bounded ?_) fun _ => SameShape.refl _
      have capacity := expanded.capacity
      have len := expanded.len
      omega
    refine cleared.mono fun final same => ?_
    have room := expanded.sameShape same
    have capacity := room.capacity
    have limit := room.limit
    refine ⟨room.bounded.resize (by omega) (fun zero _ => ?_) (by omega), fun _ none => ?_⟩
    · rw [← room.zeroTerminated, zero, Bool.toNat_true] at capacity
      omega
    · have := room.bounded.empty none
      omega
  · refine (gArrayRemoveRange_safe bounded (by omega) (fun none => by omega)
      fun _ zero => held zero (by omega)).mono fun after removed => ?_
    have sized : { after with len := length } = after := by
      rw [show length = after.len by rw [removed.len]; omega]
    rw [sized]
    refine ⟨removed.sound.toBounded, fun zero none => ?_⟩
    exact held (removed.zeroTerminated ▸ zero) (by omega) (removed.none_iff.mp none)
  · have same : length = array.len := by omega
    subst same
    exact ⟨bounded, fun zero => held zero (Nat.le_refl _)⟩

theorem gArraySetSize_safe (bounded : array.Bounded)
    (block : array.zeroTerminated = true → length = 0 → array.data ≠ none) :
    Safe Sound (gArraySetSize process array length) := by
  refine (makeSize_safe bounded block).bind fun after ⟨sized, held⟩ => ?_
  exact (zeroTerminate_safe sized held).mono fun _ => And.left

theorem gArrayInsertVals_safe (sound : array.Sound) (index : Nat) (data : Nat → UInt8) (len : Nat) :
    Safe Sound (gArrayInsertVals process array index data len) := by
  refine Meets.ite (fun _ => sound) fun some => Meets.ite (fun beyond => ?_) fun within => ?_
  · refine (gArrayMaybeExpand_safe process sound.toBounded _).bind fun after expanded => ?_
    refine (gArraySetSize_safe expanded.bounded fun zero empty none => ?_).bind fun sized sound =>
      gArrayAppendVals_safe sound data len
    -- the sum in the first expansion may wrap, but the terminator has its room all the same
    have capacity := expanded.capacity
    have nothing := expanded.bounded.empty none
    rw [← expanded.zeroTerminated, zero, Bool.toNat_true] at capacity
    omega
  · refine (gArrayMaybeExpand_safe process sound.toBounded _).bind fun after expanded => ?_
    have capacity := expanded.capacity
    have lt := expanded.bounded.capacity_lt
    have old := expanded.len
    rw [wrapUint, Nat.mod_eq_of_lt (by omega)]
    refine (memmove_safe (inside_elements expanded.bounded (by omega)) (inside_elements expanded.bounded (by omega))).bind
      fun moved same => ?_
    have expanded := expanded.sameShape same
    refine (memcpy_safe (inside_elements expanded.bounded ?_)).bind fun written same => ?_
    · have capacity := expanded.capacity
      omega
    · exact zeroTerminate_grown (expanded.sameShape same) (by omega)

theorem gArraySizedNew_safe (process : Process) (zeroTerminated clear : Bool) {eltSize : Nat} (small : eltSize < 2 ^ 32)
    (reservedSize : Nat) :
    Safe (fun created => ∀ array, created = some array → array.Sound)
      (gArraySizedNew process zeroTerminated clear eltSize reservedSize) := by
  refine Meets.ite (fun _ => ?_) fun positive => ?_
  · intro array none
    cases none
  · dsimp only
    have bounded : RealArray.Bounded
        { data := none, len := 0, eltCapacity := 0, eltSize := eltSize, zeroTerminated := zeroTerminated
          clear := clear, refCount := 1, clearFunc := none } :=
      ⟨Nat.pos_of_ne_zero positive, small, Nat.le_refl _, Nat.pow_pos Nat.two_pos, Nat.le_of_eq (Nat.zero_mul _), fun _ => rfl,
        fun _ some => absurd rfl some, Nat.zero_le _⟩
    refine Meets.ite (fun _ => ?_) fun plain => ?_
    · refine (gArrayMaybeExpand_safe process bounded reservedSize).bind fun after expanded => ?_
      refine (zeroTerminate_safe expanded.bounded fun zero none => ?_).bind fun terminated sound => ?_
      · have capacity := expanded.capacity
        have nothing := expanded.bounded.empty none
        rw [← expanded.zeroTerminated, zero, Bool.toNat_true] at capacity
        omega
      · rintro array ⟨⟩
        exact sound.1
    · rintro array ⟨⟩
      exact ⟨bounded, fun zero => absurd (Or.inl zero) plain⟩

theorem RealArray.Sound.emptied (sound : array.Sound) : { array with data := none, len := 0, eltCapacity := 0 }.Sound where
  size_pos := sound.size_pos
  size_lt := sound.size_lt
  len_le := Nat.le_refl _
  capacity_lt := by
    show 0 < 2 ^ 32
    decide
  allocated := Nat.le_of_eq (Nat.zero_mul _)
  empty _ := rfl
  room _ some := absurd rfl some
  limit := Nat.zero_le _
  terminated _ some := absurd rfl some

theorem arrayFree_safe (sound : array.Sound) (freeSegment preserveWrapper : Bool) :
    Safe (fun result => ∀ left, result.2 = some left → left.Sound) (arrayFree array freeSegment preserveWrapper) := by
  have clears : Safe (Keeps (array.eltLen array.len) array)
      (array.doIf freeSegment ((List.range array.len).foldlM RealArray.callClear array)) := by
    refine Meets.ite (fun _ => ?_) fun _ => Keeps.refl _ _
    refine Meets.foldlM (Keeps.refl _ _) fun cleared i member keeps => ?_
    have len_le := sound.len_le
    refine (callClear_keeps (keeps.bounded sound.toBounded) (List.mem_range.mp member) (keeps.eltCapacity ▸ len_le)).mono
      fun after next => ?_
    rw [eltLen, keeps.eltSize] at next
    exact keeps.trans next
  refine clears.bind fun cleared keeps left same => ?_
  cases preserveWrapper with
  | false => cases same
  | true =>
    cases same
    exact RealArray.Sound.emptied ⟨keeps.bounded sound.toBounded, keeps.terminated sound.terminated⟩

end Operations

/-- The call does not write a terminator where there is no block, and the end of the range it
removes does not wrap. -/
def ArrayCall.Careful (process : Process) (array : RealArray) : ArrayCall → Prop
  | setSize length => ¬(array.zeroTerminated = true ∧ array.data = none ∧ length.toNat = 0)
  | removeRange index length =>
    (index.toNat ≤ array.len → index.toNat + length.toNat < 2 ^ 32) ∧
      ¬(process.gcFriendly = false ∧ array.zeroTerminated = true ∧ array.data = none ∧ index.toNat = 0 ∧ length.toNat = 0)
  | _ => True

section Runs
open RealArray

variable {array : RealArray} {process : Process}

def StaysSound (left : Option RealArray) : Prop := ∀ array, left = some array → array.Sound

theorem staysSound_some : StaysSound (some array) ↔ array.Sound :=
  ⟨fun stays => stays array rfl, fun sound _ same => Option.some.inj same ▸ sound⟩

theorem safe_some {x : Except Stop RealArray} (safe : Safe Sound x) : Safe StaysSound (some <$> x) := by
  cases x with
  | ok array => exact staysSound_some.mpr safe
  | error stop => exact safe

theorem safe_left {x : Except Stop (Option Block × Option RealArray)}
    (safe : Safe (fun result => ∀ left, result.2 = some left → left.Sound) x) : Safe StaysSound (Prod.snd <$> x) := by
  cases x with
  | ok result => exact safe
  | error stop => exact safe

theorem RealArray.Sound.withCount (sound : array.Sound) (count : Int) : { array with refCount := count }.Sound :=
  ⟨⟨sound.size_pos, sound.size_lt, sound.len_le, sound.capacity_lt, sound.allocated, sound.empty, sound.room, sound.limit⟩,
    sound.terminated⟩

theorem perform_safe (sound : array.Sound) (call : ArrayCall) (careful : call.Careful process array) :
    Safe StaysSound (call.perform process array) := by
  cases call with
  | setClearFunc clearFunc =>
    refine staysSound_some.mpr ⟨⟨sound.size_pos, sound.size_lt, sound.len_le, sound.capacity_lt, sound.allocated,
      sound.empty, sound.room, sound.limit⟩, sound.terminated⟩
  | ref => exact staysSound_some.mpr (sound.withCount _)
  | unref =>
    refine Meets.ite (fun _ => ?_) fun _ => staysSound_some.mpr (sound.withCount _)
    exact safe_left (arrayFree_safe (sound.withCount _) true false)
  | free freeSegment => exact safe_left (arrayFree_safe (sound.withCount _) freeSegment _)
  | steal => exact staysSound_some.mpr sound.emptied
  | appendVals data len => exact safe_some (gArrayAppendVals_safe sound data _)
  | prependVals data len => exact safe_some (gArrayPrependVals_safe sound data _)
  | insertVals index data len => exact safe_some (gArrayInsertVals_safe sound _ data _)
  | setSize length =>
    refine safe_some (gArraySetSize_safe sound.toBounded fun zero empty none => ?_)
    exact careful ⟨zero, none, empty⟩
  | removeIndex index => exact safe_some (gArrayRemoveIndex_safe sound _)
  | removeIndexFast index => exact safe_some (gArrayRemoveIndexFast_safe sound _)
  | removeRange index length =>
    apply safe_some
    by_cases start : index.toNat ≤ array.len
    · have fits : wrapUint (index.toNat + length.toNat) = index.toNat + length.toNat := Nat.mod_eq_of_lt (careful.1 start)
      by_cases stop : index.toNat + length.toNat ≤ array.len
      · refine (gArrayRemoveRange_safe sound.toBounded stop (fun _ => sound.terminated) fun plain zero none => ?_).mono
          fun _ => Removed.sound
        have nothing := sound.empty none
        have len_le := sound.len_le
        exact careful.2 ⟨plain, zero, none, by omega, by omega⟩
      · rw [gArrayRemoveRange, if_neg (by omega), fits, if_pos (by omega)]
        exact sound
    · rw [gArrayRemoveRange, if_pos (by omega)]
      exact sound

def CarefulRun : Option RealArray → List (Process × ArrayCall) → Prop
  | none, _ => True
  | some _, [] => True
  | some array, (process, call) :: calls =>
    call.Careful process array ∧ ∀ left, call.perform process array = .ok left → CarefulRun left calls

theorem performAll_safe {calls : List (Process × ArrayCall)} {left : Option RealArray} (stays : StaysSound left)
    (careful : CarefulRun left calls) : Safe StaysSound (performAll left calls) := by
  induction calls generalizing left with
  | nil => exact stays
  | cons step calls ih =>
    obtain ⟨process, call⟩ := step
    cases left with
    | none => exact stays
    | some array =>
      obtain ⟨first, rest⟩ := careful
      have safe := perform_safe (staysSound_some.mp stays) call first
      show Safe StaysSound (call.perform process array >>= fun next => performAll next calls)
      cases ran : call.perform process array with
      | error stop =>
        rw [ran] at safe
        exact safe
      | ok next =>
        rw [ran] at safe
        exact ih safe (rest next ran)

def runArray (process : Process) (zeroTerminated clear : Bool) (eltSize reservedSize : UInt32)
    (calls : List (Process × ArrayCall)) : Except Stop (Option RealArray) := do
  performAll (← gArraySizedNew process zeroTerminated clear eltSize.toNat reservedSize.toNat) calls

/-- No access of the run leaves the block, and the array it ends with is disciplined. -/
def KeepsDiscipline (x : Except Stop (Option RealArray)) : Prop :=
  Safe (fun left => ∀ array, left = some array → array.Disciplined) x

/-- A run of careful calls keeps the discipline. -/
theorem runArray_disciplined (process : Process) (zeroTerminated clear : Bool) (eltSize reservedSize : UInt32)
    (calls : List (Process × ArrayCall))
    (careful : ∀ created, gArraySizedNew process zeroTerminated clear eltSize.toNat reservedSize.toNat = .ok created →
      CarefulRun created calls) :
    KeepsDiscipline (runArray process zeroTerminated clear eltSize reservedSize calls) := by
  have created := gArraySizedNew_safe process zeroTerminated clear eltSize.toNat_lt reservedSize.toNat
  unfold KeepsDiscipline runArray
  cases made : gArraySizedNew process zeroTerminated clear eltSize.toNat reservedSize.toNat with
  | error stop =>
    rw [made] at created
    exact created
  | ok left =>
    rw [made] at created
    exact (performAll_safe created (careful left made)).mono fun final stays array same => (stays array same).disciplined

def quietProcess : Process := { gcFriendly := false, serves := fun _ => true, indeterminate := fun _ => 0xcc }

/-- A terminated array is stolen from and grown again. -/
theorem runArray_disciplined_stolen :
    KeepsDiscipline (runArray quietProcess true false 4 0
      [(quietProcess, .steal), (quietProcess, .appendVals (fun _ => 7) 3), (quietProcess, .removeRange 1 2)]) :=
  runArray_disciplined quietProcess true false 4 0 _ (by
    rintro (_ | created) -
    · trivial
    refine ⟨trivial, ?_⟩
    rintro (_ | stolen) -
    · trivial
    refine ⟨trivial, ?_⟩
    rintro (_ | grown) -
    · trivial
    refine ⟨⟨fun _ => by decide, fun slip => absurd slip.2.2.2.1 (by decide)⟩, ?_⟩
    rintro (_ | shrunk) - <;> trivial)

/-- Setting the size of a stolen array to zero writes its terminator to `NULL`. -/
theorem stolen_setSize_outside :
    ¬∀ (process : Process) (zeroTerminated clear : Bool) (eltSize reservedSize : UInt32)
      (calls : List (Process × ArrayCall)),
      KeepsDiscipline (runArray process zeroTerminated clear eltSize reservedSize calls) := by
  intro claim
  have stops : runArray quietProcess true false 1 0 [(quietProcess, .steal), (quietProcess, .setSize 0)] =
      .error .outside := rfl
  have clean := claim quietProcess true false 1 0 [(quietProcess, .steal), (quietProcess, .setSize 0)]
  rw [stops] at clean
  cases clean

end Runs

end Xpl.Collections
