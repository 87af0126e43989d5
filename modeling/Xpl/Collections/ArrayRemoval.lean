import Xpl.Collections.PointerArray

/-! The removal of ranges from growable arrays and from arrays of pointers. -/

set_option autoImplicit false

namespace Xpl.Collections
open Xpl.Library

section Elements
open RealArray

/-- A call of the clear function, and the elements that it has been given. -/
def clearNext (index : Nat) (now : RealArray × List (List UInt8)) (i : Nat) : Except Stop (RealArray × List (List UInt8)) := do
  let cleared ← now.1.callClear (wrapUint (index + i))
  .ok (cleared, now.2 ++ [now.1.element (wrapUint (index + i))])

def clearRange (array : RealArray) (index length : Nat) : Except Stop (RealArray × List (List UInt8)) :=
  if array.clearFunc.isSome then (List.range length).foldlM (clearNext index) (array, []) else .ok (array, [])

/-- `gArrayRemoveRange` with the elements on which the clear function has been called. -/
def removeRangeCalls (process : Process) (array : RealArray) (index length : Nat) :
    Except Stop (RealArray × List (List UInt8)) :=
  if array.len < index then .ok (array, [])
  else if array.len < wrapUint (index + length) then .ok (array, [])
  else do
    let cleared ← clearRange array index length
    let array ← cleared.1.doIf (wrapUint (index + length) ≠ cleared.1.len)
      (cleared.1.memmove (cleared.1.eltLen index) (cleared.1.eltLen (wrapUint (index + length)))
        (wrapUint (subUint cleared.1.len (wrapUint (index + length)) * cleared.1.eltSize)))
    let array ← afterRemoval process { array with len := subUint array.len length } length
    .ok (array, cleared.2)

theorem foldlM_clearNext (index : Nat) (now : RealArray × List (List UInt8)) (turns : List Nat) :
    Prod.fst <$> turns.foldlM (clearNext index) now =
      turns.foldlM (fun array i => array.callClear (wrapUint (index + i))) now.1 := by
  induction turns generalizing now with
  | nil => rfl
  | cons i rest ih =>
    rw [List.foldlM_cons, List.foldlM_cons, clearNext]
    cases now.1.callClear (wrapUint (index + i)) with
    | error stop => rfl
    | ok cleared => exact ih (cleared, _)

theorem clearRange_fst (array : RealArray) (index length : Nat) :
    Prod.fst <$> clearRange array index length = array.doIf array.clearFunc.isSome
      ((List.range length).foldlM (fun array i => array.callClear (wrapUint (index + i))) array) := by
  unfold clearRange doIf
  split
  · exact foldlM_clearNext index (array, []) _
  · rfl

theorem removeRangeCalls_fst (process : Process) (array : RealArray) (index length : Nat) :
    Prod.fst <$> removeRangeCalls process array index length = gArrayRemoveRange process array index length := by
  unfold removeRangeCalls gArrayRemoveRange
  rw [← clearRange_fst]
  split
  · rfl
  · split
    · rfl
    · cases clearRange array index length with
      | error stop => rfl
      | ok cleared =>
        show Prod.fst <$> (cleared.1.doIf _ _ >>= _) = (cleared.1.doIf _ _ >>= _)
        cases cleared.1.doIf (wrapUint (index + length) ≠ cleared.1.len)
            (cleared.1.memmove (cleared.1.eltLen index) (cleared.1.eltLen (wrapUint (index + length)))
              (wrapUint (subUint cleared.1.len (wrapUint (index + length)) * cleared.1.eltSize))) with
        | error stop => rfl
        | ok moved =>
          show Prod.fst <$> (afterRemoval _ _ _ >>= _) = afterRemoval _ _ _
          cases afterRemoval process { moved with len := subUint moved.len length } length <;> rfl

/-- Nothing but the bytes of the elements `[index, index + length)` has changed. -/
structure Cleared (array : RealArray) (index length : Nat) (after : RealArray) : Prop extends SameShape array after where
  before : ∀ p < array.eltSize * index, after.byteAt p = array.byteAt p
  behind : ∀ p, array.eltSize * (index + length) ≤ p → after.byteAt p = array.byteAt p

variable {allowed : Stop → Prop} {process : Process} {array : RealArray} {index length : Nat}

theorem Cleared.refl (array : RealArray) (index length : Nat) : Cleared array index length array :=
  ⟨SameShape.refl _, fun _ _ => rfl, fun _ _ => rfl⟩

theorem callClear_cleared {now : RealArray} (bounded : array.Bounded) (cleared : Cleared array index length now)
    (below : index + length < array.len) :
    Meets allowed (Cleared array index (length + 1)) (now.callClear (index + length)) := by
  have len_le := bounded.len_le
  have next : array.eltSize * (index + (length + 1)) = array.eltSize * (index + length) + array.eltSize := Nat.mul_succ _ _
  have first : array.eltSize * index ≤ array.eltSize * (index + length) := Nat.mul_le_mul_left _ (Nat.le_add_right _ _)
  unfold RealArray.callClear
  split
  · exact ⟨cleared.toSameShape, cleared.before, fun p above => cleared.behind p (by omega)⟩
  · have inside := @inside_elements now (cleared.bounded bounded) (index + length) 1 (by rw [cleared.eltCapacity]; omega)
    rw [eltLen, eltLen, Nat.mul_one] at inside
    refine (memcpy_written inside).mono fun after written => ?_
    have bytes := written.bytes
    simp only [eltLen, cleared.eltSize] at bytes
    refine ⟨cleared.toSameShape.trans written.toSameShape, fun p low => ?_, fun p above => ?_⟩
    · rw [bytes, if_neg (by omega)]
      exact cleared.before p low
    · rw [bytes, if_neg (by omega)]
      exact cleared.behind p (by omega)

theorem foldlM_clearNext_cleared (bounded : array.Bounded) (le : index + length ≤ array.len) :
    Meets allowed (fun result => Cleared array index length result.1 ∧
        result.2 = (List.range length).map fun i => array.element (index + i))
      ((List.range length).foldlM (clearNext index) (array, [])) := by
  have small := bounded.capacity_lt
  have len_le := bounded.len_le
  induction length with
  | zero => exact ⟨Cleared.refl array index 0, rfl⟩
  | succ length ih =>
    rw [List.range_succ, List.foldlM_append]
    refine (ih (by omega)).bind fun now ⟨cleared, calls⟩ => ?_
    rw [List.foldlM_cons, clearNext, wrapUint, Nat.mod_eq_of_lt (by omega)]
    have same : now.1.element (index + length) = array.element (index + length) := by
      rw [element, element, cleared.eltSize]
      exact bytesOf_eq_iff.mpr fun k _ => cleared.behind _ (Nat.le_add_right _ _)
    refine Meets.bind (Meets.bind (callClear_cleared bounded cleared (by omega)) fun after next => ?_) fun result done => done
    refine ⟨next, ?_⟩
    rw [calls, same, List.map_append]
    rfl

theorem clearRange_cleared (bounded : array.Bounded) (le : index + length ≤ array.len) :
    Meets allowed (fun result => Cleared array index length result.1 ∧
        result.2 = if array.clearFunc.isSome then (array.elements.drop index).take length else [])
      (clearRange array index length) := by
  have range : (List.range length).map (fun i => array.element (index + i)) = (array.elements.drop index).take length := by
    refine List.ext_getElem (by simp; omega) fun i _ _ => ?_
    simp
  unfold clearRange
  split
  · rw [← range]
    exact foldlM_clearNext_cleared bounded le
  · exact ⟨Cleared.refl array index length, rfl⟩

theorem afterRemoval_elements (bounded : array.Bounded) (fits : array.len + length ≤ array.eltCapacity)
    (block : process.gcFriendly = false → array.zeroTerminated = true → array.data ≠ none) :
    Meets allowed (fun after => after.elements = array.elements) (afterRemoval process array length) := by
  refine Meets.ite (fun _ => eltZero_elements bounded fits) fun plain => ?_
  exact zeroTerminate_elements bounded (block (by simpa using plain))

def clearedArray (array : RealArray) (index length : Nat) : RealArray :=
  match clearRange array index length with
  | .ok cleared => cleared.1
  | .error _ => array

/-- The bytes that the 32-bit product in the call of `memmove` gives for what follows the range. -/
def movedBytes (array : RealArray) (index length : Nat) : Nat := wrapUint (array.eltSize * (array.len - (index + length)))

/-- The memory that is left after the removal. -/
def closedBytes (array : RealArray) (index length p : Nat) : UInt8 :=
  if p < array.eltSize * index then array.byteAt p
  else if p < array.eltSize * index + movedBytes array index length then array.byteAt (p + array.eltSize * length)
  else (clearedArray array index length).byteAt p

theorem removeRangeCalls_within (bounded : array.Bounded) (le : index + length ≤ array.len)
    (block : process.gcFriendly = false → array.zeroTerminated = true → array.data ≠ none) :
    Meets (fun _ => False) (fun result =>
        result.2 = (if array.clearFunc.isSome then (array.elements.drop index).take length else []) ∧
        result.1.elements = chunks array.eltSize (closedBytes array index length) (array.len - length))
      (removeRangeCalls process array index length) := by
  have len_le := bounded.len_le
  have small := bounded.capacity_lt
  have stop : wrapUint (index + length) = index + length := Nat.mod_eq_of_lt (by omega)
  unfold removeRangeCalls
  rw [stop, if_neg (show ¬array.len < index by omega), if_neg (Nat.not_lt.mpr le)]
  have cleared := @clearRange_cleared (fun _ => False) array index length bounded le
  have named : ∀ result, clearRange array index length = .ok result → clearedArray array index length = result.1 := by
    intro result call
    rw [clearedArray, call]
  revert cleared named
  cases clearRange array index length with
  | error stop => exact fun impossible _ => absurd impossible id
  | ok result =>
    rintro ⟨cleared, calls⟩ named
    have same := named result rfl
    have kept := cleared.bounded bounded
    have capacity := cleared.eltCapacity
    have product : wrapUint (subUint result.1.len (index + length) * result.1.eltSize) = movedBytes array index length := by
      rw [cleared.len, cleared.eltSize, subUint_of_le le (by omega), Nat.mul_comm, movedBytes]
    -- the product may wrap, which only makes the move shorter
    have shorter : movedBytes array index length ≤ array.eltSize * (array.len - (index + length)) := Nat.mod_le _ _
    have sizes : ∀ n, result.1.eltLen n = array.eltSize * n := fun n => by rw [eltLen, cleared.eltSize]
    have moves : Meets (fun _ => False) (fun moved : RealArray => SameShape result.1 moved ∧
          ∀ p < array.eltSize * (array.len - length), moved.byteAt p = closedBytes array index length p)
        (result.1.doIf (index + length ≠ result.1.len) (result.1.memmove (result.1.eltLen index)
          (result.1.eltLen (index + length)) (wrapUint (subUint result.1.len (index + length) * result.1.eltSize)))) := by
      rw [product]
      refine Meets.ite (fun _ => ?_) fun none => ⟨SameShape.refl _, fun p below => ?_⟩
      · have source := @inside_elements _ kept (index + length) (array.len - (index + length)) (by omega)
        have target := @inside_elements _ kept index (array.len - (index + length)) (by omega)
        simp only [sizes] at source target ⊢
        refine (memmove_written (inside_mono shorter source) (inside_mono shorter target)).mono fun moved written => ?_
        refine ⟨written.toSameShape, fun p below => ?_⟩
        rw [written.bytes, closedBytes]
        by_cases low : p < array.eltSize * index
        · rw [if_neg (by omega), if_pos low]
          exact cleared.before p low
        · rw [if_neg low]
          by_cases high : p < array.eltSize * index + movedBytes array index length
          · rw [if_pos (by omega), if_pos high, cleared.behind _ (by omega), Nat.mul_add]
            congr 1
            omega
          · rw [if_neg (by omega), if_neg high, same]
      · have all : array.len - length = index := by
          have := cleared.len
          omega
        rw [all] at below
        rw [closedBytes, if_pos below]
        exact cleared.before p below
    change Meets _ _ (result.1.doIf _ _ >>= _)
    refine Meets.bind moves fun moved kind => ?_
    obtain ⟨shape, bytes⟩ := kind
    have shaped := shape.bounded kept
    have len := shape.len.trans cleared.len
    have size := shape.eltSize.trans cleared.eltSize
    have room := shape.eltCapacity.trans cleared.eltCapacity
    have data := shape.none_iff.trans cleared.none_iff
    have zero := shape.zeroTerminated.trans cleared.zeroTerminated
    have limit := shaped.limit
    rw [len, subUint_of_le (by omega) (by omega)]
    refine Meets.bind (afterRemoval_elements (shaped.resize (by omega) (fun some held => ?_) (by omega)) ?_ fun plain some => ?_)
      fun after elements => ⟨calls, ?_⟩
    · have := shaped.room some held
      omega
    · show array.len - length + length ≤ moved.eltCapacity
      omega
    · exact mt data.mp (block plain (zero ▸ some))
    · rw [elements, RealArray.elements]
      rw [size]
      exact chunks_eq_iff.mpr bytes

/-- Which bytes decide whether the removal is right: those that the product has cut off from the move. -/
theorem closedBytes_iff (le : index + length ≤ array.len) :
    chunks array.eltSize (closedBytes array index length) (array.len - length) =
        array.elements.take index ++ array.elements.drop (index + length) ↔
      ∀ k, movedBytes array index length ≤ k → k < array.eltSize * (array.len - (index + length)) →
        (clearedArray array index length).byteAt (array.eltSize * index + k) =
          array.byteAt (array.eltSize * (index + length) + k) := by
  have split : array.len - length = index + (array.len - (index + length)) := by omega
  rw [elements, take_chunks (by omega), drop_chunks le, split, chunks_add]
  have front : chunks array.eltSize (closedBytes array index length) index = chunks array.eltSize array.byteAt index :=
    chunks_eq_iff.mpr fun p below => if_pos below
  rw [front, List.append_cancel_left_eq, chunks_eq_iff]
  refine forall_congr' fun k => ?_
  have low : ¬array.eltSize * index + k < array.eltSize * index := by omega
  rw [closedBytes, if_neg low]
  by_cases moved : k < movedBytes array index length
  · rw [if_pos (by omega)]
    refine iff_of_true (fun _ => ?_) fun above => absurd moved (Nat.not_lt.mpr above)
    rw [Nat.mul_add]
    congr 1
    omega
  · rw [if_neg (by omega)]
    exact ⟨fun same _ below => same below, fun same below => same (Nat.not_lt.mp moved) below⟩

theorem callClear_shape (array : RealArray) (index : Nat) : Yields (SameShape array) (array.callClear index) := by
  unfold RealArray.callClear
  split
  · exact SameShape.refl _
  · exact memcpy_effect.mono fun _ written => written.toSameShape

theorem clearRange_shape (array : RealArray) (index length : Nat) :
    Yields (fun result => SameShape array result.1) (clearRange array index length) := by
  unfold clearRange
  split
  · refine Meets.foldlM (SameShape.refl _) fun now i _ shape => ?_
    exact (callClear_shape _ _).bind fun cleared next => shape.trans next
  · exact SameShape.refl _

theorem removeRangeCalls_passed (start : index ≤ array.len) (check : wrapUint (index + length) ≤ array.len)
    {post : RealArray → Prop}
    (last : ∀ moved, SameShape array moved →
      Yields post (afterRemoval process { moved with len := subUint moved.len length } length)) :
    Yields (fun result => post result.1) (removeRangeCalls process array index length) := by
  unfold removeRangeCalls
  rw [if_neg (Nat.not_lt.mpr start), if_neg (Nat.not_lt.mpr check)]
  refine (clearRange_shape array index length).bind fun cleared shape => ?_
  have moves : Yields (SameShape array) (cleared.1.doIf (wrapUint (index + length) ≠ cleared.1.len)
      (cleared.1.memmove (cleared.1.eltLen index) (cleared.1.eltLen (wrapUint (index + length)))
        (wrapUint (subUint cleared.1.len (wrapUint (index + length)) * cleared.1.eltSize)))) := by
    refine Meets.ite (fun _ => ?_) fun _ => shape
    exact memmove_effect.mono fun _ written => shape.trans written.toSameShape
  refine moves.bind fun moved shaped => ?_
  exact (last moved shaped).bind fun after holds => holds

theorem afterRemoval_shape (array : RealArray) : Yields (SameShape array) (afterRemoval process array length) := by
  refine Meets.ite (fun _ => memcpy_effect.mono fun _ written => written.toSameShape) fun _ => ?_
  exact Meets.ite (fun _ => memcpy_effect.mono fun _ written => written.toSameShape) fun _ => SameShape.refl _

/-- The range is deleted and the rest kept in order, or it is not in the array and nothing happens. -/
def RangeExact (process : Process) (array : RealArray) (index length : Nat) : Prop :=
  if index + length ≤ array.len then
    ∃ after, removeRangeCalls process array index length =
        .ok (after, if array.clearFunc.isSome then (array.elements.drop index).take length else []) ∧
      after.elements = array.elements.take index ++ array.elements.drop (index + length)
  else removeRangeCalls process array index length = .ok (array, [])

/-- The condition under which the removal does so. -/
structure RangeSafe (process : Process) (array : RealArray) (index length : Nat) : Prop where
  wraps : index ≤ array.len → index + length < 2 ^ 32
  block : index + length ≤ array.len → process.gcFriendly = false → array.zeroTerminated = true → array.data ≠ none
  tail : index + length ≤ array.len →
    ∀ k, movedBytes array index length ≤ k → k < array.eltSize * (array.len - (index + length)) →
      (clearedArray array index length).byteAt (array.eltSize * index + k) =
        array.byteAt (array.eltSize * (index + length) + k)

theorem RangeExact.wraps (bounded : array.Bounded) (small : length < 2 ^ 32) (exact : RangeExact process array index length)
    (start : index ≤ array.len) : index + length < 2 ^ 32 := by
  by_contra wraps
  have len_le := bounded.len_le
  have lt := bounded.capacity_lt
  rw [RangeExact, if_neg (by omega)] at exact
  have check : wrapUint (index + length) ≤ array.len := by
    rw [wrapUint, Nat.mod_eq_sub_mod (by omega), Nat.mod_eq_of_lt (by omega)]
    omega
  have longer := @removeRangeCalls_passed process array index length start check (fun after => after.len = subUint array.len length)
    fun moved shape => (afterRemoval_shape _).mono fun after same => same.len.trans (by rw [← shape.len])
  rw [exact] at longer
  have same : array.len = subUint array.len length := longer
  rw [subUint, Nat.mod_eq_of_lt (by omega)] at same
  omega

theorem RangeExact.block (bounded : array.Bounded) (exact : RangeExact process array index length) (le : index + length ≤ array.len)
    (plain : process.gcFriendly = false) (zero : array.zeroTerminated = true) : array.data ≠ none := by
  intro none
  have len_le := bounded.len_le
  have lt := bounded.capacity_lt
  rw [RangeExact, if_pos le] at exact
  obtain ⟨after, call, -⟩ := exact
  have check : wrapUint (index + length) ≤ array.len := by rwa [wrapUint, Nat.mod_eq_of_lt (by omega)]
  have never := @removeRangeCalls_passed process array index length (by omega) check (fun _ => False) fun moved shape => by
    have held : moved.data = Option.none := shape.none_iff.mpr none
    refine Meets.ite (fun friendly => absurd friendly (by simp [plain])) fun _ => ?_
    refine Meets.ite (fun _ => ?_) fun flag => absurd (shape.zeroTerminated.trans zero) flag
    rw [eltZero, memset, memcpy, if_neg]
    · trivial
    · simp [RealArray.inside, held, eltLen, shape.eltSize, Nat.ne_of_gt bounded.size_pos]
  rw [call] at never
  exact never

theorem removeRange_exact_iff (bounded : array.Bounded) (small : length < 2 ^ 32) :
    RangeExact process array index length ↔ RangeSafe process array index length := by
  constructor
  · intro exact
    refine ⟨exact.wraps bounded small, exact.block bounded, fun le => (closedBytes_iff le).mp ?_⟩
    have within := removeRangeCalls_within bounded le (exact.block bounded le)
    rw [RangeExact, if_pos le] at exact
    obtain ⟨after, call, elements⟩ := exact
    rw [call] at within
    exact within.2.symm.trans elements
  · rintro ⟨wraps, block, tail⟩
    by_cases le : index + length ≤ array.len
    · rw [RangeExact, if_pos le]
      have within := removeRangeCalls_within bounded le (block le)
      cases call : removeRangeCalls process array index length with
      | error stop =>
        rw [call] at within
        exact absurd within id
      | ok result =>
        rw [call] at within
        exact ⟨result.1, by rw [← within.1], within.2.trans ((closedBytes_iff le).mpr (tail le))⟩
    · rw [RangeExact, if_neg le, removeRangeCalls]
      by_cases start : array.len < index
      · exact if_pos start
      · rw [if_neg start]
        have exact : wrapUint (index + length) = index + length := Nat.mod_eq_of_lt (wraps (Nat.not_lt.mp start))
        rw [exact]
        exact if_pos (Nat.not_le.mp le)

end Elements

section Pointers
open RealPtrArray

variable {P : Type} {allowed : Stop → Prop} {process : PtrProcess P} {array : RealPtrArray P} {index length : Nat}

/-- The pointers of the range are freed and deleted and the rest kept in order, or the range is not in the array and
nothing happens. -/
def PtrRangeExact (process : PtrProcess P) (array : RealPtrArray P) (index length : Nat) : Prop :=
  if index + length ≤ array.len then
    ∃ after, xptrArrayRemoveRange process array index length =
        .ok (after, if array.elementFreeFunc then (array.pointers.drop index).take length else []) ∧
      after.pointers = array.pointers.take index ++ array.pointers.drop (index + length)
  else xptrArrayRemoveRange process array index length = .ok (array, [])

theorem RealPtrArray.Bounded.proper (bounded : array.Bounded) : array.proper = true := by
  have len_le := bounded.len_le
  have allocated := bounded.allocated
  unfold RealPtrArray.proper
  rw [Bool.or_eq_true, decide_eq_true_iff]
  cases held : array.pdata with
  | none =>
    rw [held, Option.map_none, Option.getD_none, sizeofPointer] at allocated
    exact Or.inl (by omega)
  | some block => exact Or.inr rfl

theorem mapM_getSlot {slots : List Nat} (inside : ∀ i ∈ slots, array.inside i 1 = true) :
    slots.mapM array.getSlot = .ok (slots.map array.slotAt) := by
  induction slots with
  | nil => rfl
  | cons i slots ih =>
    obtain ⟨first, rest⟩ := List.forall_mem_cons.mp inside
    rw [List.mapM_cons, getSlot, if_pos first, ih rest]
    rfl

theorem freeSlots_eq (bounded : array.Bounded) (le : index + length ≤ array.len) :
    array.freeSlots index (index + length) =
      .ok (if array.elementFreeFunc then (array.pointers.drop index).take length else []) := by
  have len_le := bounded.len_le
  have range : (List.range' index length).map array.slotAt = (array.pointers.drop index).take length := by
    refine List.ext_getElem (by simp [length_pointers]; omega) fun i _ _ => ?_
    simp [getElem_pointers]
  unfold freeSlots
  split
  · rw [Nat.add_sub_cancel_left, mapM_getSlot, range]
    intro i member
    obtain ⟨k, below, rfl⟩ := List.mem_range'.mp member
    exact bounded.inside (by omega)
  · rfl

theorem xptrArrayRemoveRange_within (bounded : array.Bounded) (le : index + length ≤ array.len) :
    Meets (fun _ => False) (fun result =>
        result.2 = (if array.elementFreeFunc then (array.pointers.drop index).take length else []) ∧
        result.1.Bounded ∧ result.1.pointers = array.pointers.take index ++ array.pointers.drop (index + length))
      (xptrArrayRemoveRange process array index length) := by
  have len_le := bounded.len_le
  have lt := bounded.alloc_lt
  have stop : wrapUint (index + length) = index + length := Nat.mod_eq_of_lt (by omega)
  have improper : ¬array.proper = false := by rw [bounded.proper]; decide
  unfold xptrArrayRemoveRange
  rw [stop, if_neg improper, if_neg (show ¬array.len < index by omega), if_neg (Nat.not_lt.mpr le), freeSlots_eq bounded le]
  have moves : Meets (fun _ => False) (Written array index (array.len - (index + length)) fun k => array.slotAt (index + length + k))
      (array.doIf (index + length ≠ array.len) (array.moveSlots index (index + length) (subUint array.len (index + length)))) := by
    rw [subUint_of_le le (by omega)]
    refine Meets.ite (fun _ => ?_) fun last => ?_
    · exact moveSlots_written (bounded.inside (by omega)) (bounded.inside (by omega))
    · rw [show array.len - (index + length) = 0 by omega]
      exact written_nothing _ _ _
  refine moves.bind fun moved written => ?_
  rw [written.len, subUint_of_le (by omega) (by omega)]
  have shorter : ({ moved with len := array.len - length } : RealPtrArray P).Bounded :=
    { bounded.written written with len_le := by rw [← written.alloc] at len_le; show array.len - length ≤ moved.alloc; omega }
  have clears : Meets (fun _ => False) (fun after : RealPtrArray P => after.Bounded ∧ after.len = array.len - length ∧
        ∀ i < array.len - length, after.slotAt i = moved.slotAt i)
      (({ moved with len := array.len - length } : RealPtrArray P).doIf (process.gcFriendly = true)
        (({ moved with len := array.len - length } : RealPtrArray P).clearSlots (array.len - length) length)) := by
    refine Meets.ite (fun _ => ?_) fun _ => ⟨shorter, rfl, fun _ _ => rfl⟩
    refine (clearSlots_written shorter ?_).mono fun after cleared => ⟨shorter.written cleared, cleared.len, fun i below => ?_⟩
    · rw [← written.alloc] at len_le
      show array.len - length + length ≤ moved.alloc
      omega
    · rw [cleared.slots, if_neg (by omega)]
      rfl
  refine clears.bind fun after ⟨kept, len, slots⟩ => ⟨rfl, kept, ?_⟩
  refine pointers_append ?_ (fun i below => ?_) fun i below => ?_
  · rw [len, List.length_take, List.length_drop, length_pointers]
    omega
  · rw [List.length_take, length_pointers] at below
    rw [slots i (by omega), written.slots, if_neg (by omega), List.getElem_take, getElem_pointers]
  · rw [List.length_drop, length_pointers] at below
    have front : (array.pointers.take index).length = index := by
      rw [List.length_take, length_pointers]
      omega
    rw [front, slots _ (by omega), written.slots, if_pos (by omega), List.getElem_drop, getElem_pointers, Nat.add_sub_cancel_left]

theorem doIf_len {condition : Prop} [Decidable condition] {x : Except Stop (RealPtrArray P)}
    (same : Yields (fun after => after.len = array.len) x) : Yields (fun after => after.len = array.len) (array.doIf condition x) :=
  Meets.ite (fun _ => same) fun _ => rfl

theorem copySlots_len (array : RealPtrArray P) (first : Nat) (source : Nat → Option P) (count : Nat) :
    Yields (fun after => after.len = array.len) (array.copySlots first source count) :=
  Meets.ite (fun _ => rfl) fun _ => trivial

theorem xptrArrayRemoveRange_len (proper : array.proper = true) (start : index ≤ array.len)
    (check : wrapUint (index + length) ≤ array.len) :
    Yields (fun result => result.1.len = subUint array.len length) (xptrArrayRemoveRange process array index length) := by
  have improper : ¬array.proper = false := by rw [proper]; decide
  unfold xptrArrayRemoveRange
  rw [if_neg improper, if_neg (Nat.not_lt.mpr start), if_neg (Nat.not_lt.mpr check)]
  cases array.freeSlots index (wrapUint (index + length)) with
  | error stop => trivial
  | ok freed =>
    have moves := @doIf_len P array (wrapUint (index + length) ≠ array.len) _
      (array.moveSlots index (wrapUint (index + length)) (subUint array.len (wrapUint (index + length))))
      (Meets.ite (fun _ => copySlots_len _ _ _ _) fun _ => trivial)
    refine moves.bind fun moved len => ?_
    rw [len]
    refine Meets.bind (doIf_len ?_) fun after same => same
    refine Meets.foldlM rfl fun now i _ same => ?_
    exact (copySlots_len now _ _ _).mono fun after next => next.trans same

theorem xptrArrayRemoveRange_exact_iff (bounded : array.Bounded) (small : length < 2 ^ 32) :
    PtrRangeExact process array index length ↔ (index ≤ array.len → index + length < 2 ^ 32) := by
  have len_le := bounded.len_le
  have lt := bounded.alloc_lt
  have improper : ¬array.proper = false := by rw [bounded.proper]; decide
  constructor
  · intro exact start
    by_contra wraps
    rw [PtrRangeExact, if_neg (by omega)] at exact
    have check : wrapUint (index + length) ≤ array.len := by
      rw [wrapUint, Nat.mod_eq_sub_mod (by omega), Nat.mod_eq_of_lt (by omega)]
      omega
    have longer := @xptrArrayRemoveRange_len P process array index length bounded.proper start check
    rw [exact] at longer
    have same : array.len = subUint array.len length := longer
    rw [subUint, Nat.mod_eq_of_lt (by omega)] at same
    omega
  · intro wraps
    by_cases le : index + length ≤ array.len
    · rw [PtrRangeExact, if_pos le]
      have within := @xptrArrayRemoveRange_within P process array index length bounded le
      cases call : xptrArrayRemoveRange process array index length with
      | error stop =>
        rw [call] at within
        exact absurd within id
      | ok result =>
        rw [call] at within
        exact ⟨result.1, by rw [← within.1], within.2.2⟩
    · rw [PtrRangeExact, if_neg le, xptrArrayRemoveRange, if_neg improper]
      by_cases start : array.len < index
      · exact if_pos start
      · rw [if_neg start]
        have exact : wrapUint (index + length) = index + length := Nat.mod_eq_of_lt (wraps (Nat.not_lt.mp start))
        rw [exact]
        exact if_pos (Nat.not_le.mp le)

end Pointers

section Ranges

variable {P : Type} {process : Process} {ptrProcess : PtrProcess P} {array : RealArray} {ptrArray : RealPtrArray P}

theorem removeRanges_exact_iff (bounded : array.Bounded) (ptrBounded : ptrArray.Bounded) (index length : UInt32) :
    (RangeExact process array index.toNat length.toNat ↔ RangeSafe process array index.toNat length.toNat) ∧
    (PtrRangeExact ptrProcess ptrArray index.toNat length.toNat ↔
      (index.toNat ≤ ptrArray.len → index.toNat + length.toNat < 2 ^ 32)) :=
  ⟨removeRange_exact_iff bounded length.toNat_lt, xptrArrayRemoveRange_exact_iff ptrBounded length.toNat_lt⟩

def threeElements : RealArray :=
  { data := some { size := 16, byte := fun p => p.toUInt8 }, len := 3, eltCapacity := 16, eltSize := 1, zeroTerminated := false
    clear := false, refCount := 1, clearFunc := none }

def threePointers : RealPtrArray Nat :=
  { pdata := some { size := 32, slot := fun i => some i }, len := 3, alloc := 4, elementFreeFunc := true }

def plainProcess : Process := { gcFriendly := false, serves := fun _ => true, indeterminate := fun _ => 0 }

def plainPtrProcess : PtrProcess Nat := { gcFriendly := false, serves := fun _ => true, indeterminate := fun _ => none }

theorem threeElements_bounded : threeElements.Bounded := by
  constructor <;> simp [threeElements, gArrayMaxLen, gMaxsize, gMaxuint]

theorem threePointers_bounded : threePointers.Bounded := ⟨by decide, by decide, by decide⟩

theorem removeRanges_exact_sample :
    (RangeExact plainProcess threeElements 1 2 ↔ RangeSafe plainProcess threeElements 1 2) ∧
    (PtrRangeExact plainPtrProcess threePointers 1 2 ↔ (1 ≤ 3 → 1 + 2 < 2 ^ 32)) :=
  removeRanges_exact_iff threeElements_bounded threePointers_bounded 1 2

/-- The end of the range wraps: both arrays have four elements afterwards. -/
theorem removeRanges_wrapped :
    threeElements.Bounded ∧ threePointers.Bounded ∧ ¬RangeExact plainProcess threeElements 3 (2 ^ 32 - 1) ∧
      ¬PtrRangeExact plainPtrProcess threePointers 3 (2 ^ 32 - 1) := by
  refine ⟨threeElements_bounded, threePointers_bounded, fun exact => ?_, fun exact => ?_⟩
  · exact absurd (exact.wraps threeElements_bounded (by decide) (Nat.le_refl 3)) (by decide)
  · have wraps := (xptrArrayRemoveRange_exact_iff threePointers_bounded (by decide)).mp exact (Nat.le_refl 3)
    exact absurd wraps (by decide)

end Ranges

end Xpl.Collections
