import Xpl.Collections.ArrayGrowth

/-! Growable arrays of pointers.

An access to a slot that does not lie in the block of the array stops the computation.
`NULL` is `none`; the free function of the elements is given by the pointers it is called
on, in order.
-/

set_option autoImplicit false

namespace Xpl.Collections
open Xpl.Library

variable {P : Type}

structure PtrBlock (P : Type) where
  size : Nat
  slot : Nat → Option P

/-- `elementFreeFunc` says whether there is one. -/
structure RealPtrArray (P : Type) where
  pdata : Option (PtrBlock P)
  len : Nat
  alloc : Nat
  elementFreeFunc : Bool

/-- As `Process`, with the pointers that a new block happens to hold. -/
structure PtrProcess (P : Type) where
  gcFriendly : Bool
  serves : Nat → Bool
  indeterminate : Nat → Option P

def sizeofPointer : Nat := 8

namespace RealPtrArray

section Memory

/-- The slots `[first, first + count)` lie in the block. -/
def inside (array : RealPtrArray P) (first count : Nat) : Bool :=
  count = 0 || (array.pdata.map fun block => decide (sizeofPointer * (first + count) ≤ block.size)).getD false

/-- The array with the slots `[first, first + count)` taken from `source`. -/
def overwrite (array : RealPtrArray P) (first count : Nat) (source : Nat → Option P) : RealPtrArray P :=
  { array with
    pdata := array.pdata.map fun block =>
      { block with slot := fun i => if first ≤ i ∧ i < first + count then source (i - first) else block.slot i } }

def slotAt (array : RealPtrArray P) (i : Nat) : Option P := array.pdata.bind fun block => block.slot i

def copySlots (array : RealPtrArray P) (first : Nat) (source : Nat → Option P) (count : Nat) : Except Stop (RealPtrArray P) :=
  if array.inside first count then .ok (array.overwrite first count source) else .error .outside

/-- A `memmove`, or a `memcpy` within the block. -/
def moveSlots (array : RealPtrArray P) (target source count : Nat) : Except Stop (RealPtrArray P) :=
  if array.inside source count then array.copySlots target (fun k => array.slotAt (source + k)) count else .error .outside

def setSlot (array : RealPtrArray P) (i : Nat) (pointer : Option P) : Except Stop (RealPtrArray P) :=
  array.copySlots i (fun _ => pointer) 1

def getSlot (array : RealPtrArray P) (i : Nat) : Except Stop (Option P) :=
  if array.inside i 1 then .ok (array.slotAt i) else .error .outside

/-- A loop that sets the slots from `first` on to `NULL`. -/
def clearSlots (array : RealPtrArray P) (first count : Nat) : Except Stop (RealPtrArray P) :=
  (List.range count).foldlM (fun array i => array.setSlot (wrapUint (first + i)) none) array

/-- The calls of the free function, if there is one, on the slots from `first` to before `stop`. -/
def freeSlots (array : RealPtrArray P) (first stop : Nat) : Except Stop (List (Option P)) :=
  if array.elementFreeFunc then (List.range' first (stop - first)).mapM array.getSlot else .ok []

end Memory

/-- A statement under a condition. -/
def doIf (array : RealPtrArray P) (condition : Prop) [Decidable condition] (x : Except Stop (RealPtrArray P)) :
    Except Stop (RealPtrArray P) :=
  if condition then x else .ok array

/-- The check that most of the functions begin with. -/
def proper (array : RealPtrArray P) : Bool := array.len = 0 || array.pdata.isSome

def pointers (array : RealPtrArray P) : List (Option P) := (List.range array.len).map array.slotAt

end RealPtrArray

def gReallocSlots (process : PtrProcess P) (pdata : Option (PtrBlock P)) (size : Nat) : Except Stop (PtrBlock P) :=
  if process.serves size then
    .ok { size := size
          slot := fun i =>
            match pdata with
            | some block => if sizeofPointer * (i + 1) ≤ block.size then block.slot i else process.indeterminate i
            | none => process.indeterminate i }
  else .error .xerror

section Operations

def ptrMaxLen : Nat := min (gMaxsize / 2 / sizeofPointer) gMaxuint

def xptrArrayMaybeExpand (process : PtrProcess P) (array : RealPtrArray P) (len : Nat) : Except Stop (RealPtrArray P) :=
  if subUint ptrMaxLen array.len < len then .error .xerror
  else if array.alloc < wrapUint (array.len + len) then do
    let nearest ← gNearestPow (sizeofPointer * wrapUint (array.len + len))
    let wantAlloc := max nearest minArraySize
    let block ← gReallocSlots process array.pdata wantAlloc
    let expanded := { array with pdata := some block, alloc := min (wantAlloc / sizeofPointer) gMaxuint }
    expanded.doIf (process.gcFriendly = true) (expanded.clearSlots array.alloc (expanded.alloc - array.alloc))
  else .ok array

/-- The array, and the pointers on which the free function has been called. -/
def xptrArrayRemoveRange (process : PtrProcess P) (array : RealPtrArray P) (index length : Nat) :
    Except Stop (RealPtrArray P × List (Option P)) :=
  if array.proper = false then .ok (array, [])
  else if array.len < index then .ok (array, [])
  else if array.len < wrapUint (index + length) then .ok (array, [])
  else do
    let freed ← array.freeSlots index (wrapUint (index + length))
    let array ← array.doIf (wrapUint (index + length) ≠ array.len)
      (array.moveSlots index (wrapUint (index + length)) (subUint array.len (wrapUint (index + length))))
    let array := { array with len := subUint array.len length }
    let array ← array.doIf (process.gcFriendly = true) (array.clearSlots array.len length)
    .ok (array, freed)

/-- The loop with the copy function, or the `memcpy` without one. -/
def extendSlots (extended : RealPtrArray P) (array : Option (RealPtrArray P)) (count : Nat)
    (func : Option (Nat → Option P → Option P)) : Except Stop (RealPtrArray P) :=
  match func with
  | some func =>
    (List.range count).foldlM (fun extended i => do
      let pointer ← (array.getD extended).getSlot i
      extended.setSlot (wrapUint (i + extended.len)) (func i pointer)) extended
  | none =>
    if (array.getD extended).inside 0 count then extended.copySlots extended.len (array.getD extended).slotAt count
    else .error .outside

/-- The array that pointers are taken from is `none` where it is the one that is extended;
`func` is given which call it is. -/
def xptrArrayExtend (process : PtrProcess P) (arrayToExtend : RealPtrArray P) (array : Option (RealPtrArray P))
    (func : Option (Nat → Option P → Option P)) : Except Stop (RealPtrArray P) := do
  let count := (array.getD arrayToExtend).len
  let extended ← xptrArrayMaybeExpand process arrayToExtend count
  let extended ← extendSlots extended array count func
  .ok { extended with len := wrapUint (extended.len + count) }

end Operations

/-! What arrays of pointers hold after pointers have been added. -/

variable {P : Type}

namespace RealPtrArray
variable {allowed : Stop → Prop}

/-- The sizes on which every operation relies. -/
structure Bounded (array : RealPtrArray P) : Prop where
  len_le : array.len ≤ array.alloc
  alloc_lt : array.alloc < 2 ^ 32
  allocated : sizeofPointer * array.alloc ≤ (array.pdata.map PtrBlock.size).getD 0

/-- The slots `[first, first + count)` have been taken from `source`, and nothing else has changed. -/
structure Written (array : RealPtrArray P) (first count : Nat) (source : Nat → Option P) (after : RealPtrArray P) : Prop where
  len : after.len = array.len
  alloc : after.alloc = array.alloc
  elementFreeFunc : after.elementFreeFunc = array.elementFreeFunc
  sizes : after.pdata.map PtrBlock.size = array.pdata.map PtrBlock.size
  slots : ∀ i, after.slotAt i = if first ≤ i ∧ i < first + count then source (i - first) else array.slotAt i

variable {array after : RealPtrArray P} {first count : Nat} {source : Nat → Option P}

theorem Bounded.written (bounded : array.Bounded) (written : Written array first count source after) : after.Bounded where
  len_le := by rw [written.len, written.alloc]; exact bounded.len_le
  alloc_lt := by rw [written.alloc]; exact bounded.alloc_lt
  allocated := by rw [written.alloc, written.sizes]; exact bounded.allocated

theorem Bounded.inside (bounded : array.Bounded) (fits : first + count ≤ array.alloc) : array.inside first count = true := by
  have allocated := bounded.allocated
  unfold RealPtrArray.inside
  rw [Bool.or_eq_true, decide_eq_true_iff]
  rcases Nat.eq_zero_or_pos count with zero | positive
  · exact Or.inl zero
  · refine Or.inr ?_
    cases held : array.pdata with
    | none =>
      rw [held, Option.map_none, Option.getD_none] at allocated
      unfold sizeofPointer at allocated
      omega
    | some block =>
      rw [held, Option.map_some, Option.getD_some] at allocated
      exact decide_eq_true (Nat.le_trans (Nat.mul_le_mul_left _ fits) allocated)

theorem overwrite_nothing (array : RealPtrArray P) (first : Nat) (source : Nat → Option P) :
    array.overwrite first 0 source = array := by
  have empty : ∀ p, ¬(first ≤ p ∧ p < first + 0) := fun p => by omega
  unfold overwrite
  simp only [if_neg (empty _), Option.map_id']

theorem overwrite_written (inside : array.inside first count = true) :
    Written array first count source (array.overwrite first count source) := by
  rcases Nat.eq_zero_or_pos count with rfl | positive
  · rw [overwrite_nothing]
    exact ⟨rfl, rfl, rfl, rfl, fun i => (if_neg (by omega)).symm⟩
  · cases held : array.pdata with
    | none => simp [RealPtrArray.inside, held, Nat.ne_of_gt positive] at inside
    | some block =>
      refine ⟨rfl, rfl, rfl, ?_, fun i => ?_⟩
      · simp [overwrite, held]
      · simp [slotAt, overwrite, held]

theorem copySlots_written (inside : array.inside first count = true) :
    Meets allowed (Written array first count source) (array.copySlots first source count) := by
  rw [copySlots, if_pos inside]
  exact overwrite_written inside

theorem moveSlots_written {target : Nat} (from_inside : array.inside first count = true)
    (to_inside : array.inside target count = true) :
    Meets allowed (Written array target count fun k => array.slotAt (first + k)) (array.moveSlots target first count) := by
  rw [moveSlots, if_pos from_inside]
  exact copySlots_written to_inside

theorem written_nothing (array : RealPtrArray P) (first : Nat) (source : Nat → Option P) : Written array first 0 source array :=
  ⟨rfl, rfl, rfl, rfl, fun i => (if_neg (by omega)).symm⟩

/-- One slot more. -/
theorem Written.succ {now : RealPtrArray P} (before : Written array first count source now)
    (one : Written now (first + count) 1 (fun _ => source count) after) : Written array first (count + 1) source after := by
  refine ⟨one.len.trans before.len, one.alloc.trans before.alloc, one.elementFreeFunc.trans before.elementFreeFunc,
    one.sizes.trans before.sizes, fun i => ?_⟩
  rw [one.slots, before.slots]
  by_cases last : i = first + count
  · subst last
    rw [if_pos (by omega), if_pos (by omega), Nat.add_sub_cancel_left]
  · rw [if_neg (by omega)]
    by_cases inner : first ≤ i ∧ i < first + count
    · rw [if_pos inner, if_pos (by omega)]
    · rw [if_neg inner, if_neg (by omega)]

/-- A loop that writes one slot after the other. -/
theorem foldlM_written {body : RealPtrArray P → Nat → Except Stop (RealPtrArray P)}
    (turn : ∀ i < count, ∀ now, Written array first i source now →
      Meets allowed (Written now (first + i) 1 fun _ => source i) (body now i)) :
    Meets allowed (Written array first count source) ((List.range count).foldlM body array) := by
  induction count with
  | zero => exact written_nothing array first source
  | succ count ih =>
    rw [List.range_succ, List.foldlM_append]
    refine (ih fun i below now => turn i (Nat.lt_succ_of_lt below) now).bind fun now written => ?_
    refine (turn count (Nat.lt_succ_self count) now written).bind fun next one => ?_
    exact written.succ one

theorem clearSlots_written (bounded : array.Bounded) (fits : first + count ≤ array.alloc) :
    Meets allowed (Written array first count fun _ => none) (array.clearSlots first count) := by
  refine foldlM_written fun i below now written => ?_
  have small := bounded.alloc_lt
  rw [wrapUint, Nat.mod_eq_of_lt (by omega)]
  exact copySlots_written ((bounded.written written).inside (by rw [written.alloc]; omega))

end RealPtrArray

open RealPtrArray

/-- What is known after room for `count` more pointers has been made. -/
structure PtrExpanded (array : RealPtrArray P) (count : Nat) (after : RealPtrArray P) : Prop where
  bounded : after.Bounded
  len : after.len = array.len
  elementFreeFunc : after.elementFreeFunc = array.elementFreeFunc
  capacity : array.len + count ≤ after.alloc
  slots : ∀ i < array.len, after.slotAt i = array.slotAt i
  block : array.alloc < after.alloc →
    ∃ block, after.pdata = some block ∧ sizeofPointer * after.alloc ≤ block.size ∧ block.size < 2 ^ 64

/-- Writing behind the old slots leaves what is known. -/
theorem PtrExpanded.written {array after final : RealPtrArray P} {count first width : Nat} {source : Nat → Option P}
    (expanded : PtrExpanded array count after) (written : Written after first width source final) (behind : array.len ≤ first) :
    PtrExpanded array count final where
  bounded := expanded.bounded.written written
  len := written.len.trans expanded.len
  elementFreeFunc := written.elementFreeFunc.trans expanded.elementFreeFunc
  capacity := written.alloc ▸ expanded.capacity
  slots i below := by
    rw [written.slots, if_neg (fun inside => absurd inside.1 (by omega))]
    exact expanded.slots i below
  block grown := by
    rw [written.alloc] at grown
    obtain ⟨block, held, bytes, small⟩ := expanded.block grown
    obtain ⟨final, held, sizes⟩ := Option.map_eq_some_iff.mp (written.sizes.trans (congrArg _ held))
    refine ⟨final, held, ?_, sizes ▸ small⟩
    rw [written.alloc, sizes]
    exact bytes

section Adding

variable {array : RealPtrArray P} {process : PtrProcess P} {count : Nat}

theorem gReallocSlots_kept (bounded : array.Bounded) (size : Nat) :
    Safe (fun block : PtrBlock P => block.size = size ∧ ∀ i < array.alloc, block.slot i = array.slotAt i)
      (gReallocSlots process array.pdata size) := by
  refine Meets.ite (fun _ => ⟨rfl, fun i below => ?_⟩) fun _ => rfl
  have allocated := bounded.allocated
  cases held : array.pdata with
  | none =>
    rw [held, Option.map_none, Option.getD_none] at allocated
    unfold sizeofPointer at allocated
    omega
  | some block =>
    rw [held, Option.map_some, Option.getD_some] at allocated
    rw [slotAt, held]
    exact if_pos (Nat.le_trans (Nat.mul_le_mul_left _ below) allocated)

theorem xptrArrayMaybeExpand_room (bounded : array.Bounded) :
    Safe (PtrExpanded array count) (xptrArrayMaybeExpand process array count) := by
  have len_le := bounded.len_le
  have alloc_lt := bounded.alloc_lt
  have largest : ptrMaxLen = 2 ^ 32 - 1 := by decide
  refine Meets.ite (fun _ => rfl) fun fits => ?_
  rw [largest, subUint_of_le (by omega) (by omega)] at fits
  have want : wrapUint (array.len + count) = array.len + count := Nat.mod_eq_of_lt (by omega)
  rw [want]
  refine Meets.ite (fun grow => ?_) fun stay => ?_
  · refine ((gNearestPow_le _).and (gNearestPow_lt _)).bind fun nearest ⟨least, small⟩ => ?_
    refine (gReallocSlots_kept bounded _).bind fun block ⟨size, kept⟩ => ?_
    have slots : array.len + count ≤ max nearest minArraySize / sizeofPointer := by
      unfold sizeofPointer at least ⊢
      omega
    have expanded : PtrExpanded array count
        { array with pdata := some block, alloc := min (max nearest minArraySize / sizeofPointer) gMaxuint } := by
      have capacity : array.len + count ≤ min (max nearest minArraySize / sizeofPointer) gMaxuint := by
        unfold gMaxuint
        omega
      have bytes : sizeofPointer * min (max nearest minArraySize / sizeofPointer) gMaxuint ≤ block.size := by
        rw [size]
        exact Nat.le_trans (Nat.mul_le_mul_left _ (Nat.min_le_left _ _)) (Nat.mul_div_le _ _)
      refine ⟨⟨Nat.le_trans (Nat.le_add_right _ _) capacity, ?_, bytes⟩, rfl, rfl, capacity, fun i below => kept i (by omega), fun _ => ⟨block, rfl, bytes, ?_⟩⟩
      · show min _ gMaxuint < 2 ^ 32
        unfold gMaxuint
        omega
      · unfold minArraySize at size
        omega
    refine Meets.ite (fun _ => ?_) fun _ => expanded
    refine (clearSlots_written expanded.bounded ?_).mono fun after written => expanded.written written ?_
    · exact Nat.le_of_eq (Nat.add_sub_of_le (Nat.le_trans (Nat.le_of_lt grow) expanded.capacity))
    · exact len_le
  · exact ⟨bounded, rfl, rfl, by omega, fun i _ => rfl, fun grown => absurd grown (Nat.lt_irrefl _)⟩

theorem length_pointers (array : RealPtrArray P) : array.pointers.length = array.len := by simp [pointers]

theorem getElem_pointers {i : Nat} (below : i < array.pointers.length) : array.pointers[i] = array.slotAt i := by
  simp [pointers]

theorem pointers_append {after : RealPtrArray P} {first second : List (Option P)}
    (length : after.len = first.length + second.length) (before : ∀ i (below : i < first.length), after.slotAt i = first[i])
    (behind : ∀ i (below : i < second.length), after.slotAt (first.length + i) = second[i]) :
    after.pointers = first ++ second := by
  refine List.ext_getElem (by rw [length_pointers, List.length_append, length]) fun i below _ => ?_
  rw [length_pointers, length] at below
  rw [getElem_pointers]
  by_cases front : i < first.length
  · rw [List.getElem_append_left front, before i front]
  · rw [List.getElem_append_right (Nat.le_of_not_lt front), ← behind (i - first.length) (by omega)]
    congr 1
    omega

theorem PtrExpanded.resized {after : RealPtrArray P} (expanded : PtrExpanded array count after) {length : Nat}
    (total : length = array.len + count) : ({ after with len := length } : RealPtrArray P).Bounded :=
  { expanded.bounded with len_le := total ▸ expanded.capacity }

/-- The pointers as the copy function of `xptr_array_extend` gives them. -/
def copiedPointers (func : Option (Nat → Option P → Option P)) (pointers : List (Option P)) : List (Option P) :=
  func.elim pointers pointers.mapIdx

@[simp] theorem length_copiedPointers (func : Option (Nat → Option P → Option P)) (pointers : List (Option P)) :
    (copiedPointers func pointers).length = pointers.length := by
  cases func with
  | none => rfl
  | some func => exact List.length_mapIdx

variable {other : Option (RealPtrArray P)}

theorem taken_inside {now : RealPtrArray P} (boundedOther : ∀ o, other = some o → o.Bounded)
    (bounded : now.Bounded) (kept : now.len = array.len) {first width : Nat} (le : first + width ≤ (other.getD array).len) :
    (other.getD now).inside first width = true := by
  cases other with
  | none =>
    have len_le := bounded.len_le
    rw [Option.getD_none] at le
    exact bounded.inside (by omega)
  | some o => exact (boundedOther o rfl).inside (Nat.le_trans le (boundedOther o rfl).len_le)

/-- What the copying writes behind the old pointers. -/
theorem extendSlots_written {extended : RealPtrArray P} (expanded : PtrExpanded array count extended)
    (boundedOther : ∀ o, other = some o → o.Bounded) (same : (other.getD array).len = count)
    (func : Option (Nat → Option P → Option P)) :
    Safe (Written extended array.len count fun i =>
        func.elim ((other.getD array).slotAt i) fun func => func i ((other.getD array).slotAt i))
      (extendSlots extended other count func) := by
  have capacity := expanded.capacity
  have small := expanded.bounded.alloc_lt
  have old := expanded.len
  -- the slots that are read lie before those that are written
  have slots : ∀ now : RealPtrArray P, (∀ i < array.len, now.slotAt i = array.slotAt i) →
      ∀ i < count, (other.getD now).slotAt i = (other.getD array).slotAt i := by
    intro now kept i below
    cases other with
    | none => exact kept i (by rw [← same] at below; exact below)
    | some o => rfl
  have before : ∀ i < array.len, extended.slotAt i = array.slotAt i := fun i below => expanded.slots i (by omega)
  cases func with
  | none =>
    have inside := taken_inside boundedOther expanded.bounded old (by omega : 0 + count ≤ (other.getD array).len)
    rw [extendSlots, if_pos inside, old]
    refine (copySlots_written (expanded.bounded.inside (by omega))).mono fun final written => ?_
    refine { written with slots := fun i => ?_ }
    rw [written.slots]
    by_cases new : array.len ≤ i ∧ i < array.len + count
    · rw [if_pos new, if_pos new]
      exact slots extended before _ (by omega)
    · rw [if_neg new, if_neg new]
  | some func =>
    refine foldlM_written fun i below now written => ?_
    have inside := taken_inside boundedOther (expanded.bounded.written written) (written.len.trans old)
      (by omega : i + 1 ≤ (other.getD array).len)
    rw [getSlot, if_pos inside]
    have kept : ∀ i < array.len, now.slotAt i = array.slotAt i := by
      intro j inner
      rw [written.slots, if_neg (by omega)]
      exact before j inner
    have position : wrapUint (i + now.len) = array.len + i := by
      rw [written.len, old, Nat.add_comm]
      exact Nat.mod_eq_of_lt (by omega)
    rw [position, slots now kept i below]
    exact copySlots_written ((expanded.bounded.written written).inside (by rw [written.alloc]; omega))

theorem xptrArrayExtend_pointers (bounded : array.Bounded)
    (boundedOther : ∀ o, other = some o → o.Bounded) (func : Option (Nat → Option P → Option P)) :
    Safe (fun after => after.Bounded ∧ after.pointers = array.pointers ++ copiedPointers func (other.getD array).pointers)
      (xptrArrayExtend process array other func) := by
  refine (xptrArrayMaybeExpand_room bounded).bind fun extended expanded => ?_
  have capacity := expanded.capacity
  have small := expanded.bounded.alloc_lt
  refine (extendSlots_written expanded boundedOther rfl func).bind fun final written => ?_
  have length : wrapUint (final.len + (other.getD array).len) = array.len + (other.getD array).len := by
    rw [written.len, expanded.len]
    exact Nat.mod_eq_of_lt (by omega)
  refine ⟨(expanded.written written (Nat.le_refl _)).resized length, ?_⟩
  refine pointers_append (by simpa [length_pointers] using length) (fun i below => ?_) fun i below => ?_
  · rw [length_pointers] at below
    rw [getElem_pointers]
    show final.slotAt i = _
    rw [written.slots, if_neg (by omega), expanded.slots i (by omega)]
  · rw [length_copiedPointers, length_pointers] at below
    rw [length_pointers]
    show final.slotAt (array.len + i) = _
    rw [written.slots, if_pos (by omega), Nat.add_sub_cancel_left]
    cases func with
    | none => exact (getElem_pointers _).symm
    | some func => simp [copiedPointers, getElem_pointers]

end Adding

section Growth

variable {array : RealArray} {process : Process} {ptrArray : RealPtrArray P} {ptrProcess : PtrProcess P} {count index : Nat}

/-- Room is made in exact integers or the program ends, and the elements added are the ones given. An insertion of no
elements leaves the array as it is, even beyond its end. -/
theorem arrays_grow (sound : array.Sound) (bounded : ptrArray.Bounded) {other : Option (RealPtrArray P)}
    (boundedOther : ∀ o, other = some o → o.Bounded) (data : Nat → UInt8) (func : Option (Nat → Option P → Option P)) :
    Safe (fun after => Expanded array count after ∧ Preserved array after) (gArrayMaybeExpand process array count) ∧
    Safe (PtrExpanded ptrArray count) (xptrArrayMaybeExpand ptrProcess ptrArray count) ∧
    Safe (fun after => after.Sound ∧ after.elements = array.elements ++ chunks array.eltSize data count)
      (gArrayAppendVals process array data count) ∧
    Safe (fun after => after.Sound ∧ after.elements = chunks array.eltSize data count ++ array.elements)
      (gArrayPrependVals process array data count) ∧
    (index < array.len →
      Safe (fun after => after.Sound ∧ after.elements =
          array.elements.take index ++ chunks array.eltSize data count ++ array.elements.drop index)
        (gArrayInsertVals process array index data count)) ∧
    (array.len ≤ index → 0 < count →
      Safe (fun after => after.Sound ∧ ∃ padding, Padded array index padding ∧
          after.elements = array.elements ++ padding ++ chunks array.eltSize data count)
        (gArrayInsertVals process array index data count)) ∧
    gArrayInsertVals process array index data 0 = .ok array ∧
    Safe (fun after => after.Bounded ∧
        after.pointers = ptrArray.pointers ++ copiedPointers func (other.getD ptrArray).pointers)
      (xptrArrayExtend ptrProcess ptrArray other func) := by
  refine ⟨gArrayMaybeExpand_room sound.toBounded, xptrArrayMaybeExpand_room bounded, ?_, ?_, fun within => ?_,
    fun beyond some => ?_, if_pos rfl, xptrArrayExtend_pointers bounded boundedOther func⟩
  · exact (gArrayAppendVals_safe sound data count).and (gArrayAppendVals_elements sound.toBounded)
  · exact (gArrayPrependVals_safe sound data count).and (gArrayPrependVals_elements sound.toBounded)
  · exact (gArrayInsertVals_safe sound index data count).and (gArrayInsertVals_within sound.toBounded within)
  · exact (gArrayInsertVals_safe sound index data count).and (gArrayInsertVals_beyond sound.toBounded beyond some)

/-- New arrays: one with a terminator, and one of pointers that is extended by itself. -/
theorem arrays_grow_new :
    let process : Process := { gcFriendly := false, serves := fun _ => true, indeterminate := fun _ => 0 }
    let ptrProcess : PtrProcess Nat := { gcFriendly := false, serves := fun _ => true, indeterminate := fun _ => none }
    let array : RealArray :=
      { data := none, len := 0, eltCapacity := 0, eltSize := 4, zeroTerminated := true, clear := true, refCount := 1
        clearFunc := none }
    let ptrArray : RealPtrArray Nat := { pdata := none, len := 0, alloc := 0, elementFreeFunc := false }
    Safe (fun after => after.Sound ∧ after.elements = array.elements ++ chunks array.eltSize (fun p => p.toUInt8) 3)
      (gArrayAppendVals process array (fun p => p.toUInt8) 3) ∧
    Safe (fun after => after.Sound ∧ ∃ padding, Padded array 5 padding ∧
        after.elements = array.elements ++ padding ++ chunks array.eltSize (fun p => p.toUInt8) 3)
      (gArrayInsertVals process array 5 (fun p => p.toUInt8) 3) ∧
    Safe (fun after => after.Bounded ∧ after.pointers = ptrArray.pointers ++ copiedPointers none ptrArray.pointers)
      (xptrArrayExtend ptrProcess ptrArray none none) := by
  intro process ptrProcess array ptrArray
  have sound : array.Sound :=
    { size_pos := by decide
      size_lt := by decide
      len_le := Nat.le_refl _
      capacity_lt := by decide
      allocated := Nat.le_refl _
      empty := fun _ => rfl
      room := fun _ some => absurd rfl some
      limit := Nat.zero_le _
      terminated := fun _ some => absurd rfl some }
  have bounded : ptrArray.Bounded := ⟨Nat.le_refl _, by decide, Nat.le_refl _⟩
  have short : array.len ≤ 5 := Nat.zero_le 5
  clear_value array ptrArray
  obtain ⟨-, -, append, -, -, insert, -, extend⟩ := @arrays_grow Nat array process ptrArray ptrProcess 3 5 sound bounded none
    (fun o none => nomatch none) (fun p => p.toUInt8) none
  exact ⟨append, insert short (Nat.succ_pos 2), extend⟩

end Growth

end Xpl.Collections
