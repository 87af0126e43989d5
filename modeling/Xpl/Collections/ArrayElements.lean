import Xpl.Collections.ArrayDiscipline
import Xpl.Library.Memory

/-! The elements of a growable array as lists of bytes, and what the operations on its
block do to them. -/

set_option autoImplicit false

namespace Xpl.Collections
open Xpl.Library

/-- What holds if the computation goes on. -/
abbrev Yields {α : Type} (post : α → Prop) (x : Except Stop α) : Prop := Meets (fun _ => True) post x

namespace RealArray

def element (array : RealArray) (i : Nat) : List UInt8 := bytesOf array.byteAt (array.eltSize * i) array.eltSize

def elements (array : RealArray) : List (List UInt8) := chunks array.eltSize array.byteAt array.len

section Lists

variable {array : RealArray} {i : Nat}

@[simp] theorem length_elements (array : RealArray) : array.elements.length = array.len := length_chunks

@[simp] theorem getElem_elements (below : i < array.elements.length) : array.elements[i] = array.element i := by
  simp [elements, chunks, element]

end Lists

section Memory
variable {allowed : Stop → Prop}
variable {array after : RealArray} {offset size : Nat} {source : Nat → UInt8}

/-- The bytes `[offset, offset + size)` have been taken from `source`. -/
structure Written (array : RealArray) (offset size : Nat) (source : Nat → UInt8) (after : RealArray) : Prop
    extends SameShape array after where
  bytes : ∀ p, after.byteAt p = if offset ≤ p ∧ p < offset + size then source (p - offset) else array.byteAt p

theorem overwrite_written (inside : array.inside offset size = true) :
    Written array offset size source (array.overwrite offset size source) := by
  refine ⟨sameShape_overwrite _ _ _ _, fun p => ?_⟩
  rcases Nat.eq_zero_or_pos size with rfl | positive
  · rw [overwrite_nothing, if_neg (by omega)]
  · refine byteAt_overwrite fun none => ?_
    simp [RealArray.inside, none, Nat.ne_of_gt positive] at inside

theorem memcpy_written (inside : array.inside offset size = true) :
    Meets allowed (Written array offset size source) (array.memcpy offset source size) := by
  rw [memcpy, if_pos inside]
  exact overwrite_written inside

/-- What a write does where it does not say that it stays inside. -/
theorem memcpy_effect : Yields (Written array offset size source) (array.memcpy offset source size) := by
  exact Meets.ite (fun inside => overwrite_written inside) fun _ => trivial

theorem memmove_effect {target : Nat} :
    Yields (Written array target size fun k => array.byteAt (offset + k)) (array.memmove target offset size) := by
  exact Meets.ite (fun _ => memcpy_effect) fun _ => trivial

theorem memmove_written {target : Nat} (from_inside : array.inside offset size = true)
    (to_inside : array.inside target size = true) :
    Meets allowed (Written array target size fun k => array.byteAt (offset + k)) (array.memmove target offset size) := by
  rw [memmove, if_pos from_inside]
  exact memcpy_written to_inside

theorem eltZero_elements (bounded : array.Bounded) {count : Nat} (fits : array.len + count ≤ array.eltCapacity) :
    Meets allowed (fun after => after.elements = array.elements) (array.eltZero array.len count) := by
  refine (memcpy_written (inside_elements bounded fits)).mono fun after written => ?_
  rw [elements, written.len, written.eltSize]
  refine chunks_eq_iff.mpr fun p below => ?_
  have behind : ¬(array.eltLen array.len ≤ p ∧ p < array.eltLen array.len + array.eltLen count) := by
    unfold eltLen
    omega
  rw [written.bytes p, if_neg behind]

theorem zeroTerminate_elements {allowed : Stop → Prop} (bounded : array.Bounded)
    (block : array.zeroTerminated = true → array.data ≠ none) :
    Meets allowed (fun after => after.elements = array.elements) array.zeroTerminate := by
  refine Meets.ite (fun zero => ?_) fun _ => rfl
  have room := bounded.room zero (block zero)
  exact eltZero_elements bounded (by omega)

end Memory

end RealArray

end Xpl.Collections
