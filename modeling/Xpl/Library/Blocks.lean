import Mathlib.Data.List.Basic

/-! Words that are consumed in blocks of a fixed size, and blocks of memory that are
written over in part. -/

set_option autoImplicit false

namespace Xpl.Library

variable {σ α : Type}

section Splice

/-- `memory` with `part` written over what stands from `offset` on. -/
def splice (memory : List α) (offset : Nat) (part : List α) : List α :=
  memory.take offset ++ part ++ memory.drop (offset + part.length)

variable {memory part : List α} {offset : Nat}

theorem length_splice (inside : offset + part.length ≤ memory.length) :
    (splice memory offset part).length = memory.length := by
  unfold splice
  simp only [List.length_append, List.length_take, List.length_drop]
  omega

theorem take_splice (inside : offset + part.length ≤ memory.length) :
    (splice memory offset part).take (offset + part.length) = memory.take offset ++ part := by
  apply List.take_left'
  simp only [List.length_append, List.length_take]
  omega

theorem splice_to_end (reaches : offset + part.length = memory.length) :
    splice memory offset part = memory.take offset ++ part := by
  have whole := take_splice (Nat.le_of_eq reaches)
  rwa [reaches, ← length_splice (Nat.le_of_eq reaches), List.take_length] at whole

/-- The first part of a run of equal symbols is written over. -/
theorem splice_replicate (front part : List α) (a : α) (count : Nat) :
    splice (front ++ List.replicate count a) front.length part = front ++ part ++ List.replicate (count - part.length) a := by
  unfold splice
  rw [List.take_left, List.drop_append, List.drop_eq_nil_of_le (Nat.le_add_right _ _), Nat.add_sub_cancel_left,
    List.drop_replicate, List.nil_append]

theorem splice_middle (front old back : List α) {new : List α} (same : new.length = old.length) :
    splice (front ++ old ++ back) front.length new = front ++ new ++ back := by
  rw [splice, same, List.append_assoc front old back, List.take_left, ← List.drop_drop, List.drop_left, List.drop_left]

theorem splice_nil (memory : List α) (offset : Nat) : splice memory offset [] = memory := by
  simp [splice]

end Splice

section Absorb

variable (compress : σ → List α → σ) (size : Nat)

/-- Consume blocks as long as there is a whole one: the state after them, and what is left. -/
def absorb (s : σ) (input : List α) : σ × List α :=
  if 0 < size ∧ size ≤ input.length then absorb (compress s (input.take size)) (input.drop size) else (s, input)
  termination_by input.length
  decreasing_by
    rw [List.length_drop]
    omega

variable {compress size} {s : σ} {block input rest : List α}

theorem absorb_short (few : input.length < size) : absorb compress size s input = (s, input) := by
  rw [absorb, if_neg (by omega)]

theorem absorb_block (positive : 0 < size) (whole : block.length = size) :
    absorb compress size s (block ++ input) = absorb compress size (compress s block) input := by
  rw [absorb, if_pos ⟨positive, by rw [List.length_append]; omega⟩, List.take_left' whole, List.drop_left' whole]

theorem absorb_one (positive : 0 < size) (whole : block.length = size) :
    absorb compress size s block = (compress s block, []) := by
  have one : absorb compress size s (block ++ []) = absorb compress size (compress s block) [] :=
    absorb_block positive whole
  have empty : absorb compress size (compress s block) [] = (compress s block, []) := absorb_short positive
  rwa [List.append_nil, empty] at one

/-- What is left over is less than a block. -/
theorem length_absorb (compress : σ → List α → σ) (positive : 0 < size) (s : σ) (input : List α) :
    (absorb compress size s input).2.length = input.length % size := by
  fun_induction absorb compress size s input with
  | case1 s input more ih =>
    rw [ih, List.length_drop]
    exact (Nat.mod_eq_sub_mod more.2).symm
  | case2 s input fewer =>
    have few : input.length < size := by omega
    exact (Nat.mod_eq_of_lt few).symm

theorem absorb_append (compress : σ → List α → σ) (size : Nat) (s : σ) (input rest : List α) :
    absorb compress size s (input ++ rest) =
      absorb compress size (absorb compress size s input).1 ((absorb compress size s input).2 ++ rest) := by
  fun_induction absorb compress size s input with
  | case1 s input more ih =>
    have split : input ++ rest = input.take size ++ (input.drop size ++ rest) := by
      rw [← List.append_assoc, List.take_append_drop]
    have whole : (input.take size).length = size := by
      rw [List.length_take]
      exact Nat.min_eq_left more.2
    rw [split, absorb_block more.1 whole, ih]
  | case2 s input fewer => rfl

end Absorb

end Xpl.Library
