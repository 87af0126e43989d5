import Mathlib.Logic.Function.Basic

/-! Arrays in memory: an access outside of the array has no result. -/

set_option autoImplicit false

namespace Xpl.Library

variable {α : Type}

structure Cells (α : Type) where
  length : Nat
  cell : Nat → α

namespace Cells

def filled (length : Nat) (value : α) : Cells α := { length := length, cell := fun _ => value }

def read (cells : Cells α) (i : Nat) : Option α := if i < cells.length then some (cells.cell i) else none

def write (cells : Cells α) (i : Nat) (value : α) : Option (Cells α) :=
  if i < cells.length then some { cells with cell := Function.update cells.cell i value } else none

/-- The array in a block of another length; cells it did not have before hold `fill`. -/
def resize (cells : Cells α) (length : Nat) (fill : α) : Cells α :=
  { length := length, cell := fun i => if i < cells.length then cells.cell i else fill }

variable {cells : Cells α} {i : Nat}

theorem read_eq (inside : i < cells.length) : cells.read i = some (cells.cell i) := if_pos inside

theorem write_eq (inside : i < cells.length) (value : α) :
    cells.write i value = some { cells with cell := Function.update cells.cell i value } := if_pos inside

theorem resize_cell (inside : i < cells.length) (length : Nat) (fill : α) :
    (cells.resize length fill).cell i = cells.cell i := if_pos inside

end Cells

/-! Records at addresses. An access to an address without a record has no result; an address
is handed out once. -/

variable {α : Type}

structure Store (α : Type) where
  cell : Nat → Option α
  next : Nat

namespace Store

def empty : Store α := { cell := fun _ => none, next := 0 }

/-- The record behind a pointer; there is none behind `NULL`. -/
def deref (store : Store α) (p : Option Nat) : Option α := p.bind store.cell

def set (store : Store α) (p : Nat) (record : α) : Store α :=
  { store with cell := Function.update store.cell p (some record) }

/-- An assignment to the fields of the record at an address. -/
def modify (store : Store α) (p : Nat) (f : α → α) : Option (Store α) :=
  (store.cell p).map fun record => store.set p (f record)

/-- An assignment under the condition that the pointer is not `NULL`. -/
def modifyIf (store : Store α) (p : Option Nat) (f : α → α) : Option (Store α) :=
  p.elim (some store) fun p => store.modify p f

def alloc (store : Store α) (record : α) : Nat × Store α :=
  (store.next, { cell := Function.update store.cell store.next (some record), next := store.next + 1 })

def erase (store : Store α) (p : Nat) : Store α := { store with cell := Function.update store.cell p none }

def free (store : Store α) (p : Nat) : Option (Store α) := (store.cell p).map fun _ => store.erase p

/-- The assignment, where there is a record to assign to. -/
def adjust (store : Store α) (p : Option Nat) (f : α → α) : Store α :=
  { store with cell := fun q => if p = some q then (store.cell q).map f else store.cell q }

/-- Addresses that have not been handed out hold nothing. -/
def Fresh (store : Store α) : Prop := ∀ p, store.next ≤ p → store.cell p = none

section Cells

variable (store : Store α) (p q : Nat) (record : α) (f : α → α)

@[simp] theorem set_next : (store.set p record).next = store.next := rfl

@[simp] theorem erase_next : (store.erase p).next = store.next := rfl

@[simp] theorem adjust_next (pointer : Option Nat) : (store.adjust pointer f).next = store.next := rfl

@[simp] theorem alloc_fst : (store.alloc record).1 = store.next := rfl

@[simp] theorem alloc_next : (store.alloc record).2.next = store.next + 1 := rfl

@[simp] theorem cell_set : (store.set p record).cell q = if q = p then some record else store.cell q :=
  Function.update_apply store.cell p (some record) q

@[simp] theorem cell_erase : (store.erase p).cell q = if q = p then none else store.cell q :=
  Function.update_apply store.cell p none q

@[simp] theorem cell_alloc : (store.alloc record).2.cell q = if q = store.next then some record else store.cell q :=
  Function.update_apply store.cell store.next (some record) q

@[simp] theorem cell_adjust (pointer : Option Nat) :
    (store.adjust pointer f).cell q = if pointer = some q then (store.cell q).map f else store.cell q := rfl

@[simp] theorem adjust_none : store.adjust none f = store := rfl

variable {store p q record}

theorem cell_set_ne (other : q ≠ p) : (store.set p record).cell q = store.cell q := by rw [cell_set, if_neg other]

theorem cell_erase_ne (other : q ≠ p) : (store.erase p).cell q = store.cell q := by rw [cell_erase, if_neg other]

theorem cell_adjust_ne {pointer : Option Nat} (other : pointer ≠ some q) :
    (store.adjust pointer f).cell q = store.cell q := by
  rw [cell_adjust, if_neg other]

theorem cell_adjust_self (here : store.cell p = some record) :
    (store.adjust (some p) f).cell p = some (f record) := by
  rw [cell_adjust, if_pos rfl, here, Option.map_some]

theorem modify_eq (here : store.cell p = some record) : store.modify p f = some (store.adjust (some p) f) := by
  rw [modify, here, Option.map_some, set, adjust]
  congr 2
  funext q
  by_cases same : q = p
  · subst same
    rw [Function.update_self, if_pos rfl, here, Option.map_some]
  · rw [Function.update_of_ne same, if_neg fun h => same (Option.some.inj h).symm]

theorem modifyIf_eq {pointer : Option Nat} (here : ∀ p, pointer = some p → store.cell p ≠ none) :
    store.modifyIf pointer f = some (store.adjust pointer f) := by
  cases pointer with
  | none => rfl
  | some p =>
    obtain ⟨record, found⟩ := Option.ne_none_iff_exists'.mp (here p rfl)
    exact modify_eq f found

theorem free_eq (here : store.cell p ≠ none) : store.free p = some (store.erase p) := by
  obtain ⟨record, found⟩ := Option.ne_none_iff_exists'.mp here
  rw [free, found, Option.map_some]

theorem Fresh.lt (fresh : store.Fresh) (here : store.cell p ≠ none) : p < store.next := by
  by_contra above
  exact here (fresh p (Nat.le_of_not_lt above))

theorem Fresh.alloc (fresh : store.Fresh) (record : α) : (store.alloc record).2.Fresh := by
  intro p above
  rw [alloc_next] at above
  rw [cell_alloc, if_neg (by omega)]
  exact fresh p (by omega)

theorem Fresh.set (fresh : store.Fresh) (here : p < store.next) : (store.set p record).Fresh := by
  intro q above
  rw [set_next] at above
  rw [cell_set_ne (by omega)]
  exact fresh q above

theorem Fresh.adjust (fresh : store.Fresh) (pointer : Option Nat) : (store.adjust pointer f).Fresh := by
  intro p above
  rw [cell_adjust, fresh p above]
  exact ite_self _

theorem Fresh.erase (fresh : store.Fresh) (p : Nat) : (store.erase p).Fresh := by
  intro q above
  rw [cell_erase, fresh q above]
  exact ite_self _

end Cells

end Store

end Xpl.Library
