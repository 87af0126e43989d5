import Mathlib.Order.Basic

/-! A window of fixed size, and the position in it. -/

set_option autoImplicit false

namespace Xpl.Library

variable {α : Type} {size : Nat}

structure Window (α : Type) (size : Nat) where
  byte : Nat → α
  position : Nat
  inside : position ≤ size

namespace Window

def room (window : Window α size) : Nat := size - window.position

/-- Write what there is room for; everything else stays. -/
def write (window : Window α size) (part : List α) : Window α size where
  byte := fun p => if window.position ≤ p then ((part.take window.room)[p - window.position]?).getD (window.byte p) else window.byte p
  position := window.position + min part.length window.room
  inside := Nat.add_le_of_le_sub' window.inside (Nat.min_le_right _ _)

def seekTo (window : Window α size) (position : Nat) (inside : position ≤ size) : Window α size :=
  { window with position, inside }

end Window

/-! A file that reads as zero wherever nothing was written, and the position in it. -/

variable {α : Type} [Zero α]

/-- The symbols from `size` on are zero, so that what is cut off never comes back. -/
structure SparseFile (α : Type) [Zero α] where
  size : Nat
  byte : Nat → α
  position : Nat
  zero : ∀ p, size ≤ p → byte p = 0

namespace SparseFile

def empty : SparseFile α := { size := 0, byte := fun _ => 0, position := 0, zero := fun _ _ => rfl }

def write (file : SparseFile α) (part : List α) : SparseFile α :=
  if part = [] then file
  else
    { size := max file.size (file.position + part.length)
      byte := fun p => if file.position ≤ p then (part[p - file.position]?).getD (file.byte p) else file.byte p
      position := file.position + part.length
      zero := fun p beyond => by
        have past : part.length ≤ p - file.position := by
          have below := Nat.le_trans (Nat.le_max_right file.size _) beyond
          exact Nat.le_sub_of_add_le (Nat.add_comm _ _ ▸ below)
        have cut := file.zero p (Nat.le_trans (Nat.le_max_left _ _) beyond)
        simp [List.getElem?_eq_none past, cut] }

section

variable {file : SparseFile α} {part : List α} (given : part ≠ [])
include given

theorem size_write : (file.write part).size = max file.size (file.position + part.length) := by
  unfold write
  rw [if_neg given]

theorem position_write : (file.write part).position = file.position + part.length := by
  unfold write
  rw [if_neg given]

theorem byte_write (p : Nat) :
    (file.write part).byte p = if file.position ≤ p then (part[p - file.position]?).getD (file.byte p) else file.byte p := by
  unfold write
  rw [if_neg given]

end

def seekTo (file : SparseFile α) (position : Nat) : SparseFile α := { file with position }

/-- Cut the file off at `size`, or let it read as zero up to there. -/
def truncate (file : SparseFile α) (size : Nat) : SparseFile α :=
  { size
    byte := fun p => if p < size then file.byte p else 0
    position := file.position
    zero := fun _ beyond => if_neg (Nat.not_lt.mpr beyond) }

end SparseFile

end Xpl.Library
