import Mathlib.Algebra.BigOperators.Group.Finset.Basic
import Mathlib.Order.Interval.Finset.Nat
import Mathlib.Tactic.Linarith

/-! Families of half-open intervals inside `[0, size)`. -/

set_option autoImplicit false

namespace Xpl.Library

/-- Neither of two intervals enters the other. -/
def Apart (first second : Nat × Nat) : Prop := first.2 ≤ second.1 ∨ second.2 ≤ first.1

theorem Apart.symm {first second : Nat × Nat} (h : Apart first second) : Apart second first := Or.symm h

/-- The walk goes from where it is to the start, and from there to the stop. -/
structure Stretch where
  start : Nat
  stop : Nat
  kept : Bool
  deriving DecidableEq

namespace Stretch

/-- Whether a step from `a` to `b` goes forward over a point. -/
def passes (a b point : Nat) : Nat := if a ≤ point ∧ point < b then 1 else 0

/-- How often a walk from a place goes forward over the point outside of what it keeps. -/
def skips (point : Nat) : Nat → List Stretch → Nat
  | _, [] => 0
  | place, s :: walk => passes place s.start point + (if s.kept then 0 else passes s.start s.stop point) + skips point s.stop walk

def covers (point : Nat) : List Stretch → Nat
  | [] => 0
  | s :: walk => (if s.kept then passes s.start s.stop point else 0) + covers point walk

end Stretch

/-! A line of time cut into intervals, each with a clock that is shifted by an amount of
its own. What a shifted clock shows may be shown twice, or never. -/

/-- The intervals `0` to `count`; the first has no start and the last has no end. -/
structure Timeline where
  count : Nat
  start : Nat → Int
  shift : Nat → Int

namespace Timeline

variable {line : Timeline} {gap : Int} {i j : Nat} {time shown : Int}

def Contains (line : Timeline) (i : Nat) (time : Int) : Prop :=
  i ≤ line.count ∧ (0 < i → line.start i ≤ time) ∧ (i < line.count → time < line.start (i + 1))

/-- The clock of the interval shows this at some time of the interval. -/
def Shows (line : Timeline) (i : Nat) (shown : Int) : Prop := line.Contains i (shown - line.shift i)

/-- Two starts have more than a gap between them. -/
def Spaced (line : Timeline) (gap : Int) : Prop :=
  ∀ i, 0 < i → i < line.count → line.start i + gap < line.start (i + 1)

def ShiftsBelow (line : Timeline) (bound : Int) : Prop :=
  ∀ i ≤ line.count, -bound < line.shift i ∧ line.shift i < bound

theorem Spaced.weaken {smaller : Int} (spaced : line.Spaced gap) (less : smaller ≤ gap) : line.Spaced smaller := by
  intro i first last
  have apart := spaced i first last
  omega

theorem Spaced.start_lt (spaced : line.Spaced gap) (positive : 0 ≤ gap) (first : 0 < i) (before : i < j)
    (last : j ≤ line.count) : line.start i + gap < line.start j := by
  induction j with
  | zero => exact absurd before (Nat.not_lt_zero i)
  | succ j ih =>
    rcases Nat.lt_succ_iff_lt_or_eq.mp before with earlier | rfl
    · have near := ih earlier (by omega)
      have apart := spaced j (by omega) (by omega)
      omega
    · exact spaced i first (by omega)

theorem Shows.near {bound : Int} (shifts : line.ShiftsBelow bound) (shows_ : line.Shows j shown) :
    (0 < j → line.start j - bound < shown) ∧ (j < line.count → shown < line.start (j + 1) + bound) := by
  obtain ⟨inside, lower, upper⟩ := shows_
  have shift := shifts j inside
  constructor
  · intro first
    omega
  · intro last
    omega

/-- Where the starts are far apart, a clock that shows the time of some interval belongs to that interval or to a
neighbour of it. -/
theorem Shows.neighbour {bound : Int} (spaced : line.Spaced (2 * bound)) (shifts : line.ShiftsBelow bound)
    (positive : 0 ≤ bound) (contains : line.Contains i shown) (shows_ : line.Shows j shown) :
    j + 1 = i ∨ j = i ∨ j = i + 1 := by
  obtain ⟨lower, upper⟩ := shows_.near shifts
  by_contra far
  rcases Nat.lt_trichotomy j i with before | same | after
  · have order := spaced.start_lt (by omega) (show 0 < j + 1 from Nat.succ_pos j) (show j + 1 < i by omega) contains.1
    have end_ := upper (Nat.lt_of_lt_of_le before contains.1)
    have begin_ := contains.2.1 (by omega)
    omega
  · omega
  · have inside := shows_.1
    have order := spaced.start_lt (by omega) (show 0 < i + 1 from Nat.succ_pos i) (show i + 1 < j by omega) inside
    have end_ := contains.2.2 (by omega)
    omega

end Timeline

end Xpl.Library
