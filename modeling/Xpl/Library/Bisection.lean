import Mathlib.Data.List.Basic
import Mathlib.Data.Nat.Init

/-! Bisection of an interval of indices by the sign of a comparison.

Which of several equal indices is found depends on the midpoints that are passed on the
way to it. -/

set_option autoImplicit false

namespace Xpl.Library

/-- The middle of the indices from `left` to `right`. -/
def midpoint (left right : Nat) : Nat := left + (right - left) / 2

theorem left_le_midpoint (left right : Nat) : left ≤ midpoint left right := Nat.le_add_right _ _

theorem midpoint_le_right {left right : Nat} (some : left ≤ right) : midpoint left right ≤ right := by
  unfold midpoint
  omega

/-- Both ends belong to the interval; the comparison is negative before what is searched. -/
def bisect (compare : Nat → Int) (left right : Nat) : Option Nat :=
  if left ≤ right then
    if compare (midpoint left right) = 0 then some (midpoint left right)
    else if compare (midpoint left right) < 0 then bisect compare (midpoint left right + 1) right
    else if 0 < midpoint left right then bisect compare left (midpoint left right - 1)
    else none
  else none
termination_by right + 1 - left
decreasing_by
  · have := left_le_midpoint left right
    omega
  · have := midpoint_le_right ‹left ≤ right›
    omega

/-- The midpoints before the index `i` on the way to it. -/
def passed (i left right : Nat) : List Nat :=
  if left ≤ right then
    if midpoint left right < i then midpoint left right :: passed i (midpoint left right + 1) right
    else if i < midpoint left right then midpoint left right :: passed i left (midpoint left right - 1)
    else []
  else []
termination_by right + 1 - left
decreasing_by
  · have := left_le_midpoint left right
    omega
  · have := midpoint_le_right ‹left ≤ right›
    omega

/-- The comparisons on the way lead to the index, and the one there is equality. -/
structure Leads (compare : Nat → Int) (left right i : Nat) : Prop where
  before : ∀ m ∈ passed i left right, m < i → compare m < 0
  behind : ∀ m ∈ passed i left right, i < m → 0 < compare m
  equal : compare i = 0

section Finding

variable {compare : Nat → Int} {left right i : Nat}

theorem passed_ne {m : Nat} (member : m ∈ passed i left right) : m ≠ i := by
  fun_induction passed i left right with
  | case1 left right some less ih =>
    rcases List.mem_cons.mp member with rfl | member
    · exact Nat.ne_of_lt less
    · exact ih member
  | case2 left right some _ more ih =>
    rcases List.mem_cons.mp member with rfl | member
    · exact Nat.ne_of_gt more
    · exact ih member
  | case3 => nomatch member
  | case4 => nomatch member

theorem passed_bounds {m : Nat} (member : m ∈ passed i left right) : left ≤ m ∧ m ≤ right := by
  fun_induction passed i left right with
  | case1 left right some less ih =>
    have bounds := And.intro (left_le_midpoint left right) (midpoint_le_right some)
    rcases List.mem_cons.mp member with rfl | member
    · exact bounds
    · have := ih member
      omega
  | case2 left right some _ more ih =>
    have bounds := And.intro (left_le_midpoint left right) (midpoint_le_right some)
    rcases List.mem_cons.mp member with rfl | member
    · exact bounds
    · have := ih member
      omega
  | case3 => nomatch member
  | case4 => nomatch member

theorem leads_here : Leads compare left right (midpoint left right) ↔ compare (midpoint left right) = 0 := by
  have none : passed (midpoint left right) left right = [] := by
    rw [passed, if_neg (Nat.lt_irrefl _), if_neg (Nat.lt_irrefl _), ite_self]
  refine ⟨Leads.equal, fun equal => ⟨fun m member => ?_, fun m member => ?_, equal⟩⟩
  · rw [none] at member
    nomatch member
  · rw [none] at member
    nomatch member

theorem leads_right (some : left ≤ right) (less : midpoint left right < i) :
    Leads compare left right i ↔ compare (midpoint left right) < 0 ∧ Leads compare (midpoint left right + 1) right i := by
  have path : passed i left right = midpoint left right :: passed i (midpoint left right + 1) right := by
    rw [passed, if_pos some, if_pos less]
  constructor
  · rintro ⟨before, behind, equal⟩
    rw [path] at before behind
    obtain ⟨first, before⟩ := List.forall_mem_cons.mp before
    exact ⟨first less, before, (List.forall_mem_cons.mp behind).2, equal⟩
  · rintro ⟨first, before, behind, equal⟩
    refine ⟨?_, ?_, equal⟩
    · rw [path]
      exact List.forall_mem_cons.mpr ⟨fun _ => first, before⟩
    · rw [path]
      exact List.forall_mem_cons.mpr ⟨fun more => absurd more (Nat.lt_asymm less), behind⟩

theorem leads_left (some : left ≤ right) (more : i < midpoint left right) :
    Leads compare left right i ↔ 0 < compare (midpoint left right) ∧ Leads compare left (midpoint left right - 1) i := by
  have path : passed i left right = midpoint left right :: passed i left (midpoint left right - 1) := by
    rw [passed, if_pos some, if_neg (Nat.lt_asymm more), if_pos more]
  constructor
  · rintro ⟨before, behind, equal⟩
    rw [path] at before behind
    obtain ⟨first, behind⟩ := List.forall_mem_cons.mp behind
    exact ⟨first more, (List.forall_mem_cons.mp before).2, behind, equal⟩
  · rintro ⟨first, before, behind, equal⟩
    refine ⟨?_, ?_, equal⟩
    · rw [path]
      exact List.forall_mem_cons.mpr ⟨fun less => absurd less (Nat.lt_asymm more), before⟩
    · rw [path]
      exact List.forall_mem_cons.mpr ⟨fun _ => first, behind⟩

theorem bisect_eq_some_iff : bisect compare left right = some i ↔ left ≤ i ∧ i ≤ right ∧ Leads compare left right i := by
  fun_induction bisect compare left right with
  | case1 left right some equal =>
    have bounds := And.intro (left_le_midpoint left right) (midpoint_le_right some)
    constructor
    · rintro ⟨⟩
      exact ⟨bounds.1, bounds.2, leads_here.mpr equal⟩
    · rintro ⟨_, _, leads⟩
      rcases Nat.lt_trichotomy (midpoint left right) i with less | rfl | more
      · have := ((leads_right some less).mp leads).1
        omega
      · rfl
      · have := ((leads_left some more).mp leads).1
        omega
  | case2 left right some other less ih =>
    have bound := left_le_midpoint left right
    rw [ih]
    rcases Nat.lt_trichotomy (midpoint left right) i with after | rfl | before
    · rw [leads_right some after, and_iff_right less]
      exact and_congr_left fun _ => ⟨fun _ => by omega, fun _ => after⟩
    · rw [leads_here]
      exact ⟨fun found => absurd found.1 (by omega), fun found => absurd found.2.2 other⟩
    · rw [leads_left some before]
      exact ⟨fun found => absurd found.1 (by omega), fun found => absurd found.2.2.1 (by omega)⟩
  | case3 left right some other notLess positive ih =>
    have bound := midpoint_le_right some
    rw [ih]
    rcases Nat.lt_trichotomy (midpoint left right) i with after | rfl | before
    · rw [leads_right some after]
      exact ⟨fun found => absurd found.2.1 (by omega), fun found => absurd found.2.2.1 notLess⟩
    · rw [leads_here]
      exact ⟨fun found => absurd found.2.1 (by omega), fun found => absurd found.2.2 other⟩
    · rw [leads_left some before, and_iff_right (by omega : 0 < compare (midpoint left right))]
      exact and_congr_right fun _ => and_congr_left fun _ => ⟨fun _ => by omega, fun _ => by omega⟩
  | case4 left right some other notLess zero =>
    refine ⟨(fun found => nomatch found), fun ⟨low, high, leads⟩ => ?_⟩
    rcases Nat.lt_trichotomy (midpoint left right) i with after | rfl | before
    · exact absurd ((leads_right some after).mp leads).1 notLess
    · exact absurd leads.equal other
    · omega
  | case5 left right none =>
    exact ⟨(fun found => nomatch found), fun ⟨low, high, _⟩ => by omega⟩

/-- Only the comparisons inside the interval count. -/
theorem Leads.congr {other : Nat → Int} (low : left ≤ i) (high : i ≤ right)
    (same : ∀ m, left ≤ m → m ≤ right → compare m = other m) : Leads compare left right i ↔ Leads other left right i := by
  constructor
  · rintro ⟨before, behind, equal⟩
    refine ⟨fun m member => ?_, fun m member => ?_, same i low high ▸ equal⟩
    · rw [← same m (passed_bounds member).1 (passed_bounds member).2]
      exact before m member
    · rw [← same m (passed_bounds member).1 (passed_bounds member).2]
      exact behind m member
  · rintro ⟨before, behind, equal⟩
    refine ⟨fun m member => ?_, fun m member => ?_, (same i low high).trans equal⟩
    · rw [same m (passed_bounds member).1 (passed_bounds member).2]
      exact before m member
    · rw [same m (passed_bounds member).1 (passed_bounds member).2]
      exact behind m member

end Finding

section Ascending

variable {compare : Nat → Int} {n i : Nat}

/-- The signs ascend along the indices below `n`. -/
structure Ascending (compare : Nat → Int) (n : Nat) : Prop where
  negative : ∀ i j, i ≤ j → j < n → compare j < 0 → compare i < 0
  positive : ∀ i j, i ≤ j → j < n → 0 < compare i → 0 < compare j

structure FirstEqual (compare : Nat → Int) (n i : Nat) : Prop where
  below : i < n
  equal : compare i = 0
  first : ∀ j < i, compare j ≠ 0

theorem FirstEqual.unique {j : Nat} (one : FirstEqual compare n i) (other : FirstEqual compare n j) : i = j := by
  rcases Nat.lt_trichotomy i j with less | same | more
  · exact absurd one.equal (other.first i less)
  · exact same
  · exact absurd other.equal (one.first j more)

theorem exists_firstEqual (some : i < n) (equal : compare i = 0) : ∃ f, FirstEqual compare n f := by
  induction i using Nat.strongRecOn with
  | ind i ih =>
    by_cases earlier : ∃ j < i, compare j = 0
    · obtain ⟨j, before, zero⟩ := earlier
      exact ih j before (Nat.lt_trans before some) zero
    · push Not at earlier
      exact ⟨i, some, equal, earlier⟩

theorem FirstEqual.leads_iff (first : FirstEqual compare n i) (ascending : Ascending compare n) :
    Leads compare 0 (n - 1) i ↔ ∀ m ∈ passed i 0 (n - 1), compare m ≠ 0 := by
  constructor
  · intro leads m member
    rcases Nat.lt_or_gt_of_ne (passed_ne member) with less | more
    · exact Int.ne_of_lt (leads.before m member less)
    · exact Int.ne_of_gt (leads.behind m member more)
  · intro free
    refine ⟨fun m member less => ?_, fun m member more => ?_, first.equal⟩
    · by_contra notLess
      have other := free m member
      have := ascending.positive m i (Nat.le_of_lt less) first.below (by omega)
      have := first.equal
      omega
    · by_contra notMore
      have other := free m member
      have inside := (passed_bounds member).2
      have := ascending.negative i m (Nat.le_of_lt more) (by omega) (by omega)
      have := first.equal
      omega

end Ascending

end Xpl.Library
