import Mathlib.Data.List.GetD
import Xpl.Library.Intervals
import Xpl.Library.Signed

/-! The intervals of a time zone and the two searches of gtimezone.c. Times are seconds in 64
bits, where an addition that leaves the range wraps around; intervals are counted from 0, the
one before the first transition. -/

set_option autoImplicit false

namespace Xpl.Time

open Xpl.Library

def minInt64 : Int := -2 ^ 63
def maxInt64 : Int := 2 ^ 63 - 1

def wrapInt64 (value : Int) : Int := wrapTo (2 ^ 63) value
def wrapInt32 (value : Int) : Int := wrapTo (2 ^ 31) value

structure TransitionInfo where
  gmtOffset : Int
  isDst : Bool
  deriving DecidableEq, Repr, Inhabited

structure Transition where
  time : Int
  infoIndex : Nat
  deriving DecidableEq, Repr, Inhabited

/-- A zone as its constructors build it: `transitions` is null for a constant offset, and
every index that a transition holds is one of `tInfo`. -/
structure TimeZone where
  tInfo : List TransitionInfo
  transitions : Option (List Transition)
  some_info : tInfo ≠ []
  known : ∀ transition ∈ transitions.getD [], transition.infoIndex < tInfo.length
  times : ∀ transition ∈ transitions.getD [], Fits (2 ^ 63) transition.time

inductive TimeType where
  | standard
  | daylight
  | universal
  deriving DecidableEq, Repr

/-- Reading `TRANSITION (n)`. -/
def TimeZone.transition (tz : TimeZone) (n : Nat) : Transition := (tz.transitions.getD []).getD n default

def TimeZone.transitionInfo (tz : TimeZone) (n : Nat) : TransitionInfo := tz.tInfo.getD n default

/-- The length of `transitions`, which is null or an array. -/
def TimeZone.intervals (tz : TimeZone) : Nat := (tz.transitions.getD []).length

/-- The first interval has the first standard time, if there is one. -/
def intervalInfo (tz : TimeZone) (interval : Nat) : TransitionInfo :=
  if interval ≠ 0 && tz.transitions.isSome && interval ≤ tz.intervals then
    tz.transitionInfo (tz.transition (interval - 1)).infoIndex
  else
    match tz.tInfo.find? (fun tzinfo => !tzinfo.isDst) with
    | some tzinfo => tzinfo
    | none => tz.transitionInfo 0

def intervalStart (tz : TimeZone) (interval : Nat) : Int :=
  if interval = 0 || tz.transitions.isNone || tz.intervals = 0 then minInt64
  else (tz.transition ((if interval > tz.intervals then tz.intervals else interval) - 1)).time

def intervalEnd (tz : TimeZone) (interval : Nat) : Int :=
  if tz.transitions.isSome && interval < tz.intervals then
    let lim := (tz.transition interval).time
    lim - (if lim ≠ minInt64 then 1 else 0)
  else maxInt64

def intervalOffset (tz : TimeZone) (interval : Nat) : Int := (intervalInfo tz interval).gmtOffset

def intervalIsdst (tz : TimeZone) (interval : Nat) : Bool := (intervalInfo tz interval).isDst

def intervalLocalStart (tz : TimeZone) (interval : Nat) : Int :=
  if interval ≠ 0 then wrapInt64 (intervalStart tz interval + intervalOffset tz interval) else minInt64

def intervalLocalEnd (tz : TimeZone) (interval : Nat) : Int :=
  if tz.transitions.isSome && interval < tz.intervals then
    wrapInt64 (intervalEnd tz interval + intervalOffset tz interval)
  else maxInt64

def intervalValid (tz : TimeZone) (interval : Nat) : Bool :=
  if tz.transitions.isNone then interval = 0 else interval ≤ tz.intervals

/-- The loop over the intervals, with `left` of them still to be looked at. -/
def searchIntervals (tz : TimeZone) (time : Int) : Nat → Nat → Nat
  | 0, i => i
  | left + 1, i => if time ≤ intervalEnd tz i then i else searchIntervals tz time left (i + 1)

/-- The flag of the interval is not the one that the type asks for. -/
def mismatches (intervalIsDst : Bool) (type : TimeType) : Bool :=
  (intervalIsDst && type ≠ .daylight) || (!intervalIsDst && type = .daylight)

/-- The interval and the time, which may have moved; none stands for a failed assertion. -/
def adjustTime (tz : TimeZone) (type : TimeType) (time : Int) : Option (Int × Int) :=
  if tz.transitions.isNone then some (0, time)
  else
    let intervals := tz.intervals
    let i := searchIntervals tz time (intervals + 1) 0
    if intervalStart tz i ≤ time && time ≤ intervalEnd tz i then
      if type ≠ .universal then
        if time < intervalLocalStart tz i then
          -- in the interval before, or nowhere
          if time > intervalLocalEnd tz (i - 1) then some (i, intervalLocalStart tz i)
          else some ((i : Int) - 1, time)
        else if time > intervalLocalEnd tz i then
          -- in the interval after, or nowhere
          if time < intervalLocalStart tz (i + 1) then some ((i : Int) + 1, intervalLocalStart tz (i + 1))
          else some ((i : Int) + 1, time)
        else if mismatches (intervalIsdst tz i) type then
          if i ≠ 0 && time ≤ intervalLocalEnd tz (i - 1) then some ((i : Int) - 1, time)
          else if i < intervals && time ≥ intervalLocalStart tz (i + 1) then some ((i : Int) + 1, time)
          else some (i, time)
        else some (i, time)
      else some (i, time)
    else none

def findInterval (tz : TimeZone) (type : TimeType) (time : Int) : Int :=
  if tz.transitions.isNone then 0
  else
    let intervals := tz.intervals
    let i := searchIntervals tz time (intervals + 1) 0
    if type = .universal then i
    else if time < intervalLocalStart tz i then
      if time > intervalLocalEnd tz (i - 1) then -1 else (i : Int) - 1
    else if time > intervalLocalEnd tz i then
      if time < intervalLocalStart tz (i + 1) then -1 else (i : Int) + 1
    else if mismatches (intervalIsdst tz i) type then
      if i ≠ 0 && time ≤ intervalLocalEnd tz (i - 1) then (i : Int) - 1
      else if i < intervals && time ≥ intervalLocalStart tz (i + 1) then (i : Int) + 1
      else i
    else i

/-- An interval that is none of the zone's counts as offset 0. -/
def getOffset (tz : TimeZone) (interval : Int) : Int :=
  if 0 ≤ interval && intervalValid tz interval.toNat then intervalOffset tz interval.toNat else 0

def isDst (tz : TimeZone) (interval : Int) : Bool :=
  if 0 ≤ interval && intervalValid tz interval.toNat then
    tz.transitions.isSome && intervalIsdst tz interval.toNat
  else false

/-! The intervals of a zone as a timeline, and what its interval functions and its search
compute on that timeline. -/

open Xpl.Library

variable {tz : TimeZone} {time : Int} {i : Nat}

theorem minInt64_eq : minInt64 = -9223372036854775808 := rfl

theorem maxInt64_eq : maxInt64 = 9223372036854775807 := rfl

/-- The transitions are the starts, and the offsets shift the clocks. -/
def TimeZone.line (tz : TimeZone) : Timeline :=
  { count := tz.intervals, start := fun i => (tz.transition (i - 1)).time, shift := intervalOffset tz }

def TimeZone.SmallOffsets (tz : TimeZone) : Prop := ∀ info ∈ tz.tInfo, -86400 < info.gmtOffset ∧ info.gmtOffset < 86400

@[simp] theorem line_count (tz : TimeZone) : tz.line.count = tz.intervals := rfl

@[simp] theorem line_shift (tz : TimeZone) (i : Nat) : tz.line.shift i = intervalOffset tz i := rfl

theorem isSome_of_inner (inner : i < tz.intervals) : tz.transitions.isSome = true := by
  unfold TimeZone.intervals at inner
  cases transitions : tz.transitions with
  | none =>
    rw [transitions] at inner
    exact absurd inner (Nat.not_lt_zero i)
  | some transitions => rfl

theorem transition_mem (inner : i < tz.intervals) : tz.transition i ∈ tz.transitions.getD [] := by
  unfold TimeZone.transition
  rw [List.getD_eq_getElem _ _ inner]
  exact List.getElem_mem inner

theorem start_fits (first : 0 < i) (last : i ≤ tz.intervals) : minInt64 ≤ tz.line.start i ∧ tz.line.start i ≤ maxInt64 := by
  have fits := tz.times _ (transition_mem (show i - 1 < tz.intervals by omega))
  obtain ⟨lower, upper⟩ := fits
  exact ⟨lower, Int.le_sub_one_of_lt upper⟩

theorem intervalInfo_mem (tz : TimeZone) (interval : Nat) : intervalInfo tz interval ∈ tz.tInfo := by
  have mem : ∀ {n : Nat}, n < tz.tInfo.length → tz.transitionInfo n ∈ tz.tInfo := by
    intro n inside
    unfold TimeZone.transitionInfo
    rw [List.getD_eq_getElem _ _ inside]
    exact List.getElem_mem inside
  unfold intervalInfo
  split
  · rename_i later
    simp only [ne_eq, decide_not, Bool.and_eq_true, Bool.not_eq_true', decide_eq_false_iff_not, decide_eq_true_eq] at later
    exact mem (tz.known _ (transition_mem (by omega)))
  · split
    · rename_i tzinfo found
      exact List.mem_of_find?_eq_some found
    · exact mem (List.length_pos_iff.mpr tz.some_info)

theorem shiftsBelow (offsets : tz.SmallOffsets) : tz.line.ShiftsBelow 86400 :=
  fun i _ => offsets _ (intervalInfo_mem tz i)

section Ends

theorem intervalStart_eq (first : 0 < i) (last : i ≤ tz.intervals) : intervalStart tz i = tz.line.start i := by
  have present := isSome_of_inner (show i - 1 < tz.intervals by omega)
  have none : tz.transitions.isNone = false := by rw [Option.isNone_eq_false_iff, present]
  have before : ¬i > tz.intervals := Nat.not_lt.mpr last
  unfold intervalStart
  rw [none, decide_eq_false (show ¬i = 0 by omega), decide_eq_false (show ¬tz.intervals = 0 by omega), if_neg before]
  rfl

theorem intervalEnd_inner (inner : i < tz.intervals) (above : minInt64 < tz.line.start (i + 1)) :
    intervalEnd tz i = tz.line.start (i + 1) - 1 := by
  have lim : (tz.transition i).time ≠ minInt64 := ne_of_gt above
  unfold intervalEnd
  rw [isSome_of_inner inner, decide_eq_true inner]
  dsimp only
  rw [if_pos lim]
  rfl

/-- A transition at the smallest time ends its interval at that time, not before. -/
theorem intervalEnd_lowest (inner : i < tz.intervals) (lowest : tz.line.start (i + 1) = minInt64) :
    intervalEnd tz i = minInt64 := by
  have lim : (tz.transition i).time = minInt64 := lowest
  unfold intervalEnd
  rw [isSome_of_inner inner, decide_eq_true inner]
  rw [if_pos (Bool.and_self true), lim]
  rfl

theorem intervalEnd_last (last : tz.intervals ≤ i) : intervalEnd tz i = maxInt64 := by
  unfold intervalEnd
  rw [decide_eq_false (Nat.not_lt.mpr last), Bool.and_false]
  rfl

theorem intervalEnd_lt (inner : i < tz.intervals) (started : tz.line.start (i + 1) ≤ time) (above : minInt64 < time) :
    intervalEnd tz i < time := by
  have fits := start_fits (Nat.succ_pos i) inner
  rcases Int.lt_or_eq_of_le fits.1 with later | lowest
  · rw [intervalEnd_inner inner later]
    omega
  · rw [intervalEnd_lowest inner lowest.symm]
    exact above

theorem localStart_zero (tz : TimeZone) : intervalLocalStart tz 0 = minInt64 := rfl

theorem localStart_eq (first : 0 < i) (last : i ≤ tz.intervals) :
    intervalLocalStart tz i = wrapInt64 (tz.line.start i + intervalOffset tz i) := by
  unfold intervalLocalStart
  rw [if_pos (Nat.ne_of_gt first), intervalStart_eq first last]

theorem localEnd_inner (inner : i < tz.intervals) :
    intervalLocalEnd tz i = wrapInt64 (intervalEnd tz i + intervalOffset tz i) := by
  unfold intervalLocalEnd
  rw [isSome_of_inner inner, decide_eq_true inner]
  rfl

theorem localEnd_last (last : tz.intervals ≤ i) : intervalLocalEnd tz i = maxInt64 := by
  unfold intervalLocalEnd
  rw [decide_eq_false (Nat.not_lt.mpr last), Bool.and_false]
  rfl

end Ends

section Search

theorem searchIntervals_spec (left : Nat) (last : time ≤ intervalEnd tz (i + left)) :
    ∃ found, searchIntervals tz time (left + 1) i = found ∧ found ≤ i + left ∧ time ≤ intervalEnd tz found ∧
      ∀ k, i ≤ k → k < found → intervalEnd tz k < time := by
  induction left generalizing i with
  | zero =>
    refine ⟨i, ?_, le_refl i, last, fun k lower upper => absurd upper (Nat.not_lt.mpr lower)⟩
    exact if_pos last
  | succ left ih =>
    unfold searchIntervals
    by_cases here : time ≤ intervalEnd tz i
    · exact ⟨i, if_pos here, Nat.le_add_right _ _, here, fun k lower upper => absurd upper (Nat.not_lt.mpr lower)⟩
    · have shift : i + (left + 1) = i + 1 + left := by omega
      rw [shift] at last
      obtain ⟨found, search, inside, before, after⟩ := ih last
      refine ⟨found, ?_, by omega, before, fun k lower upper => ?_⟩
      · rw [if_neg here]
        exact search
      · rcases Nat.lt_or_eq_of_le lower with later | rfl
        · exact after k later upper
        · exact Int.lt_of_not_ge here

def searched (tz : TimeZone) (time : Int) : Nat := searchIntervals tz time (tz.intervals + 1) 0

theorem searched_spec (tz : TimeZone) (upper : time ≤ maxInt64) :
    searched tz time ≤ tz.intervals ∧ time ≤ intervalEnd tz (searched tz time) ∧
      ∀ k < searched tz time, intervalEnd tz k < time := by
  have last : time ≤ intervalEnd tz (0 + tz.intervals) := by
    rw [intervalEnd_last (by omega)]
    exact upper
  obtain ⟨found, search, inside, before, after⟩ := searchIntervals_spec tz.intervals last
  unfold searched
  rw [search]
  exact ⟨by omega, before, fun k below => after k (Nat.zero_le k) below⟩

theorem searched_eq (upper : time ≤ maxInt64) (before : time ≤ intervalEnd tz i)
    (after : ∀ k < i, intervalEnd tz k < time) : searched tz time = i := by
  obtain ⟨-, before', after'⟩ := searched_spec tz upper
  rcases Nat.lt_trichotomy (searched tz time) i with less | same | more
  · have beyond := after _ less
    omega
  · exact same
  · have beyond := after' _ more
    omega

theorem searched_start (lower : minInt64 ≤ time) (upper : time ≤ maxInt64) :
    intervalStart tz (searched tz time) ≤ time := by
  obtain ⟨inside, -, after⟩ := searched_spec tz upper
  cases found : searched tz time with
  | zero => exact lower
  | succ k =>
    rw [found] at inside after
    have first : 0 < k + 1 := Nat.succ_pos k
    rw [intervalStart_eq first inside]
    have past := after k (Nat.lt_succ_self k)
    have fits := start_fits first inside
    rcases Int.lt_or_eq_of_le fits.1 with above | lowest
    · rw [intervalEnd_inner inside above] at past
      omega
    · rw [← lowest]
      exact lower

theorem searched_contains (upper : time ≤ maxInt64)
    (above : 0 < tz.intervals → minInt64 < tz.line.start 1) (spaced : tz.line.Spaced 0) :
    tz.line.Contains (searched tz time) time := by
  obtain ⟨inside, before, after⟩ := searched_spec tz upper
  have starts : ∀ k < tz.intervals, minInt64 < tz.line.start (k + 1) := by
    intro k inner
    have first := above (Nat.zero_lt_of_lt inner)
    rcases Nat.eq_zero_or_pos k with rfl | positive
    · exact first
    · have order := spaced.start_lt (le_refl 0) Nat.one_pos (show 1 < k + 1 by omega) inner
      omega
  refine ⟨inside, fun first => ?_, fun inner => ?_⟩
  · obtain ⟨k, same⟩ : ∃ k, searched tz time = k + 1 := ⟨searched tz time - 1, by omega⟩
    rw [same] at inside after ⊢
    have past := after k (Nat.lt_succ_self k)
    rw [intervalEnd_inner inside (starts k inside)] at past
    omega
  · rw [intervalEnd_inner inner (starts _ inner)] at before
    omega

end Search

end Xpl.Time
