import Xpl.Time.TimeZone

/-! Looking up a local time: which interval's clock shows it. Both functions of the source
make one search, which is exact as long as no start or end of an interval leaves 64 bits on
its way to local time. -/

set_option autoImplicit false

namespace Xpl.Time

open Xpl.Library

variable {tz : TimeZone} {type : TimeType} {shown : Int} {i : Nat}

def TimeType.wantsDst (type : TimeType) : Bool := type = .daylight

/-- The interval shows the time, and has the flag that is asked for if one that shows it has. -/
def Preferred (tz : TimeZone) (type : TimeType) (shown : Int) (i : Nat) : Prop :=
  tz.line.Shows i shown ∧
    ∀ k, tz.line.Shows k shown → intervalIsdst tz k = type.wantsDst → intervalIsdst tz i = type.wantsDst

/-- The time is skipped between an interval and the next one. -/
def SkippedBefore (tz : TimeZone) (shown : Int) (next : Nat) : Prop :=
  (∀ k, ¬tz.line.Shows k shown) ∧ 0 < next ∧ next ≤ tz.intervals ∧
    tz.line.start next + intervalOffset tz (next - 1) ≤ shown ∧ shown < tz.line.start next + intervalOffset tz next

def FindsLocal (tz : TimeZone) (type : TimeType) (shown : Int) : Prop :=
  (∃ i : Nat, findInterval tz type shown = i ∧ Preferred tz type shown i) ∨
    findInterval tz type shown = -1 ∧ ∀ k, ¬tz.line.Shows k shown

/-- The interval that was found and the time unchanged, or the start of the next interval. -/
def AdjustsLocal (tz : TimeZone) (type : TimeType) (shown : Int) : Prop :=
  ∃ i : Nat, ∃ time, adjustTime tz type shown = some ((i : Int), time) ∧ tz.line.Shows i time ∧
    (findInterval tz type shown ≠ -1 → findInterval tz type shown = i ∧ time = shown) ∧
    (findInterval tz type shown = -1 → SkippedBefore tz shown i ∧ time = tz.line.start i + intervalOffset tz i)

/-- No start or end of an interval leaves 64 bits when it is turned into local time. -/
def TimeZone.InRange (tz : TimeZone) : Prop :=
  ∀ i, 0 < i → i ≤ tz.intervals →
    minInt64 < tz.line.start i ∧
      Fits (2 ^ 63) (tz.line.start i + intervalOffset tz i) ∧
      Fits (2 ^ 63) (tz.line.start i - 1 + intervalOffset tz (i - 1))

section Search

/-- What both functions search for: the interval, or the one before whose start the time is skipped. -/
inductive Found where
  | inside (i : Nat)
  | skipped (next : Nat)
  deriving DecidableEq, Repr

def localSearch (tz : TimeZone) (type : TimeType) (time : Int) : Found :=
  let i := searched tz time
  if time < intervalLocalStart tz i then
    if time > intervalLocalEnd tz (i - 1) then .skipped i else .inside (i - 1)
  else if time > intervalLocalEnd tz i then
    if time < intervalLocalStart tz (i + 1) then .skipped (i + 1) else .inside (i + 1)
  else if mismatches (intervalIsdst tz i) type then
    if i ≠ 0 && time ≤ intervalLocalEnd tz (i - 1) then .inside (i - 1)
    else if i < tz.intervals && time ≥ intervalLocalStart tz (i + 1) then .inside (i + 1)
    else .inside i
  else .inside i

def Found.interval : Found → Int
  | .inside i => i
  | .skipped _ => -1

def Found.adjusted (tz : TimeZone) (time : Int) : Found → Int × Int
  | .inside i => (i, time)
  | .skipped next => (next, intervalLocalStart tz next)

theorem searchIntervals_eq (tz : TimeZone) (time : Int) :
    searchIntervals tz time (tz.intervals + 1) 0 = searched tz time := rfl

theorem searched_pos (lower : minInt64 ≤ shown) (before : shown < intervalLocalStart tz (searched tz shown)) :
    0 < searched tz shown := by
  rcases Nat.eq_zero_or_pos (searched tz shown) with zero | positive
  · rw [zero, localStart_zero] at before
    omega
  · exact positive

theorem natCast_pred {i : Nat} (positive : 0 < i) : (i : Int) - 1 = ((i - 1 : Nat) : Int) := by omega

theorem localSearch_constant (constant : tz.transitions.isNone = true) (lower : minInt64 ≤ shown)
    (upper : shown ≤ maxInt64) : localSearch tz type shown = .inside 0 := by
  have none : tz.intervals = 0 := by
    unfold TimeZone.intervals
    rw [Option.isNone_iff_eq_none.mp constant]
    rfl
  have first : searched tz shown = 0 := by
    have inside := (searched_spec tz upper).1
    omega
  unfold localSearch
  dsimp only
  rw [first, localStart_zero, localEnd_last (by omega), if_neg (by omega), if_neg (by omega)]
  simp [none]

theorem findInterval_eq (local_ : type ≠ .universal) (lower : minInt64 ≤ shown) (upper : shown ≤ maxInt64) :
    findInterval tz type shown = (localSearch tz type shown).interval := by
  unfold findInterval
  by_cases constant : tz.transitions.isNone = true
  · rw [if_pos constant, localSearch_constant constant lower upper]
    rfl
  · rw [if_neg constant]
    rw [if_neg local_, searchIntervals_eq]
    unfold localSearch
    by_cases early : shown < intervalLocalStart tz (searched tz shown)
    · have positive := searched_pos lower early
      rw [if_pos early, if_pos early, natCast_pred positive]
      split <;> rfl
    · rw [if_neg early, if_neg early]
      by_cases late : shown > intervalLocalEnd tz (searched tz shown)
      · rw [if_pos late, if_pos late]
        split <;> rfl
      · rw [if_neg late, if_neg late]
        by_cases other : mismatches (intervalIsdst tz (searched tz shown)) type = true
        · rw [if_pos other, if_pos other]
          split
          · rename_i previous
            simp only [ne_eq, decide_not, Bool.and_eq_true, Bool.not_eq_true', decide_eq_false_iff_not] at previous
            exact natCast_pred (Nat.pos_of_ne_zero previous.1)
          · split <;> rfl
        · rw [if_neg other, if_neg other]
          rfl

theorem adjustTime_eq (local_ : type ≠ .universal) (lower : minInt64 ≤ shown) (upper : shown ≤ maxInt64) :
    adjustTime tz type shown = some ((localSearch tz type shown).adjusted tz shown) := by
  unfold adjustTime
  by_cases constant : tz.transitions.isNone = true
  · rw [if_pos constant, localSearch_constant constant lower upper]
    rfl
  · have held : (intervalStart tz (searched tz shown) ≤ shown && shown ≤ intervalEnd tz (searched tz shown)) = true := by
      rw [Bool.and_eq_true, decide_eq_true_eq, decide_eq_true_eq]
      exact ⟨searched_start lower upper, (searched_spec tz upper).2.1⟩
    rw [if_neg constant]
    dsimp only
    rw [searchIntervals_eq, if_pos held, if_pos local_]
    unfold localSearch
    by_cases early : shown < intervalLocalStart tz (searched tz shown)
    · have positive := searched_pos lower early
      rw [if_pos early, if_pos early, natCast_pred positive]
      split <;> rfl
    · rw [if_neg early, if_neg early]
      by_cases late : shown > intervalLocalEnd tz (searched tz shown)
      · rw [if_pos late, if_pos late]
        split <;> rfl
      · rw [if_neg late, if_neg late]
        by_cases other : mismatches (intervalIsdst tz (searched tz shown)) type = true
        · rw [if_pos other, if_pos other]
          split
          · rename_i previous
            simp only [ne_eq, decide_not, Bool.and_eq_true, Bool.not_eq_true', decide_eq_false_iff_not] at previous
            rw [natCast_pred (Nat.pos_of_ne_zero previous.1)]
            rfl
          · split <;> rfl
        · rw [if_neg other, if_neg other]
          rfl

end Search

theorem mismatches_iff (flag : Bool) (type : TimeType) : mismatches flag type = true ↔ flag ≠ type.wantsDst := by
  cases flag <;> cases type <;> decide

theorem shows_here (contains : tz.line.Contains i shown) :
    tz.line.Shows i shown ↔
      (0 < i → tz.line.start i + intervalOffset tz i ≤ shown) ∧
        (i < tz.intervals → shown < tz.line.start (i + 1) + intervalOffset tz i) := by
  unfold Timeline.Shows Timeline.Contains
  rw [line_shift, line_count]
  constructor
  · rintro ⟨-, lower, upper⟩
    exact ⟨fun first => by have := lower first; omega, fun last => by have := upper last; omega⟩
  · rintro ⟨lower, upper⟩
    exact ⟨contains.1, fun first => by have := lower first; omega, fun last => by have := upper last; omega⟩

section Exact

variable (spaced : tz.line.Spaced 172800) (offsets : tz.SmallOffsets)
include spaced offsets

/-- The clocks on both sides of an interval cannot show the same time. -/
theorem not_shows_both {j : Nat} (apart : j + 1 < i) (one : tz.line.Shows j shown) : ¬tz.line.Shows i shown := by
  intro two
  have inside := two.1
  have shift := shiftsBelow offsets
  have upper := (one.near shift).2 (Nat.lt_of_lt_of_le (Nat.lt_of_succ_lt apart) inside)
  have lower := (two.near shift).1 (Nat.zero_lt_of_lt apart)
  have order := spaced.start_lt (i := j + 1) (by decide) (Nat.succ_pos j) apart inside
  omega

theorem shows_cases (contains : tz.line.Contains i shown) {k : Nat} (shows_ : tz.line.Shows k shown) :
    k + 1 = i ∨ k = i ∨ k = i + 1 :=
  Timeline.Shows.neighbour (show tz.line.Spaced (2 * 86400) from spaced) (shiftsBelow offsets) (by decide) contains shows_

theorem shows_before (contains : tz.line.Contains i shown) (first : 0 < i) :
    tz.line.Shows (i - 1) shown ↔ shown < tz.line.start i + intervalOffset tz (i - 1) := by
  have inside := contains.1
  have offset := shiftsBelow offsets (i - 1) (Nat.le_trans (Nat.sub_le i 1) inside)
  have begin_ := contains.2.1 first
  rw [line_count] at inside
  rw [line_shift] at offset
  unfold Timeline.Shows Timeline.Contains
  rw [line_shift, line_count, Nat.sub_add_cancel first]
  constructor
  · rintro ⟨-, -, upper⟩
    omega
  · intro early
    refine ⟨by omega, fun second => ?_, fun _ => by omega⟩
    have order := spaced (i - 1) second (by rw [line_count]; omega)
    rw [Nat.sub_add_cancel first] at order
    omega

theorem shows_after (contains : tz.line.Contains i shown) (last : i < tz.intervals) :
    tz.line.Shows (i + 1) shown ↔ tz.line.start (i + 1) + intervalOffset tz (i + 1) ≤ shown := by
  have offset := shiftsBelow offsets (i + 1) last
  have end_ := contains.2.2 last
  rw [line_shift] at offset
  unfold Timeline.Shows Timeline.Contains
  rw [line_shift, line_count]
  constructor
  · rintro ⟨-, lower, -⟩
    omega
  · intro late
    refine ⟨last, fun _ => by omega, fun more => ?_⟩
    have order := spaced (i + 1) (Nat.succ_pos i) more
    omega

/-- What was found is right: an interval that shows the time, or the start before which it is skipped. -/
def Found.Exact (tz : TimeZone) (type : TimeType) (shown : Int) : Found → Prop
  | .inside i => Preferred tz type shown i
  | .skipped next => SkippedBefore tz shown next

omit spaced offsets in
theorem localStart_exact (inRange : tz.InRange) (first : 0 < i) (last : i ≤ tz.intervals) :
    intervalLocalStart tz i = tz.line.start i + intervalOffset tz i := by
  rw [localStart_eq first last]
  exact wrapTo_of_fits (inRange i first last).2.1

omit spaced offsets in
theorem localEnd_exact (inRange : tz.InRange) (inner : i < tz.intervals) :
    intervalLocalEnd tz i = tz.line.start (i + 1) - 1 + intervalOffset tz i := by
  obtain ⟨above, -, fits⟩ := inRange (i + 1) (Nat.succ_pos i) inner
  rw [localEnd_inner inner, intervalEnd_inner inner above]
  exact wrapTo_of_fits fits

theorem early_exact (inRange : tz.InRange) (contains : tz.line.Contains i shown) (first : 0 < i)
    (early : shown < intervalLocalStart tz i) :
    (if shown > intervalLocalEnd tz (i - 1) then Found.skipped i else Found.inside (i - 1)).Exact tz type shown := by
  have inside := contains.1
  rw [line_count] at inside
  rw [localStart_exact inRange first inside] at early
  have before := shows_before spaced offsets contains first
  have notHere : ¬tz.line.Shows i shown := fun shows_ => by
    have late := ((shows_here contains).mp shows_).1 first
    omega
  have notAfter : ¬tz.line.Shows (i + 1) shown := fun shows_ => by
    have near := (shows_.near (shiftsBelow offsets)).1 (Nat.succ_pos i)
    have order := spaced i first shows_.1
    have offset := shiftsBelow offsets i inside
    rw [line_shift] at offset
    omega
  have end_ := localEnd_exact inRange (show i - 1 < tz.intervals by omega)
  rw [Nat.sub_add_cancel first] at end_
  split
  · rename_i gap
    refine ⟨fun k shows_ => ?_, first, inside, by omega, early⟩
    rcases shows_cases spaced offsets contains shows_ with previous | rfl | rfl
    · rw [← previous, Nat.add_sub_cancel] at before
      have soon := before.mp shows_
      rw [← previous, Nat.add_sub_cancel] at gap end_
      omega
    · exact notHere shows_
    · exact notAfter shows_
  · refine ⟨before.mpr (by omega), fun k shows_ flag => ?_⟩
    rcases shows_cases spaced offsets contains shows_ with previous | rfl | rfl
    · rw [← previous, Nat.add_sub_cancel]
      exact flag
    · exact absurd shows_ notHere
    · exact absurd shows_ notAfter

theorem late_exact (inRange : tz.InRange) (contains : tz.line.Contains i shown) (last : i < tz.intervals)
    (late : shown > intervalLocalEnd tz i) :
    (if shown < intervalLocalStart tz (i + 1) then Found.skipped (i + 1) else Found.inside (i + 1)).Exact tz type shown := by
  rw [localEnd_exact inRange last] at late
  have after := shows_after spaced offsets contains last
  have notHere : ¬tz.line.Shows i shown := fun shows_ => by
    have early := ((shows_here contains).mp shows_).2 last
    omega
  have notBefore : ∀ k, k + 1 = i → ¬tz.line.Shows k shown := fun k previous shows_ => by
    have near := (shows_.near (shiftsBelow offsets)).2 (show k < tz.line.count by rw [line_count]; omega)
    have order := spaced i (by omega) last
    have offset := shiftsBelow offsets i contains.1
    rw [line_shift] at offset
    rw [previous] at near
    omega
  have begin_ := localStart_exact inRange (Nat.succ_pos i) last
  rw [begin_]
  split
  · rename_i gap
    refine ⟨fun k shows_ => ?_, Nat.succ_pos i, last, ?_, gap⟩
    · rcases shows_cases spaced offsets contains shows_ with previous | rfl | rfl
      · exact notBefore k previous shows_
      · exact notHere shows_
      · have soon := after.mp shows_
        exact absurd soon (Int.not_le.mpr gap)
    · rw [Nat.add_sub_cancel]
      omega
  · rename_i reached
    refine ⟨after.mpr (Int.not_lt.mp reached), fun k shows_ flag => ?_⟩
    rcases shows_cases spaced offsets contains shows_ with previous | rfl | rfl
    · exact absurd shows_ (notBefore k previous)
    · exact absurd shows_ notHere
    · exact flag

theorem here_exact (inRange : tz.InRange) (contains : tz.line.Contains i shown) (here : tz.line.Shows i shown) :
    (if mismatches (intervalIsdst tz i) type then
      if i ≠ 0 && shown ≤ intervalLocalEnd tz (i - 1) then Found.inside (i - 1)
      else if i < tz.intervals && shown ≥ intervalLocalStart tz (i + 1) then Found.inside (i + 1)
      else Found.inside i
    else Found.inside i).Exact tz type shown := by
  have inside := contains.1
  rw [line_count] at inside
  have before : (i ≠ 0 && shown ≤ intervalLocalEnd tz (i - 1)) = true ↔ 0 < i ∧ tz.line.Shows (i - 1) shown := by
    rw [Bool.and_eq_true, decide_eq_true_eq, decide_eq_true_eq, Nat.pos_iff_ne_zero]
    refine and_congr_right fun positive => ?_
    have first := Nat.pos_of_ne_zero positive
    have end_ := localEnd_exact inRange (show i - 1 < tz.intervals by omega)
    rw [Nat.sub_add_cancel first] at end_
    rw [end_, shows_before spaced offsets contains first]
    omega
  have after : (i < tz.intervals && shown ≥ intervalLocalStart tz (i + 1)) = true ↔
      i < tz.intervals ∧ tz.line.Shows (i + 1) shown := by
    rw [Bool.and_eq_true, decide_eq_true_eq, decide_eq_true_eq]
    refine and_congr_right fun last => ?_
    rw [localStart_exact inRange (Nat.succ_pos i) last, shows_after spaced offsets contains last]
  by_cases other : mismatches (intervalIsdst tz i) type = true
  · have unwanted := (mismatches_iff _ _).mp other
    rw [if_pos other]
    split
    · rename_i earlier
      obtain ⟨first, shows_⟩ := before.mp earlier
      refine ⟨shows_, fun k showsK flag => ?_⟩
      rcases shows_cases spaced offsets contains showsK with previous | rfl | rfl
      · rw [← previous, Nat.add_sub_cancel]
        exact flag
      · exact absurd flag unwanted
      · exact absurd showsK (not_shows_both spaced offsets (by omega) shows_)
    · rename_i notEarlier
      split
      · rename_i later
        obtain ⟨last, shows_⟩ := after.mp later
        refine ⟨shows_, fun k showsK flag => ?_⟩
        rcases shows_cases spaced offsets contains showsK with previous | rfl | rfl
        · exact absurd shows_ (not_shows_both spaced offsets (by omega) showsK)
        · exact absurd flag unwanted
        · exact flag
      · rename_i notLater
        refine ⟨here, fun k showsK flag => ?_⟩
        rcases shows_cases spaced offsets contains showsK with previous | rfl | rfl
        · refine absurd (before.mpr ⟨by omega, ?_⟩) notEarlier
          rw [← previous, Nat.add_sub_cancel]
          exact showsK
        · exact flag
        · exact absurd (after.mpr ⟨showsK.1, showsK⟩) notLater
  · rw [if_neg other]
    refine ⟨here, fun _ _ _ => ?_⟩
    by_contra unwanted
    exact other ((mismatches_iff _ _).mpr unwanted)

theorem localSearch_exact (inRange : tz.InRange) (lower : minInt64 ≤ shown) (upper : shown ≤ maxInt64) :
    (localSearch tz type shown).Exact tz type shown := by
  have contains : tz.line.Contains (searched tz shown) shown :=
    searched_contains upper (fun some_ => (inRange 1 Nat.one_pos some_).1) (spaced.weaken (by decide))
  have first : shown < intervalLocalStart tz (searched tz shown) → 0 < searched tz shown := searched_pos lower
  have inside := contains.1
  unfold localSearch
  generalize searched tz shown = i at *
  by_cases early : shown < intervalLocalStart tz i
  · rw [if_pos early]
    exact early_exact spaced offsets inRange contains (first early) early
  · rw [if_neg early]
    by_cases late : shown > intervalLocalEnd tz i
    · have last : i < tz.intervals := by
        by_contra final
        rw [localEnd_last (Nat.not_lt.mp final)] at late
        omega
      rw [if_pos late]
      exact late_exact spaced offsets inRange contains last late
    · rw [if_neg late]
      refine here_exact spaced offsets inRange contains ((shows_here contains).mpr ⟨fun first => ?_, fun last => ?_⟩)
      · rw [localStart_exact inRange first inside] at early
        omega
      · rw [localEnd_exact inRange last] at late
        omega

end Exact

section Overflow

/-- Every local time in 64 bits is found as it should be. -/
def FindsAll (tz : TimeZone) : Prop :=
  ∀ type shown, type ≠ .universal → minInt64 ≤ shown → shown ≤ maxInt64 → FindsLocal tz type shown

theorem FindsAll.inside (finds : FindsAll tz) (local_ : type ≠ .universal) (lower : minInt64 ≤ shown)
    (upper : shown ≤ maxInt64) (search : localSearch tz type shown = .inside i) : tz.line.Shows i shown := by
  have found : findInterval tz type shown = (localSearch tz type shown).interval := findInterval_eq local_ lower upper
  rw [search] at found
  change findInterval tz type shown = (i : Int) at found
  rcases finds type shown local_ lower upper with ⟨j, same, shows_, -⟩ | ⟨none, -⟩
  · rw [found] at same
    rwa [Int.ofNat_inj.mp same]
  · omega

theorem FindsAll.skipped (finds : FindsAll tz) (local_ : type ≠ .universal) (lower : minInt64 ≤ shown)
    (upper : shown ≤ maxInt64) (search : localSearch tz type shown = .skipped i) : ∀ k, ¬tz.line.Shows k shown := by
  have found : findInterval tz type shown = (localSearch tz type shown).interval := findInterval_eq local_ lower upper
  rw [search] at found
  change findInterval tz type shown = -1 at found
  rcases finds type shown local_ lower upper with ⟨j, same, -⟩ | ⟨-, none⟩
  · omega
  · exact none

theorem exists_type (flag : Bool) : ∃ type, type ≠ TimeType.universal ∧ mismatches flag type = false := by
  cases flag with
  | false => exact ⟨.standard, by decide, rfl⟩
  | true => exact ⟨.daylight, by decide, rfl⟩

theorem exists_other (flag : Bool) : ∃ type, type ≠ TimeType.universal ∧ mismatches flag type = true := by
  cases flag with
  | false => exact ⟨.daylight, by decide, rfl⟩
  | true => exact ⟨.standard, by decide, rfl⟩

theorem wrapInt64_above {value : Int} (large : maxInt64 < value) (near : value ≤ maxInt64 + 86400) :
    wrapInt64 value = value - 2 ^ 64 := by
  have high := maxInt64_eq
  have wrapped : wrapTo (2 ^ 63) value = value - 2 * 2 ^ 63 := wrapTo_of_above (by omega) (by omega)
  exact wrapped

theorem wrapInt64_below {value : Int} (small : value < minInt64) (near : minInt64 - 86400 ≤ value) :
    wrapInt64 value = value + 2 ^ 64 := by
  have low := minInt64_eq
  have wrapped : wrapTo (2 ^ 63) value = value + 2 * 2 ^ 63 := wrapTo_of_below (by omega) (by omega)
  exact wrapped

theorem wrapInt64_inside {value : Int} (lower : minInt64 ≤ value) (upper : value ≤ maxInt64) : wrapInt64 value = value :=
  wrapTo_of_fits ⟨lower, Int.lt_of_le_sub_one upper⟩

variable (finds : FindsAll tz) (spaced : tz.line.Spaced 172800) (offsets : tz.SmallOffsets)

theorem offset_small (offsets : tz.SmallOffsets) (i : Nat) : -86400 < intervalOffset tz i ∧ intervalOffset tz i < 86400 :=
  offsets _ (intervalInfo_mem tz i)

include finds offsets

/-- At the largest time the search is in the last interval and does not see that its local start lies beyond. -/
theorem last_start_le (some_ : 0 < tz.intervals) :
    tz.line.start tz.intervals + intervalOffset tz tz.intervals ≤ maxInt64 := by
  by_contra beyond
  have beyond := Int.not_le.mp beyond
  have fits := start_fits some_ (le_refl tz.intervals)
  have offset := offset_small offsets tz.intervals
  have low := minInt64_eq
  have high := maxInt64_eq
  have found : searched tz maxInt64 = tz.intervals := by
    refine searched_eq (le_refl maxInt64) (by rw [intervalEnd_last (le_refl _)]) fun k inner => ?_
    refine intervalEnd_lt inner (start_fits (Nat.succ_pos k) inner).2 (by omega)
  have wrapped := wrapInt64_above beyond (by omega)
  obtain ⟨type, local_, same⟩ := exists_type (intervalIsdst tz tz.intervals)
  have search : localSearch tz type maxInt64 = .inside tz.intervals := by
    unfold localSearch
    dsimp only
    rw [found, localStart_eq some_ (le_refl _), wrapped, localEnd_last (le_refl _), if_neg (by omega), if_neg (by omega),
      same, if_neg Bool.false_ne_true]
  have shows_ := finds.inside local_ (by omega) (le_refl _) search
  have begin_ := shows_.2.1 some_
  rw [line_shift] at begin_
  omega

include spaced

/-- Just before the last interval's clock begins, the search compares with an end that has wrapped. -/
theorem last_end_le (some_ : 0 < tz.intervals) :
    tz.line.start tz.intervals - 1 + intervalOffset tz (tz.intervals - 1) ≤ maxInt64 := by
  by_contra beyond
  have beyond := Int.not_le.mp beyond
  have begin_ := last_start_le finds offsets some_
  have fits := start_fits some_ (le_refl tz.intervals)
  have offset := offset_small offsets tz.intervals
  have offset' := offset_small offsets (tz.intervals - 1)
  have low := minInt64_eq
  have high := maxInt64_eq
  obtain ⟨n, count⟩ : ∃ n, tz.intervals = n + 1 := ⟨tz.intervals - 1, by omega⟩
  have inner : n < tz.intervals := by omega
  rw [count] at beyond begin_ fits offset offset'
  rw [Nat.add_sub_cancel] at beyond offset'
  -- the last second before the clock begins, which the interval before still shows
  obtain ⟨shown, same⟩ : ∃ shown, shown = tz.line.start (n + 1) + intervalOffset tz (n + 1) - 1 := ⟨_, rfl⟩
  have end_ : intervalLocalEnd tz n = tz.line.start (n + 1) - 1 + intervalOffset tz n - 2 ^ 64 := by
    rw [localEnd_inner inner, intervalEnd_inner inner (by omega)]
    exact wrapInt64_above beyond (by omega)
  have start_ : intervalLocalStart tz (n + 1) = tz.line.start (n + 1) + intervalOffset tz (n + 1) := by
    rw [localStart_eq (show 0 < n + 1 from Nat.succ_pos n) inner]
    exact wrapInt64_inside (by omega) begin_
  have before : 0 < n → tz.line.start n + 172800 < tz.line.start (n + 1) := fun first => spaced n first inner
  have ended : ∀ k < n, intervalEnd tz k < shown := by
    intro k earlier
    have order := spaced.start_lt (i := k + 1) (by decide) (Nat.succ_pos k) (show k + 1 < n + 1 by omega)
      (show n + 1 ≤ tz.line.count by rw [line_count]; omega)
    exact intervalEnd_lt (by omega) (by omega) (by omega)
  have search : localSearch tz .standard shown = .skipped (n + 1) := by
    unfold localSearch
    dsimp only
    by_cases started : tz.line.start (n + 1) ≤ shown
    · have found : searched tz shown = n + 1 := by
        refine searched_eq (by omega) (by rw [intervalEnd_last (by omega)]; omega) fun k earlier => ?_
        rcases Nat.lt_succ_iff_lt_or_eq.mp earlier with less | rfl
        · exact ended k less
        · exact intervalEnd_lt inner started (by omega)
      rw [found, start_, if_pos (by omega), Nat.add_sub_cancel, end_, if_pos (by omega)]
    · have found : searched tz shown = n := by
        refine searched_eq (by omega) ?_ ended
        rw [intervalEnd_inner inner (by omega)]
        omega
      have later : ¬shown < intervalLocalStart tz n := by
        rcases Nat.eq_zero_or_pos n with rfl | first
        · rw [localStart_zero]
          omega
        · have apart := before first
          have fits' := start_fits first (Nat.le_of_lt inner)
          rw [localStart_eq first (Nat.le_of_lt inner), wrapInt64_inside (by omega) (by omega)]
          omega
      rw [found, if_neg later, end_, if_pos (by omega), start_, if_pos (by omega)]
  refine finds.skipped (by decide) (by omega) (by omega) search n ⟨Nat.le_of_lt inner, fun first => ?_, fun _ => ?_⟩
  · have apart := before first
    rw [line_shift]
    omega
  · rw [line_shift]
    omega

omit spaced offsets in
theorem first_inside {end_ : Int} (local_ : type ≠ .universal) (matched : mismatches (intervalIsdst tz 0) type = false)
    (before : minInt64 ≤ intervalEnd tz 0) (last : intervalLocalEnd tz 0 = end_) (later : minInt64 ≤ end_) :
    tz.line.Shows 0 minInt64 := by
  have low := minInt64_eq
  have high := maxInt64_eq
  have found : searched tz minInt64 = 0 :=
    searched_eq (by omega) before fun k earlier => absurd earlier (Nat.not_lt_zero k)
  refine finds.inside local_ (le_refl _) (by omega) ?_
  unfold localSearch
  dsimp only
  rw [found, localStart_zero, last, if_neg (lt_irrefl _), if_neg (by omega), matched, if_neg Bool.false_ne_true]

/-- A transition at the smallest time leaves no time before it, though the source gives the first interval one. -/
theorem first_above (some_ : 0 < tz.intervals) : minInt64 < tz.line.start 1 := by
  by_contra lowest
  have fits := start_fits Nat.one_pos some_
  have lowest : tz.line.start 1 = minInt64 := le_antisymm (Int.not_lt.mp lowest) fits.1
  have end_ : intervalEnd tz 0 = minInt64 := intervalEnd_lowest some_ lowest
  have offset := offset_small offsets 0
  have offset' := offset_small offsets 1
  have low := minInt64_eq
  have high := maxInt64_eq
  have notShown : ¬tz.line.Shows 0 (minInt64 + max (intervalOffset tz 0) 0) := by
    rintro ⟨-, -, upper⟩
    have upper := upper some_
    rw [line_shift, zero_add, lowest] at upper
    omega
  rcases Int.lt_or_le 0 (intervalOffset tz 0) with positive | nonpositive
  · rw [max_eq_left (le_of_lt positive)] at notShown
    obtain ⟨shown, same⟩ : ∃ shown, shown = minInt64 + intervalOffset tz 0 := ⟨_, rfl⟩
    have second : 1 < tz.intervals → minInt64 + 172800 < tz.line.start (1 + 1) := fun more => by
      have apart := spaced 1 Nat.one_pos more
      rw [lowest] at apart
      exact apart
    have localEnd : intervalLocalEnd tz 0 = shown := by
      rw [localEnd_inner some_, end_, same]
      exact wrapInt64_inside (by omega) (by omega)
    have within : shown ≤ intervalEnd tz 1 ∧ shown ≤ intervalLocalEnd tz 1 := by
      rcases Nat.lt_or_ge 1 tz.intervals with more | last
      · have later := second more
        have inner : intervalEnd tz 1 = tz.line.start (1 + 1) - 1 := intervalEnd_inner more (by omega)
        have upper : tz.line.start (1 + 1) - 1 + intervalOffset tz 1 ≤ maxInt64 := by
          rcases Nat.lt_or_ge 2 tz.intervals with third | final
          · have apart := spaced (1 + 1) (by decide) third
            have fits' := start_fits (show 0 < 1 + 1 + 1 by decide) third
            omega
          · have two : tz.intervals = 1 + 1 := by omega
            have bound := last_end_le finds spaced offsets some_
            rw [two] at bound
            exact bound
        rw [localEnd_inner more, inner, wrapInt64_inside (by omega) upper]
        omega
      · rw [intervalEnd_last last, localEnd_last last]
        omega
    have found : searched tz shown = 1 := by
      refine searched_eq (by omega) within.1 fun k earlier => ?_
      obtain rfl : k = 0 := by omega
      omega
    obtain ⟨type, local_, other⟩ := exists_other (intervalIsdst tz 1)
    have search : localSearch tz type shown = .inside 0 := by
      unfold localSearch
      rw [found]
      by_cases early : shown < intervalLocalStart tz 1
      · rw [if_pos early, Nat.sub_self, localEnd, if_neg (lt_irrefl _)]
      · rw [if_neg early, if_neg (by omega), other, if_pos rfl, Nat.sub_self, localEnd,
          if_pos (by rw [Bool.and_eq_true, decide_eq_true_eq, decide_eq_true_eq]; exact ⟨Nat.one_ne_zero, le_refl _⟩)]
    exact notShown (same ▸ finds.inside local_ (by omega) (by omega) search)
  · rw [max_eq_right nonpositive, add_zero] at notShown
    have localEnd : minInt64 ≤ intervalLocalEnd tz 0 := by
      rw [localEnd_inner some_, end_]
      rcases Int.lt_or_eq_of_le nonpositive with negative | zero
      · rw [wrapInt64_below (by omega) (by omega)]
        omega
      · rw [wrapInt64_inside (by omega) (by omega)]
        omega
    obtain ⟨type, local_, matched⟩ := exists_type (intervalIsdst tz 0)
    exact notShown (first_inside finds local_ matched (by omega) rfl localEnd)

theorem first_end_ge (some_ : 0 < tz.intervals) : minInt64 ≤ tz.line.start 1 - 1 + intervalOffset tz 0 := by
  by_contra below
  have below := Int.not_le.mp below
  have above := first_above finds spaced offsets some_
  have offset := offset_small offsets 0
  have end_ : intervalEnd tz 0 = tz.line.start 1 - 1 := intervalEnd_inner some_ above
  have localEnd : minInt64 ≤ intervalLocalEnd tz 0 := by
    rw [localEnd_inner some_, end_, wrapInt64_below below (by omega)]
    omega
  obtain ⟨type, local_, matched⟩ := exists_type (intervalIsdst tz 0)
  have shows_ := first_inside finds local_ matched (by omega) rfl localEnd
  have upper := shows_.2.2 some_
  rw [line_shift, zero_add] at upper
  omega

/-- The second interval's clock, whose start has wrapped, is not found when only it shows the time. -/
theorem first_start_ge (some_ : 0 < tz.intervals) : minInt64 ≤ tz.line.start 1 + intervalOffset tz 1 := by
  by_contra below
  have below := Int.not_le.mp below
  have above := first_above finds spaced offsets some_
  have fits := first_end_ge finds spaced offsets some_
  have offset := offset_small offsets 0
  have offset' := offset_small offsets 1
  have low := minInt64_eq
  have high := maxInt64_eq
  have second : 1 < tz.intervals → tz.line.start 1 + 172800 < tz.line.start (1 + 1) := fun more => spaced 1 Nat.one_pos more
  obtain ⟨shown, same⟩ : ∃ shown, shown = tz.line.start 1 + max (intervalOffset tz 0) 0 := ⟨_, rfl⟩
  have end_ : intervalEnd tz 0 = tz.line.start 1 - 1 := intervalEnd_inner some_ above
  have localStart : intervalLocalStart tz 1 = tz.line.start 1 + intervalOffset tz 1 + 2 ^ 64 := by
    rw [localStart_eq Nat.one_pos some_]
    exact wrapInt64_below below (by omega)
  have localEnd : intervalLocalEnd tz 0 = tz.line.start 1 - 1 + intervalOffset tz 0 := by
    rw [localEnd_inner some_, end_]
    exact wrapInt64_inside fits (by omega)
  have found : searched tz shown = 1 := by
    refine searched_eq (by omega) ?_ fun k earlier => ?_
    · rcases Nat.lt_or_ge 1 tz.intervals with more | last
      · have later := second more
        have inner : intervalEnd tz 1 = tz.line.start (1 + 1) - 1 := intervalEnd_inner more (by omega)
        omega
      · rw [intervalEnd_last last]
        omega
    · obtain rfl : k = 0 := by omega
      omega
  have search : localSearch tz .standard shown = .skipped 1 := by
    unfold localSearch
    dsimp only
    rw [found, localStart, if_pos (by omega), Nat.sub_self, localEnd, if_pos (by omega)]
  refine finds.skipped (by decide) (by omega) (by omega) search 1 ⟨some_, fun _ => ?_, fun more => ?_⟩
  · rw [line_shift]
    omega
  · have later := second more
    rw [line_shift]
    omega

theorem inRange_of_findsAll : tz.InRange := by
  intro i first last
  have some_ := Nat.lt_of_lt_of_le first last
  have above := first_above finds spaced offsets some_
  have firstStart := first_start_ge finds spaced offsets some_
  have firstEnd := first_end_ge finds spaced offsets some_
  have lastStart := last_start_le finds offsets some_
  have lastEnd := last_end_le finds spaced offsets some_
  have offset := offset_small offsets i
  have offset' := offset_small offsets (i - 1)
  have low := minInt64_eq
  have high := maxInt64_eq
  have earlier : i = 1 ∨ tz.line.start 1 + 172800 < tz.line.start i := by
    rcases Nat.lt_or_eq_of_le (show 1 ≤ i from first) with more | rfl
    · exact Or.inr (spaced.start_lt (by decide) Nat.one_pos more last)
    · exact Or.inl rfl
  have later : i = tz.intervals ∨ tz.line.start i + 172800 < tz.line.start tz.intervals := by
    rcases Nat.lt_or_eq_of_le last with more | rfl
    · exact Or.inr (spaced.start_lt (by decide) first more (le_refl _))
    · exact Or.inl rfl
  have fits' := start_fits some_ (le_refl tz.intervals)
  have fits'' := start_fits Nat.one_pos some_
  refine ⟨?_, ⟨?_, ?_⟩, ⟨?_, ?_⟩⟩
  · rcases earlier with rfl | order
    · exact above
    · omega
  · rcases earlier with rfl | order
    · exact firstStart
    · omega
  · rcases later with rfl | order
    · omega
    · omega
  · rcases earlier with rfl | order
    · exact firstEnd
    · omega
  · rcases later with rfl | order
    · omega
    · omega

end Overflow

/-- Local times are looked up as documented, by both functions, exactly in the zones none of whose transitions leaves 64
bits when it is turned into local time. -/
theorem localLookup_iff (tz : TimeZone) (spaced : tz.line.Spaced 172800) (offsets : tz.SmallOffsets) :
    (∀ type shown, type ≠ .universal → minInt64 ≤ shown → shown ≤ maxInt64 →
      FindsLocal tz type shown ∧ AdjustsLocal tz type shown) ↔ tz.InRange := by
  constructor
  · intro looked
    exact inRange_of_findsAll (fun type shown local_ lower upper => (looked type shown local_ lower upper).1) spaced offsets
  · intro inRange type shown local_ lower upper
    have found : findInterval tz type shown = (localSearch tz type shown).interval := findInterval_eq local_ lower upper
    have adjusted : adjustTime tz type shown = some ((localSearch tz type shown).adjusted tz shown) :=
      adjustTime_eq local_ lower upper
    have exact_ : (localSearch tz type shown).Exact tz type shown := localSearch_exact spaced offsets inRange lower upper
    cases search : localSearch tz type shown with
    | inside i =>
      rw [search] at found adjusted exact_
      change findInterval tz type shown = (i : Int) at found
      refine ⟨Or.inl ⟨i, found, exact_⟩, i, shown, adjusted, exact_.1, fun _ => ⟨found, rfl⟩, fun none => ?_⟩
      omega
    | skipped next =>
      rw [search] at found adjusted exact_
      obtain ⟨none, first, last, late, early⟩ := exact_
      refine ⟨Or.inr ⟨found, none⟩, next, intervalLocalStart tz next, adjusted, ?_, fun some_ => absurd found some_,
        fun _ => ⟨⟨none, first, last, late, early⟩, localStart_exact inRange first last⟩⟩
      rw [localStart_exact inRange first last]
      refine ⟨last, fun _ => ?_, fun more => ?_⟩
      · rw [line_shift]
        omega
      · have order := spaced next first more
        rw [line_shift]
        omega

def toronto : TimeZone where
  tInfo := [{ gmtOffset := -18000, isDst := false }, { gmtOffset := -14400, isDst := true }]
  transitions := some [{ time := 1268550000, infoIndex := 1 }, { time := 1289109600, infoIndex := 0 }]
  some_info := List.cons_ne_nil _ _
  known := by decide
  times := by decide

theorem localLookup_iff_toronto :
    FindsLocal toronto .standard 1268535600 ∧ AdjustsLocal toronto .standard 1268535600 := by
  refine (localLookup_iff toronto ?_ (by unfold TimeZone.SmallOffsets; decide)).mpr ?_ .standard 1268535600 (by decide) (by decide) (by decide)
  · intro i first last
    obtain rfl : i = 1 := by
      have count : toronto.line.count = 2 := rfl
      omega
    decide
  · intro i first last
    have count : toronto.intervals = 2 := rfl
    obtain rfl | rfl : i = 1 ∨ i = 2 := by omega
    · decide
    · decide

/-- A zone that goes one hour forward ten seconds before the largest time. -/
def latest : TimeZone where
  tInfo := [{ gmtOffset := 0, isDst := false }, { gmtOffset := 3600, isDst := true }]
  transitions := some [{ time := maxInt64 - 10, infoIndex := 1 }]
  some_info := List.cons_ne_nil _ _
  known := by decide
  times := by decide

theorem localLookup_wraps :
    latest.line.Spaced 172800 ∧ latest.SmallOffsets ∧ findInterval latest .daylight maxInt64 = 1 ∧
      ¬latest.line.Shows 1 maxInt64 ∧ ¬FindsLocal latest .daylight maxInt64 := by
  have found : findInterval latest .daylight maxInt64 = 1 := by decide
  have notShown : ¬latest.line.Shows 1 maxInt64 := by
    rintro ⟨-, lower, -⟩
    exact absurd (lower Nat.one_pos) (by decide)
  refine ⟨?_, by unfold TimeZone.SmallOffsets; decide, found, notShown, ?_⟩
  · intro i first last
    have count : latest.line.count = 1 := rfl
    omega
  · rintro (⟨i, same, shows_, -⟩ | ⟨none, -⟩)
    · rw [found] at same
      obtain rfl : i = 1 := by omega
      exact notShown shows_
    · rw [found] at none
      exact absurd none (by decide)

end Xpl.Time
