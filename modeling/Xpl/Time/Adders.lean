import Xpl.Library.Partial
import Xpl.Time.DateTimeDays
import Xpl.Time.Instants

/-! Adding to a date and time in UTC. A result is exact as long as no product of the arguments
wraps around, and as long as it is checked. -/

set_option autoImplicit false

namespace Xpl.Time.DateTime

open Xpl.Library

variable {dt : GDateTime} {amount value : Int}

structure GDateTime.InUtc (dt : GDateTime) : Prop extends dt.InCalendar where
  zone : dt.tz = utc
  first_interval : dt.interval = 0

/-- A local time from 0001-01-01 to 9999-12-31. -/
def InYears (local_ : Int) : Prop := 86400000000 ≤ local_ ∧ local_ < 3652060 * 86400000000

instance (local_ : Int) : Decidable (InYears local_) := inferInstanceAs (Decidable (_ ∧ _))

def utcAt (local_ : Int) : GDateTime :=
  { usec := local_ % 86400000000, tz := utc, interval := 0, days := local_ / 86400000000 }

/-- The value at a local time, or none outside of the years. -/
def exactly (local_ : Int) : Option GDateTime := if InYears local_ then some (utcAt local_) else none

/-- The result is NULL where the exact one is outside of the years, and else differs from `dt` by the amount. -/
def AddsExactly (dt : GDateTime) (amount : Int) : Option GDateTime → Prop
  | none => ¬InYears (dt.local_ + amount)
  | some new => InYears (dt.local_ + amount) ∧ new.InUtc ∧ difference new dt = amount

theorem exactly_inside (inYears : InYears value) : exactly value = some (utcAt value) := if_pos inYears

theorem exactly_outside (outside : ¬InYears value) : exactly value = none := if_neg outside

theorem utcAt_local (local_ : Int) : (utcAt local_).local_ = local_ := by
  unfold utcAt GDateTime.local_ usecPerDay
  dsimp only
  omega

theorem utcAt_inUtc (inYears : InYears value) : (utcAt value).InUtc := by
  obtain ⟨lower, upper⟩ := inYears
  refine ⟨⟨?_, ?_, ?_, ?_, utc_smallOffsets⟩, rfl, rfl⟩ <;> dsimp only [utcAt, usecPerDay] <;> omega

theorem GDateTime.InUtc.inYears (inUtc : dt.InUtc) : InYears dt.local_ := by
  obtain ⟨⟨first, last, nonneg, inDay, -⟩, -, -⟩ := inUtc
  unfold InYears GDateTime.local_ usecPerDay at *
  omega

theorem GDateTime.InUtc.eq_utcAt (inUtc : dt.InUtc) : dt = utcAt dt.local_ := by
  obtain ⟨⟨-, -, nonneg, inDay, -⟩, zone, interval⟩ := inUtc
  obtain ⟨usec, tz, i, days⟩ := dt
  dsimp only at zone interval nonneg inDay
  unfold utcAt GDateTime.local_ usecPerDay at *
  dsimp only
  congr 1 <;> omega

theorem getOffset_utc (interval : Int) : getOffset utc interval = 0 := by
  have constant : ∀ i, intervalOffset utc i = 0 := by
    intro i
    unfold intervalOffset intervalInfo
    rw [if_neg (by simp [utc])]
    rfl
  unfold getOffset
  split
  · exact constant _
  · rfl

theorem toInstant_utc (inUtc : dt.InUtc) : toInstant dt = dt.local_ := by
  rw [(toInstant_eq inUtc.toInCalendar).1, inUtc.zone, getOffset_utc, Int.zero_mul, Int.sub_zero]

theorem difference_utc {a b : GDateTime} (first : a.InUtc) (second : b.InUtc) : difference a b = a.local_ - b.local_ := by
  rw [difference_eq first.toInCalendar second.toInCalendar, toInstant_utc first, toInstant_utc second]

theorem addsExactly_iff (inUtc : dt.InUtc) {result : Option GDateTime} :
    AddsExactly dt amount result ↔ result = exactly (dt.local_ + amount) := by
  by_cases inYears : InYears (dt.local_ + amount)
  · rw [exactly_inside inYears]
    cases result with
    | none => exact ⟨fun outside => absurd inYears outside, fun made => absurd made (by simp)⟩
    | some new =>
      constructor
      · rintro ⟨-, inUtc', same⟩
        rw [difference_utc inUtc' inUtc] at same
        rw [inUtc'.eq_utcAt]
        congr 2
        omega
      · intro made
        obtain rfl := Option.some.inj made
        refine ⟨inYears, utcAt_inUtc inYears, ?_⟩
        rw [difference_utc (utcAt_inUtc inYears) inUtc, utcAt_local]
        omega
  · rw [exactly_outside inYears]
    cases result with
    | none => exact ⟨fun _ => rfl, fun _ => inYears⟩
    | some new => exact ⟨fun made => absurd made.1 inYears, fun made => absurd made (by simp)⟩

theorem fromInstant_utc (instant : Int) : fromInstant utc instant = exactly instant := by
  have offset : offsetAt utc instant = 0 := getOffset_utc _
  have bounds : Representable utc instant ↔ InYears instant := by
    unfold Representable InYears
    omega
  rw [fromInstant_eq utc_smallOffsets]
  simp only [bounds, offset, Int.zero_mul, Int.add_zero]
  rfl

theorem add_exact (inUtc : dt.InUtc) {timespan : Int} (fits : Fits (2 ^ 63) timespan) :
    add dt timespan = exactly (dt.local_ + timespan) := by
  have inYears := inUtc.inYears
  obtain ⟨lower, upper⟩ := fits
  unfold add
  rw [inUtc.zone, toInstant_utc inUtc, fromInstant_utc, wrapInt64_eq]
  unfold InYears at inYears
  by_cases plain : timespan + dt.local_ < 9223372036854775808
  · congr 1
    omega
  · -- beyond 64 bits: the sum wraps to a negative number, and both are out of the years
    rw [exactly_outside (by unfold InYears; omega), exactly_outside (by unfold InYears; omega)]

theorem addHours_exact (inUtc : dt.InUtc) {hours : Int} (fits : Fits (2 ^ 31) hours) :
    addHours dt hours = exactly (dt.local_ + hours * 3600000000) := by
  obtain ⟨lower, upper⟩ := fits
  have same : wrapInt64 (hours * usecPerHour) = hours * 3600000000 := by
    unfold usecPerHour
    rw [wrapInt64_eq]
    omega
  unfold addHours
  rw [same]
  exact add_exact inUtc ⟨by omega, by omega⟩

theorem addMinutes_exact (inUtc : dt.InUtc) {minutes : Int} (fits : Fits (2 ^ 31) minutes) :
    addMinutes dt minutes = exactly (dt.local_ + minutes * 60000000) := by
  obtain ⟨lower, upper⟩ := fits
  have same : wrapInt64 (minutes * usecPerMinute) = minutes * 60000000 := by
    unfold usecPerMinute
    rw [wrapInt64_eq]
    omega
  unfold addMinutes
  rw [same]
  exact add_exact inUtc ⟨by omega, by omega⟩

theorem adjustTime_utc (type : TimeType) (time : Int) : adjustTime utc type time = some (0, time) := rfl

theorem findInterval_utc (type : TimeType) (time : Int) : findInterval utc type time = 0 := rfl

theorem replaceDays_utc (inUtc : dt.InUtc) (days : Int) :
    replaceDays dt days = some (exactly (days * 86400000000 + dt.usec)) := by
  obtain ⟨⟨-, -, nonneg, inDay, -⟩, zone, -⟩ := inUtc
  have bound : dt.usec < 86400000000 := inDay
  unfold replaceDays dealWithDateChange
  simp only [Bool.or_eq_true, decide_eq_true_eq, gt_iff_lt]
  by_cases inside : days < 1 ∨ 3652059 < days
  · rw [if_pos inside, exactly_outside (by unfold InYears; omega)]
  · have whole : wrapInt64 (days * usecPerDay + dt.usec) = days * 86400000000 + dt.usec := by
      unfold usecPerDay
      rw [wrapInt64_eq]
      omega
    have seconds : (days * 86400000000 + dt.usec).tdiv usecPerSecond = (days * 86400000000 + dt.usec) / 1000000 :=
      Int.tdiv_eq_ediv_of_nonneg (by omega)
    have rest : (days * 86400000000 + dt.usec).tmod usecPerSecond = (days * 86400000000 + dt.usec) % 1000000 :=
      Int.tmod_eq_emod_of_nonneg (by omega)
    have again : wrapInt64 (wrapInt64 ((days * 86400000000 + dt.usec) / 1000000 - unixEpochStart * secPerDay +
        unixEpochStart * secPerDay) * usecPerSecond + (days * 86400000000 + dt.usec) % 1000000) =
        days * 86400000000 + dt.usec := by
      unfold usecPerSecond
      rw [wrapInt64_eq, wrapInt64_eq]
      omega
    rw [if_neg inside, exactly_inside (by unfold InYears; omega), zone, whole, seconds, rest]
    simp only [adjustTime_utc, some_bind, Option.pure_def]
    rw [again, splitLocal_eq _ _ (by omega) (by omega)]
    rfl

theorem addDays_exact (inUtc : dt.InUtc) (days : Int) :
    addDays dt days = some (exactly (dt.local_ + days * 86400000000)) := by
  obtain ⟨first, last⟩ := And.intro inUtc.first inUtc.last
  have nonneg := inUtc.nonneg
  have bound : dt.usec < 86400000000 := inUtc.inDay
  unfold addDays
  by_cases range : days < -3660000 || days > 3660000
  · rw [if_pos range]
    simp only [Bool.or_eq_true, decide_eq_true_eq] at range
    rw [exactly_outside (by unfold InYears GDateTime.local_ usecPerDay; omega)]
  · rw [if_neg range, replaceDays_utc inUtc]
    simp only [Bool.or_eq_true, decide_eq_true_eq] at range
    have same : wrapInt32 (dt.days + days) = dt.days + days := by
      rw [wrapInt32_eq]
      omega
    unfold GDateTime.local_ usecPerDay
    congr 2
    omega

/-- A number of weeks whose days wrap around is added exactly only if the result is refused all the same. -/
theorem addWeeks_iff (inUtc : dt.InUtc) (weeks : Int) :
    addWeeks dt weeks = some (exactly (dt.local_ + weeks * 604800000000)) ↔
      Fits (2 ^ 31) (weeks * 7) ∨ ¬InYears (dt.local_ + wrapInt32 (weeks * 7) * 86400000000) := by
  have inYears := inUtc.inYears
  unfold addWeeks
  rw [addDays_exact inUtc]
  constructor
  · intro same
    by_contra neither
    obtain ⟨wraps, inside⟩ := not_or.mp neither
    have inside := not_not.mp inside
    have same := Option.some.inj same
    rw [exactly_inside inside] at same
    by_cases inside' : InYears (dt.local_ + weeks * 604800000000)
    · rw [exactly_inside inside'] at same
      have locals := congrArg GDateTime.local_ (Option.some.inj same)
      rw [utcAt_local, utcAt_local] at locals
      have unchanged : wrapInt32 (weeks * 7) = weeks * 7 := by omega
      exact wraps ((wrapTo_eq_iff (by decide)).mp unchanged)
    · rw [exactly_outside inside'] at same
      exact absurd same (by simp)
  · rintro (fits | outside)
    · have unchanged : wrapInt32 (weeks * 7) = weeks * 7 := wrapTo_of_fits fits
      congr 2
      omega
    · by_cases fits : Fits (2 ^ 31) (weeks * 7)
      · have unchanged : wrapInt32 (weeks * 7) = weeks * 7 := wrapTo_of_fits fits
        congr 2
        omega
      · -- so many weeks are out of the years, too
        rw [exactly_outside outside, exactly_outside]
        unfold Fits InYears at *
        omega

section Months

variable {year months : Int} {month day : Nat}

def cycleYear (year : Int) : Nat := ((year - 1) % 400).toNat + 1

/-- The number of a day of any year: the calendar repeats itself after 400 years of 146097 days. -/
def prolepticDay (year : Int) (month day : Nat) : Int :=
  146097 * ((year - 1) / 400) + dayNumber (cycleYear year) month day

theorem leap_cycleYear (year : Int) : Leap (cycleYear year) ↔ year % 4 = 0 ∧ (year % 100 = 0 → year % 400 = 0) := by
  unfold Leap cycleYear
  omega

theorem tmod_eq_zero_iff (value k : Int) : value.tmod k = 0 ↔ value % k = 0 := by
  rw [← Int.dvd_iff_tmod_eq_zero, Int.dvd_iff_emod_eq_zero]

theorem gregorianLeap_cycleYear (year : Int) : gregorianLeap year = decide (Leap (cycleYear year)) := by
  rw [Bool.eq_iff_iff, decide_eq_true_eq, leap_cycleYear]
  unfold gregorianLeap
  simp only [Bool.and_eq_true, Bool.not_eq_true', Bool.and_eq_false_iff, beq_iff_eq, beq_eq_false_iff_ne, ne_eq,
    bne_eq_false_iff_eq, tmod_eq_zero_iff]
  omega

/-- Division towards zero, by division that rounds down. -/
theorem tdiv_eq {k : Int} (positive : 0 < k) (value : Int) :
    value.tdiv k = value / k + if 0 ≤ value ∨ value % k = 0 then 0 else 1 := by
  simp only [Int.tdiv_eq_ediv, Int.sign_eq_one_of_pos positive, Int.dvd_iff_emod_eq_zero]

theorem leapYearsTo_floor (past : Int) :
    past.tdiv 4 - past.tdiv 100 + past.tdiv 400 =
      past / 4 - past / 100 + past / 400 + if 0 ≤ past ∨ Leap (cycleYear past) then 0 else 1 := by
  rw [tdiv_eq (by decide), tdiv_eq (by decide), tdiv_eq (by decide)]
  simp only [leap_cycleYear]
  by_cases nonneg : 0 ≤ past
  · simp only [nonneg, true_or, if_true]
    omega
  · simp only [nonneg, false_or]
    by_cases fourth : past % 4 = 0
    · by_cases century : past % 100 = 0
      · by_cases whole : past % 400 = 0
        · simp only [fourth, century, whole, true_and, forall_true_left, if_true]
          omega
        · simp only [fourth, century, whole, true_and, forall_true_left, if_true, if_false]
          omega
      · have notWhole : ¬past % 400 = 0 := by omega
        omega
    · have notCentury : ¬past % 100 = 0 := by omega
      omega

theorem ymdToDays_proleptic (valid : ValidDay (cycleYear year) month day) :
    ymdToDays year month day =
      prolepticDay year month day + if 1 ≤ year ∨ Leap (cycleYear (year - 1)) then 0 else 1 := by
  obtain ⟨-, some_, few, -, -⟩ := valid
  have start := entry_year some_ few (cycleYear year)
  have leaps := leapYearsTo_floor (year - 1)
  have first : 0 ≤ year - 1 ↔ 1 ≤ year := by omega
  simp only [first] at leaps
  unfold ymdToDays prolepticDay dayNumber dayOfYear
  rw [gregorianLeap_cycleYear, Bool.and_comm, daysThrough_eq]
  unfold cycleYear at *
  cases late : decide ((month : Int) > 2) && decide (Leap (((year - 1) % 400).toNat + 1)) with
  | true =>
    rw [late, if_pos rfl] at start
    rw [if_pos rfl]
    dsimp only
    omega
  | false =>
    rw [late, if_neg Bool.false_ne_true] at start
    rw [if_neg Bool.false_ne_true]
    dsimp only
    omega

theorem moveMonths_eq (some_ : 0 < month) (few : month ≤ 12) :
    moveMonths year month months =
      ((12 * year + month - 1 + months) / 12, (12 * year + month - 1 + months) % 12 + 1) := by
  have split := Int.mul_tdiv_add_tmod months 12
  have upper := Int.tmod_lt_of_pos months (show 0 < (12 : Int) by decide)
  have lower := Int.tmod_lt_of_pos (-months) (show 0 < (12 : Int) by decide)
  rw [Int.neg_tmod] at lower
  unfold moveMonths
  dsimp only
  split
  · rw [Prod.mk.injEq]
    omega
  · split
    · rw [Prod.mk.injEq]
      omega
    · rw [Prod.mk.injEq]
      omega

/-- The year and month that lie a number of months after the given ones. -/
def targetYear (year month : Nat) (months : Int) : Int := (12 * year + month - 1 + months) / 12

def targetMonth (year month : Nat) (months : Int) : Nat := ((12 * year + month - 1 + months) % 12).toNat + 1

def targetDay (year month day : Nat) (months : Int) : Nat :=
  min day (monthLength (cycleYear (targetYear year month months)) (targetMonth year month months))

theorem targetDay_valid {year : Nat} (valid : ValidDay year month day) (months : Int) :
    ValidDay (cycleYear (targetYear year month months)) (targetMonth year month months)
      (targetDay year month day months) := by
  have positive := monthLength_pos (cycleYear (targetYear year month months)) (targetMonth year month months)
  obtain ⟨-, -, -, first, -⟩ := valid
  refine ⟨Nat.succ_pos _, Nat.succ_pos _, ?_, lt_min first positive, min_le_right _ _⟩
  unfold targetMonth
  omega

theorem prolepticDay_bounds (valid : ValidDay (cycleYear year) month day) :
    146097 * ((year - 1) / 400) < prolepticDay year month day ∧
      prolepticDay year month day ≤ 146097 * ((year - 1) / 400) + 146097 := by
  have positive := valid.dayNumber_pos
  have last := valid.dayNumber_le
  have whole : daysThrough (cycleYear year) ≤ daysThrough 400 := daysThrough_mono (by unfold cycleYear; omega)
  have cycle : daysThrough 400 = 146097 := daysThrough_eq 400
  unfold prolepticDay
  omega

/-- The exact local time: months first, then days, hours and minutes. -/
def exactFull (year month day : Nat) (usec months days hours minutes : Int) : Int :=
  (prolepticDay (targetYear year month months) (targetMonth year month months) (targetDay year month day months) + days) *
    86400000000 + usec + hours * 3600000000 + minutes * 60000000

end Months

section Full

variable {year month day : Nat} {years months days hours minutes : Int}

def ArgumentBounds (months days : Int) : Prop :=
  -120000 ≤ months ∧ months ≤ 120000 ∧ -3660000 ≤ days ∧ days ≤ 3660000

instance (months days : Int) : Decidable (ArgumentBounds months days) := inferInstanceAs (Decidable (_ ∧ _))

/-- The month lies in the calendar, or after it begins as the source continues it to the years before. -/
def CountedMonth (year : Int) : Prop := 1 ≤ year ∨ Leap (cycleYear (year - 1))

instance (year : Int) : Decidable (CountedMonth year) := inferInstanceAs (Decidable (_ ∨ _))

theorem year_le (inUtc : dt.InUtc) (valid : ValidDay year month day) (number : dt.days = dayNumber year month day) :
    year ≤ 9999 := by
  have last := inUtc.last
  have first := valid.dayOfYear_pos
  by_contra later
  have order := daysThrough_mono (show 9999 ≤ year - 1 by omega)
  have whole : daysThrough 9999 = 3652059 := daysThrough_eq 9999
  unfold dayNumber at number
  omega

theorem fullTime_eq {number usec : Int} (lower : -9000000 ≤ number) (upper : number ≤ 12000000)
    (nonneg : 0 ≤ usec) (inDay : usec < 86400000000)
    (hoursFit : Fits (2 ^ 31) hours) (minutesFit : Fits (2 ^ 31) minutes) :
    wrapInt64 (wrapInt64 (wrapInt64 (wrapInt64 (wrapInt64 (wrapInt64 (usec.tdiv usecPerSecond +
      secPerDay * wrapInt32 (number - unixEpochStart)) - 0) + unixEpochStart * secPerDay) * usecPerSecond +
      usec.tmod usecPerSecond) + (hours * usecPerHour + minutes * usecPerMinute + 0)) + usecPerSecond * 0) =
      number * 86400000000 + usec + hours * 3600000000 + minutes * 60000000 := by
  obtain ⟨⟨lower1, upper1⟩, ⟨lower2, upper2⟩⟩ := And.intro hoursFit minutesFit
  unfold usecPerSecond secPerDay unixEpochStart usecPerHour usecPerMinute
  rw [Int.tdiv_eq_ediv_of_nonneg nonneg, Int.tmod_eq_emod_of_nonneg nonneg]
  have day : wrapInt32 (number - 719163) = number - 719163 := wrapTo_of_fits ⟨by omega, by omega⟩
  have seconds : wrapInt64 (usec / 1000000 + 86400 * (number - 719163)) = usec / 1000000 + 86400 * (number - 719163) :=
    wrapTo_of_fits ⟨by omega, by omega⟩
  have past : wrapInt64 (usec / 1000000 + 86400 * (number - 719163) + 719163 * 86400) = usec / 1000000 + 86400 * number := by
    rw [wrapInt64_eq]
    omega
  have whole : wrapInt64 ((usec / 1000000 + 86400 * number) * 1000000 + usec % 1000000) = number * 86400000000 + usec := by
    rw [wrapInt64_eq]
    omega
  have added : wrapInt64 (number * 86400000000 + usec + (hours * 3600000000 + minutes * 60000000 + 0)) =
      number * 86400000000 + usec + hours * 3600000000 + minutes * 60000000 := by
    rw [wrapInt64_eq]
    omega
  rw [day, seconds, Int.sub_zero, seconds, past, whole, added, Int.mul_zero, Int.add_zero]
  rw [wrapInt64_eq]
  omega

theorem addFull_eq (inUtc : dt.InUtc) (valid : ValidDay year month day) (number : dt.days = dayNumber year month day)
    (hoursFit : Fits (2 ^ 31) hours) (minutesFit : Fits (2 ^ 31) minutes) :
    addFull dt years months days hours minutes 0 =
      if ArgumentBounds (wrapInt32 (months + years * 12)) days then
        some (some (splitLocal utc 0
          (exactFull year month day dt.usec (wrapInt32 (months + years * 12)) days hours minutes +
            if CountedMonth (targetYear year month (wrapInt32 (months + years * 12))) then 0 else 86400000000)))
      else some none := by
  have ymd := getYmd_spec valid
  have below := year_le inUtc valid number
  rw [← number] at ymd
  obtain ⟨-, some_, few, -, -⟩ := id valid
  have total : wrapInt32 (months + wrapInt32 (years * 12)) = wrapInt32 (months + years * 12) :=
    wrapTo_add_wrapTo _ _ _
  unfold addFull
  rw [ymd]
  simp only [Option.bind_eq_bind, Option.bind_some, Option.pure_def, total]
  generalize wrapInt32 (months + years * 12) = moved at *
  by_cases bounds : ArgumentBounds moved days
  · obtain ⟨lower, upper, early, late⟩ := id bounds
    rw [if_pos bounds]
    have inMonths : (decide (moved < -120000) || decide (moved > 120000)) = false := by
      rw [Bool.or_eq_false_iff, decide_eq_false_iff_not, decide_eq_false_iff_not]
      omega
    have inDays : (decide (days < -3660000) || decide (days > 3660000)) = false := by
      rw [Bool.or_eq_false_iff, decide_eq_false_iff_not, decide_eq_false_iff_not]
      omega
    rw [inMonths, inDays]
    simp only [Bool.false_eq_true, if_false]
    rw [moveMonths_eq some_ few]
    have monthEq : (12 * (year : Int) + month - 1 + moved) % 12 + 1 = (targetMonth year month moved : Int) := by
      unfold targetMonth
      omega
    have yearEq : (12 * (year : Int) + month - 1 + moved) / 12 = targetYear year month moved := rfl
    have index : (if gregorianLeap (targetYear year month moved) = true then 1 else 0) =
        if Leap (cycleYear (targetYear year month moved)) then 1 else 0 := by
      rw [gregorianLeap_cycleYear]
      simp only [decide_eq_true_eq]
    have target := targetDay_valid valid moved
    have length := entry_months target.2.1 target.2.2.1 (cycleYear (targetYear year month moved))
    have dayEq : min (day : Int) (monthLength (cycleYear (targetYear year month moved)) (targetMonth year month moved) : Nat) =
        (targetDay year month day moved : Int) := by
      unfold targetDay
      omega
    have counted := ymdToDays_proleptic target
    have within := prolepticDay_bounds target
    rw [monthEq, yearEq]
    rw [index, length, dayEq, counted, inUtc.zone]
    simp only [adjustTime_utc, findInterval_utc, getOffset_utc, Option.bind_some]
    change _ = some (some (splitLocal utc 0 (exactFull year month day dt.usec moved days hours minutes +
      if 1 ≤ targetYear year month moved ∨ Leap (cycleYear (targetYear year month moved - 1)) then 0 else 86400000000)))
    have nonneg := inUtc.nonneg
    have inDay : dt.usec < 86400000000 := inUtc.inDay
    by_cases counts : 1 ≤ targetYear year month moved ∨ Leap (cycleYear (targetYear year month moved - 1))
    · rw [if_pos counts, if_pos counts, fullTime_eq (by omega) (by omega) nonneg inDay hoursFit minutesFit, Int.add_zero,
        Int.add_zero]
      rfl
    · rw [if_neg counts, if_neg counts, fullTime_eq (by omega) (by omega) nonneg inDay hoursFit minutesFit]
      unfold exactFull
      congr 3
      omega
  · rw [if_neg bounds]
    unfold ArgumentBounds at bounds
    by_cases inMonths : (decide (moved < -120000) || decide (moved > 120000)) = true
    · rw [inMonths]
      rfl
    · rw [Bool.not_eq_true] at inMonths
      rw [inMonths]
      rw [Bool.or_eq_false_iff, decide_eq_false_iff_not, decide_eq_false_iff_not] at inMonths
      have outside : (decide (days < -3660000) || decide (days > 3660000)) = true := by
        rw [Bool.or_eq_true, decide_eq_true_eq, decide_eq_true_eq]
        omega
      rw [outside]
      rfl

/-- The exact result, which lies in the calendar, is reached unless the months before the year 1 are counted wrongly. -/
theorem splitLocal_exactly {exact_ : Int} {counted : Prop} [Decidable counted]
    (bound : exact_ + 86400000000 < 2147483648 * 86400000000) :
    some (splitLocal utc 0 (exact_ + if counted then 0 else 86400000000)) = exactly exact_ ↔ InYears exact_ ∧ counted := by
  constructor
  · intro same
    by_cases inYears : InYears exact_
    · refine ⟨inYears, ?_⟩
      by_contra miscounted
      rw [exactly_inside inYears, if_neg miscounted] at same
      obtain ⟨lower, upper⟩ := inYears
      rw [splitLocal_eq _ _ (by omega) bound] at same
      have days := congrArg GDateTime.days (Option.some.inj same)
      dsimp only [utcAt] at days
      omega
    · rw [exactly_outside inYears] at same
      exact absurd same (by simp)
  · rintro ⟨inYears, counts⟩
    obtain ⟨lower, upper⟩ := id inYears
    rw [exactly_inside inYears, if_pos counts, Int.add_zero, splitLocal_eq _ _ (by omega) (by omega)]
    rfl

theorem exactFull_bound (below : year ≤ 9999) (few : month ≤ 12) (valid : ValidDay year month day) (inUtc : dt.InUtc)
    (bounds : ArgumentBounds months days) (hoursFit : Fits (2 ^ 31) hours) (minutesFit : Fits (2 ^ 31) minutes) :
    exactFull year month day dt.usec months days hours minutes + 86400000000 < 2147483648 * 86400000000 := by
  have within := prolepticDay_bounds (targetDay_valid valid months)
  have inDay : dt.usec < 86400000000 := inUtc.inDay
  obtain ⟨-, upper, -, late⟩ := bounds
  obtain ⟨⟨-, hoursUpper⟩, ⟨-, minutesUpper⟩⟩ := And.intro hoursFit minutesFit
  have years_ : targetYear year month months ≤ 20000 := by
    unfold targetYear
    omega
  unfold exactFull
  omega

/-- What is asked of `addFull`: NULL where an argument is out of its bounds, and the exact result otherwise. -/
def specFull (year month day : Nat) (usec years months days hours minutes : Int) : Option GDateTime :=
  if ArgumentBounds (months + years * 12) days then
    exactly (exactFull year month day usec (months + years * 12) days hours minutes)
  else none

theorem addFull_iff (inUtc : dt.InUtc) (valid : ValidDay year month day) (number : dt.days = dayNumber year month day)
    (hoursFit : Fits (2 ^ 31) hours) (minutesFit : Fits (2 ^ 31) minutes) :
    addFull dt years months days hours minutes 0 = some (specFull year month day dt.usec years months days hours minutes) ↔
      if ArgumentBounds (months + years * 12) days then
        InYears (exactFull year month day dt.usec (months + years * 12) days hours minutes) ∧
          CountedMonth (targetYear year month (months + years * 12))
      else ¬ArgumentBounds (wrapInt32 (months + years * 12)) days := by
  have below := year_le inUtc valid number
  obtain ⟨-, -, few, -, -⟩ := id valid
  rw [addFull_eq inUtc valid number hoursFit minutesFit]
  unfold specFull
  by_cases bounds : ArgumentBounds (months + years * 12) days
  · have unchanged : wrapInt32 (months + years * 12) = months + years * 12 := by
      obtain ⟨lower, upper, -, -⟩ := bounds
      exact wrapTo_of_fits ⟨by omega, by omega⟩
    rw [unchanged, if_pos bounds, if_pos bounds, if_pos bounds, Option.some.injEq]
    exact splitLocal_exactly (exactFull_bound below few valid inUtc bounds hoursFit minutesFit)
  · rw [if_neg bounds, if_neg bounds]
    split
    · rename_i wraps
      simp [wraps]
    · rename_i outside
      simp [outside]

end Full

/-- What is asked of the adders for one date and one set of arguments. -/
def AddersExact (dt : GDateTime) (timespan years months weeks days hours minutes : Int) : Prop :=
  AddsExactly dt timespan (add dt timespan) ∧
    (∃ result, addWeeks dt weeks = some result ∧ AddsExactly dt (weeks * 604800000000) result) ∧
    (∃ result, addDays dt days = some result ∧ AddsExactly dt (days * 86400000000) result) ∧
    AddsExactly dt (hours * 3600000000) (addHours dt hours) ∧
    AddsExactly dt (minutes * 60000000) (addMinutes dt minutes) ∧
    ∀ year month day, ValidDay year month day → dt.days = dayNumber year month day →
      addFull dt years months days hours minutes 0 = some (specFull year month day dt.usec years months days hours minutes)

/-- The products of the arguments fit, or the wrapped ones are refused; and what `addFull` does not check is right. -/
def AddersCondition (dt : GDateTime) (years months weeks days hours minutes : Int) : Prop :=
  (Fits (2 ^ 31) (weeks * 7) ∨ ¬InYears (dt.local_ + wrapInt32 (weeks * 7) * 86400000000)) ∧
    ∀ year month day, ValidDay year month day → dt.days = dayNumber year month day →
      if ArgumentBounds (months + years * 12) days then
        InYears (exactFull year month day dt.usec (months + years * 12) days hours minutes) ∧
          CountedMonth (targetYear year month (months + years * 12))
      else ¬ArgumentBounds (wrapInt32 (months + years * 12)) days

theorem adders_iff (dt : GDateTime) (inUtc : dt.InUtc) (timespan years months weeks days hours minutes : Int)
    (timespanFit : Fits (2 ^ 63) timespan) (hoursFit : Fits (2 ^ 31) hours) (minutesFit : Fits (2 ^ 31) minutes) :
    AddersExact dt timespan years months weeks days hours minutes ↔
      AddersCondition dt years months weeks days hours minutes := by
  have weeks_ : (∃ result, addWeeks dt weeks = some result ∧ AddsExactly dt (weeks * 604800000000) result) ↔
      addWeeks dt weeks = some (exactly (dt.local_ + weeks * 604800000000)) := by
    constructor
    · rintro ⟨result, same, exact_⟩
      rw [same, (addsExactly_iff inUtc).mp exact_]
    · intro same
      exact ⟨_, same, (addsExactly_iff inUtc).mpr rfl⟩
  unfold AddersExact AddersCondition
  rw [weeks_, addWeeks_iff inUtc]
  constructor
  · rintro ⟨-, fits, -, -, -, full⟩
    exact ⟨fits, fun year month day valid number =>
      (addFull_iff inUtc valid number hoursFit minutesFit).mp (full year month day valid number)⟩
  · rintro ⟨fits, full⟩
    refine ⟨?_, fits, ⟨_, addDays_exact inUtc days, ?_⟩, ?_, ?_, fun year month day valid number =>
      (addFull_iff inUtc valid number hoursFit minutesFit).mpr (full year month day valid number)⟩
    · exact (addsExactly_iff inUtc).mpr (add_exact inUtc timespanFit)
    · exact (addsExactly_iff inUtc).mpr rfl
    · exact (addsExactly_iff inUtc).mpr (addHours_exact inUtc hoursFit)
    · exact (addsExactly_iff inUtc).mpr (addMinutes_exact inUtc minutesFit)

/-- 31 January 2024; a month later is the last day of February. -/
theorem adders_iff_january :
    AddersExact (utcAt (738916 * 86400000000)) 5 0 1 2 (-3) 4 (-5) := by
  refine (adders_iff (utcAt (738916 * 86400000000)) (utcAt_inUtc (by decide +kernel)) 5 0 1 2 (-3) 4 (-5) (by decide +kernel) (by decide +kernel)
    (by decide +kernel)).mpr ⟨Or.inl (by decide +kernel), fun year month day valid number => ?_⟩
  have date : ValidDay 2024 1 31 := by decide +kernel
  have same : dayNumber 2024 1 31 = 738916 := by
    unfold dayNumber
    decide +kernel
  have days : (utcAt (738916 * 86400000000)).days = 738916 := by decide +kernel
  obtain ⟨rfl, rfl, rfl⟩ := dayNumber_injective valid date (by omega)
  decide +kernel

/-- So many weeks that three days are added, and a day after the last one that is not refused. -/
theorem adders_unchecked :
    (utcAt (730120 * 86400000000)).InUtc ∧
      addWeeks (utcAt (730120 * 86400000000)) 613566757 = some (some (utcAt (730123 * 86400000000))) ∧
      ¬AddersExact (utcAt (730120 * 86400000000)) 0 0 0 613566757 0 0 0 ∧
      addFull (utcAt (3652059 * 86400000000)) 0 0 1 0 0 0 = some (some (utcAt (3652060 * 86400000000))) := by
  have weeks : addWeeks (utcAt (730120 * 86400000000)) 613566757 = some (some (utcAt (730123 * 86400000000))) := rfl
  refine ⟨utcAt_inUtc (by decide), weeks, ?_, rfl⟩
  rintro ⟨-, ⟨result, same, exact_⟩, -⟩
  obtain rfl := Option.some.inj (weeks.symm.trans same)
  exact absurd exact_.1 (by decide)

end Xpl.Time.DateTime
