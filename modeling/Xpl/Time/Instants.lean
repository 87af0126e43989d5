import Xpl.Time.DateTime
import Xpl.Time.TimeZone

/-! Dates and times in a zone, as gdatetime.c keeps them: the local day, the microseconds of
the day, and the interval of the zone. Signed arithmetic wraps around. Of two nested options
the inner one is the result, which may be NULL, and no outer one stands for a failed assertion. -/

set_option autoImplicit false

namespace Xpl.Time.DateTime

def usecPerSecond : Int := 1000000
def usecPerMinute : Int := 60000000
def usecPerHour : Int := 3600000000
def usecPerDay : Int := 86400000000
def secPerDay : Int := 86400
def secsPerHour : Int := 3600
def secsPerMinute : Int := 60
def unixEpochStart : Int := 719163

structure GDateTime where
  usec : Int
  tz : TimeZone
  interval : Int
  days : Int

section Instants

def instantToUnix (instant : Int) : Int := instant.tdiv usecPerSecond - unixEpochStart * secPerDay

def instantToUnixUsecs (instant : Int) : Int := instant - unixEpochStart * secPerDay * usecPerSecond

def unixToInstant (unix : Int) : Int := wrapInt64 (wrapInt64 (unix + unixEpochStart * secPerDay) * usecPerSecond)

def unixUsecsToInstant (unixUsecs : Int) : Int := wrapInt64 (unixUsecs + unixEpochStart * secPerDay * usecPerSecond)

def unixToInstantIsValid (unix : Int) : Bool := unix ≤ instantToUnix maxInt64

def unixUsecsToInstantIsValid (unixUsecs : Int) : Bool := unixUsecs ≤ instantToUnixUsecs maxInt64

def toInstant (datetime : GDateTime) : Int :=
  let offset := getOffset datetime.tz datetime.interval * usecPerSecond
  wrapInt64 (datetime.days * usecPerDay + datetime.usec - offset)

/-- The fields of a local time in microseconds; `days` has 32 bits and `usec` is unsigned. -/
def splitLocal (tz : TimeZone) (interval local_ : Int) : GDateTime :=
  { usec := local_.tmod usecPerDay % 2 ^ 64, tz, interval, days := wrapInt32 (local_.tdiv usecPerDay) }

def fromInstant (tz : TimeZone) (instant : Int) : Option GDateTime :=
  if instant < 0 || instant > 1000000000000000000 then none
  else
    let interval := findInterval tz .universal (instantToUnix instant)
    let offset := getOffset tz interval * usecPerSecond
    let datetime := splitLocal tz interval (wrapInt64 (instant + offset))
    if datetime.days < 1 || 3652059 < datetime.days then none else some datetime

def newFromTimeval (tz : TimeZone) (tvSec tvUsec : Int) : Option GDateTime :=
  if tvSec > maxInt64 - 1 || !unixToInstantIsValid (tvSec + 1) then none
  else fromInstant tz (wrapInt64 (tvUsec + unixToInstant tvSec))

def newFromUnix (tz : TimeZone) (usecs : Int) : Option GDateTime :=
  if !unixUsecsToInstantIsValid usecs then none else fromInstant tz (unixUsecsToInstant usecs)

/-- `xdate_time_new_from_unix_local` and `xdate_time_new_from_unix_utc` with the zone as an argument. -/
def newFromUnixSeconds (tz : TimeZone) (t : Int) : Option GDateTime :=
  if t > maxInt64.tdiv usecPerSecond || t < minInt64.tdiv usecPerSecond then none
  else newFromUnix tz (wrapInt64 (t * usecPerSecond))

def toUnix (datetime : GDateTime) : Int := instantToUnix (toInstant datetime)

def toTimezone (datetime : GDateTime) (tz : TimeZone) : Option GDateTime := fromInstant tz (toInstant datetime)

def difference (end_ begin_ : GDateTime) : Int := wrapInt64 (toInstant end_ - toInstant begin_)

def compare (dt1 dt2 : GDateTime) : Int :=
  if difference dt1 dt2 < 0 then -1 else if difference dt1 dt2 > 0 then 1 else 0

def equal (dt1 dt2 : GDateTime) : Bool := difference dt1 dt2 = 0

def hash (datetime : GDateTime) : Int := toInstant datetime % 2 ^ 32

end Instants

section Dates

def timeTypeOf (isDst : Bool) : TimeType := if isDst then .daylight else .standard

def dealWithDateChange (datetime : GDateTime) : Option (Option GDateTime) :=
  if datetime.days < 1 || datetime.days > 3652059 then some none
  else do
    let wasDst := timeTypeOf (isDst datetime.tz datetime.interval)
    let fullTime := wrapInt64 (datetime.days * usecPerDay + datetime.usec)
    let usec := fullTime.tmod usecPerSecond
    let fullTime := fullTime.tdiv usecPerSecond - unixEpochStart * secPerDay
    let (interval, fullTime) ← adjustTime datetime.tz wasDst fullTime
    let fullTime := wrapInt64 (wrapInt64 (fullTime + unixEpochStart * secPerDay) * usecPerSecond + usec)
    return some (splitLocal datetime.tz interval fullTime)

def replaceDays (datetime : GDateTime) (days : Int) : Option (Option GDateTime) := dealWithDateChange { datetime with days }

/-- What the functions take from a number of seconds that is given in floating point: whether it
is a number from 0 to below 60, its whole part, and its microseconds. -/
structure Seconds where
  valid : Bool
  whole : Int
  usec : Int
  whole_range : valid = true → 0 ≤ whole ∧ whole < 60
  usec_range : valid = true → 0 ≤ usec ∧ usec < 60000000

def Seconds.zero : Seconds :=
  { valid := true, whole := 0, usec := 0, whole_range := by decide, usec_range := by decide }

def newDateTime (tz : TimeZone) (year month day hour minute : Int) (seconds : Seconds) : Option (Option GDateTime) :=
  if year < 1 || year > 9999 || month < 1 || month > 12 || day < 1 ||
      day > entry daysInMonths (if gregorianLeap year then 1 else 0) month ||
      hour < 0 || hour > 23 || minute < 0 || minute > 59 || !seconds.valid then some none
  else do
    let fullTime := secPerDay * (ymdToDays year month day - unixEpochStart) + secsPerHour * hour + secsPerMinute * minute +
      seconds.whole
    let (interval, fullTime) ← adjustTime tz .standard fullTime
    let fullTime := wrapInt64 (fullTime + unixEpochStart * secPerDay)
    return some
      { usec := fullTime.tmod secPerDay * usecPerSecond + seconds.usec.tmod usecPerSecond
        tz
        interval
        days := wrapInt32 (fullTime.tdiv secPerDay) }

def newOrdinal (tz : TimeZone) (year ordinalDay hour minute : Int) (seconds : Seconds) : Option (Option GDateTime) :=
  if ordinalDay < 1 || ordinalDay > (if gregorianLeap year then 366 else 365) then some none
  else do
    let dt ← newDateTime tz year 1 1 hour minute seconds
    return dt.map fun dt => { dt with days := dt.days + (ordinalDay - 1) }

/-- `year * 365` and the sum after it have 32 bits. -/
def newWeek (tz : TimeZone) (year week weekDay hour minute : Int) (seconds : Seconds) : Option (Option GDateTime) :=
  let p := (wrapInt32 (wrapInt32 (year * 365) + year.tdiv 4 - year.tdiv 100 + year.tdiv 400)).tmod 7
  let maxWeek := if p = 4 then 53 else 52
  if week < 1 || week > maxWeek || weekDay < 1 || weekDay > 7 then some none
  else do
    match ← newDateTime tz year 1 4 0 0 Seconds.zero with
    | none => return none
    | some dt =>
      let jan4WeekDay := (← getWeekNumber dt.days).dayOfWeek
      let ordinalDay := week * 7 + weekDay - (jan4WeekDay + 3)
      let yearLength := fun year => if gregorianLeap year then 366 else 365
      if ordinalDay < 0 then newOrdinal tz (year - 1) (ordinalDay + yearLength (year - 1)) hour minute seconds
      else if ordinalDay > yearLength year then newOrdinal tz (year + 1) (ordinalDay - yearLength year) hour minute seconds
      else newOrdinal tz year ordinalDay hour minute seconds

end Dates

section Adders

def add (datetime : GDateTime) (timespan : Int) : Option GDateTime :=
  fromInstant datetime.tz (wrapInt64 (timespan + toInstant datetime))

def addDays (datetime : GDateTime) (days : Int) : Option (Option GDateTime) :=
  if days < -3660000 || days > 3660000 then some none
  else replaceDays datetime (wrapInt32 (datetime.days + days))

def addWeeks (datetime : GDateTime) (weeks : Int) : Option (Option GDateTime) := addDays datetime (wrapInt32 (weeks * 7))

def addHours (datetime : GDateTime) (hours : Int) : Option GDateTime := add datetime (wrapInt64 (hours * usecPerHour))

def addMinutes (datetime : GDateTime) (minutes : Int) : Option GDateTime := add datetime (wrapInt64 (minutes * usecPerMinute))

def moveMonths (year month months : Int) : Int × Int :=
  let year := year + months.tdiv 12
  let month := month + months.tmod 12
  if month < 1 then (year - 1, month + 12) else if month > 12 then (year + 1, month - 12) else (year, month)

/-- `secondsUsec` are the seconds in microseconds. -/
def addFull (datetime : GDateTime) (years months days hours minutes secondsUsec : Int) : Option (Option GDateTime) := do
  let (year, month, day) ← getYmd datetime.days
  let months := wrapInt32 (months + wrapInt32 (years * 12))
  if months < -120000 || months > 120000 then return none
  if days < -3660000 || days > 3660000 then return none
  let (year, month) := moveMonths year month months
  let day := min day (entry daysInMonths (if gregorianLeap year then 1 else 0) month)
  let fullTime := wrapInt64 (datetime.usec.tdiv usecPerSecond +
    secPerDay * wrapInt32 (ymdToDays year month day + days - unixEpochStart))
  let (interval, fullTime) ← adjustTime datetime.tz (timeTypeOf (isDst datetime.tz datetime.interval)) fullTime
  let fullTime := wrapInt64 (fullTime - getOffset datetime.tz interval)
  let fullTime := wrapInt64 (fullTime + unixEpochStart * secPerDay)
  let fullTime := wrapInt64 (fullTime * usecPerSecond + datetime.usec.tmod usecPerSecond)
  let fullTime := wrapInt64 (fullTime + (hours * usecPerHour + minutes * usecPerMinute + secondsUsec))
  let interval := findInterval datetime.tz .universal (instantToUnix fullTime)
  let fullTime := wrapInt64 (fullTime + usecPerSecond * getOffset datetime.tz interval)
  -- the result is not checked
  return some (splitLocal datetime.tz interval fullTime)

end Adders

/-! Instants: a date and time keeps the instant it was made from, in whatever zone. The one way
around this is a number of seconds whose microseconds do not fit in 64 bits. -/

open Xpl.Library

variable {tz : TimeZone} {instant t usec : Int} {dt : GDateTime}

theorem wrapInt64_eq (value : Int) :
    wrapInt64 value = (value + 9223372036854775808) % 18446744073709551616 - 9223372036854775808 := rfl

theorem wrapInt32_eq (value : Int) : wrapInt32 value = (value + 2147483648) % 4294967296 - 2147483648 := rfl

def GDateTime.local_ (dt : GDateTime) : Int := dt.days * usecPerDay + dt.usec

structure GDateTime.InCalendar (dt : GDateTime) : Prop where
  first : 1 ≤ dt.days
  last : dt.days ≤ 3652059
  nonneg : 0 ≤ dt.usec
  inDay : dt.usec < usecPerDay
  offsets : dt.tz.SmallOffsets

theorem getOffset_small (offsets : tz.SmallOffsets) (interval : Int) :
    -86400 < getOffset tz interval ∧ getOffset tz interval < 86400 := by
  unfold getOffset
  split
  · exact offsets _ (intervalInfo_mem tz _)
  · decide

def offsetAt (tz : TimeZone) (instant : Int) : Int := getOffset tz (findInterval tz .universal (instantToUnix instant))

theorem getOffset_findInterval (tz : TimeZone) (instant : Int) :
    getOffset tz (findInterval tz .universal (instantToUnix instant)) = offsetAt tz instant := rfl

/-- The instants that have a date in the zone. -/
def Representable (tz : TimeZone) (instant : Int) : Prop :=
  0 ≤ instant ∧ instant ≤ 1000000000000000000 ∧
    86400000000 ≤ instant + offsetAt tz instant * 1000000 ∧
    instant + offsetAt tz instant * 1000000 < 3652060 * 86400000000

instance (tz : TimeZone) (instant : Int) : Decidable (Representable tz instant) := inferInstanceAs (Decidable (_ ∧ _))

theorem splitLocal_eq (tz : TimeZone) (interval : Int) {local_ : Int} (nonneg : 0 ≤ local_)
    (bound : local_ < 2147483648 * 86400000000) :
    splitLocal tz interval local_ = { usec := local_ % 86400000000, tz, interval, days := local_ / 86400000000 } := by
  have days : local_.tdiv 86400000000 = local_ / 86400000000 := Int.tdiv_eq_ediv_of_nonneg nonneg
  have usec : local_.tmod 86400000000 = local_ % 86400000000 := Int.tmod_eq_emod_of_nonneg nonneg
  unfold splitLocal usecPerDay
  rw [days, usec, wrapInt32_eq]
  congr 1 <;> omega

theorem fromInstant_eq (offsets : tz.SmallOffsets) (instant : Int) :
    fromInstant tz instant =
      if Representable tz instant then
        some
          { usec := (instant + offsetAt tz instant * 1000000) % 86400000000
            tz
            interval := findInterval tz .universal (instantToUnix instant)
            days := (instant + offsetAt tz instant * 1000000) / 86400000000 }
      else none := by
  have small := getOffset_small offsets (findInterval tz .universal (instantToUnix instant))
  rw [getOffset_findInterval] at small
  have bounds : Representable tz instant ↔ 0 ≤ instant ∧ instant ≤ 1000000000000000000 ∧
      86400000000 ≤ instant + offsetAt tz instant * 1000000 ∧
      instant + offsetAt tz instant * 1000000 < 3652060 * 86400000000 := Iff.rfl
  unfold fromInstant usecPerSecond
  simp only [Bool.or_eq_true, decide_eq_true_eq, bounds]
  rw [getOffset_findInterval]
  generalize offsetAt tz instant = offset at *
  by_cases range : instant < 0 ∨ instant > 1000000000000000000
  · rw [if_pos range, if_neg (by omega)]
  · rw [if_neg range]
    have same : wrapInt64 (instant + offset * 1000000) = instant + offset * 1000000 := by
      rw [wrapInt64_eq]
      omega
    rw [same]
    by_cases nonneg : 0 ≤ instant + offset * 1000000
    · rw [splitLocal_eq _ _ nonneg (by omega)]
      dsimp only
      by_cases inside : 86400000000 ≤ instant + offset * 1000000 ∧ instant + offset * 1000000 < 3652060 * 86400000000
      · rw [if_neg (by omega), if_pos (by omega)]
      · rw [if_pos (by omega), if_neg (by omega)]
    · -- an instant within a day of the beginning may lie before the day 1
      have day : (instant + offset * 1000000).tdiv usecPerDay = 0 := by
        have flipped := Int.neg_tdiv (instant + offset * 1000000) usecPerDay
        unfold usecPerDay at flipped ⊢
        rw [Int.tdiv_eq_ediv_of_nonneg (show 0 ≤ -(instant + offset * 1000000) by omega)] at flipped
        omega
      have none_ : (splitLocal tz (findInterval tz .universal (instantToUnix instant)) (instant + offset * 1000000)).days = 0 := by
        unfold splitLocal
        rw [day]
        rfl
      rw [none_, if_pos (by decide), if_neg (by omega)]

theorem toInstant_of_fromInstant (offsets : tz.SmallOffsets) (made : fromInstant tz instant = some dt) :
    Representable tz instant ∧ toInstant dt = instant ∧ dt.tz = tz := by
  have small := getOffset_small offsets (findInterval tz .universal (instantToUnix instant))
  rw [fromInstant_eq offsets] at made
  split at made
  · rename_i representable
    refine ⟨representable, ?_⟩
    obtain rfl := Option.some.inj made
    obtain ⟨lower, upper, -, -⟩ := representable
    unfold toInstant usecPerSecond usecPerDay
    dsimp only
    rw [getOffset_findInterval] at small ⊢
    rw [wrapInt64_eq]
    exact ⟨by omega, rfl⟩
  · exact absurd made (by simp)

theorem toInstant_eq (calendar : dt.InCalendar) :
    toInstant dt = dt.local_ - getOffset dt.tz dt.interval * 1000000 ∧ 0 < toInstant dt ∧ toInstant dt ≤ 1000000000000000000 := by
  obtain ⟨first, last, nonneg, inDay, offsets⟩ := calendar
  have small := getOffset_small offsets dt.interval
  unfold usecPerDay at inDay
  have same : toInstant dt = dt.local_ - getOffset dt.tz dt.interval * 1000000 :=
    wrapTo_of_fits ⟨by dsimp only [usecPerSecond, usecPerDay]; omega, by dsimp only [usecPerSecond, usecPerDay]; omega⟩
  have local_ : dt.local_ = dt.days * 86400000000 + dt.usec := rfl
  omega

theorem toInstant_fits (dt : GDateTime) : -9223372036854775808 ≤ toInstant dt ∧ toInstant dt < 9223372036854775808 := by
  unfold toInstant
  rw [wrapInt64_eq]
  omega

theorem equal_iff (dt1 dt2 : GDateTime) : equal dt1 dt2 = true ↔ toInstant dt1 = toInstant dt2 := by
  have fits1 := toInstant_fits dt1
  have fits2 := toInstant_fits dt2
  unfold equal difference
  rw [decide_eq_true_eq, wrapInt64_eq]
  omega

theorem difference_eq {a b : GDateTime} (first : a.InCalendar) (second : b.InCalendar) :
    difference a b = toInstant a - toInstant b := by
  have bounds1 := (toInstant_eq first).2
  have bounds2 := (toInstant_eq second).2
  unfold difference
  rw [wrapInt64_eq]
  omega

/-- Machine differences add up, in whatever range the values are. -/
theorem difference_wraps (a b c : GDateTime) : difference a c = wrapInt64 (difference a b + difference b c) := by
  unfold difference
  rw [wrapInt64_eq, wrapInt64_eq, wrapInt64_eq, wrapInt64_eq]
  omega

theorem instantToUnix_eq (nonneg : 0 ≤ instant) : instantToUnix instant = instant / 1000000 - 62135683200 := by
  unfold instantToUnix usecPerSecond
  rw [Int.tdiv_eq_ediv_of_nonneg nonneg]
  rfl

def exactInstant (t usec : Int) : Int := (t + 62135683200) * 1000000 + usec

theorem newFromUnixSeconds_toUnix (offsets : tz.SmallOffsets) (made : newFromUnixSeconds tz t = some dt) : toUnix dt = t := by
  have high : maxInt64.tdiv usecPerSecond = 9223372036854 := by decide
  have low : minInt64.tdiv usecPerSecond = -9223372036854 := by decide
  have latest : instantToUnixUsecs maxInt64 = 9161236353654775807 := by decide
  unfold newFromUnixSeconds newFromUnix unixUsecsToInstantIsValid at made
  simp only [Bool.or_eq_true, Bool.not_eq_true', decide_eq_true_eq, decide_eq_false_iff_not] at made
  split at made
  · exact absurd made (by simp)
  · have usecs : wrapInt64 (t * usecPerSecond) = t * 1000000 := by
      rw [wrapInt64_eq]
      unfold usecPerSecond
      omega
    rw [usecs] at made
    split at made
    · exact absurd made (by simp)
    · have instant : unixUsecsToInstant (t * 1000000) = exactInstant t 0 := by
        unfold unixUsecsToInstant unixEpochStart secPerDay usecPerSecond exactInstant
        rw [wrapInt64_eq]
        omega
      obtain ⟨⟨lower, -⟩, same, -⟩ := toInstant_of_fromInstant offsets made
      unfold toUnix
      rw [same, instantToUnix_eq lower, instant]
      unfold exactInstant
      omega

theorem unixToInstant_add (t usec : Int) :
    wrapInt64 (usec + unixToInstant t) = wrapInt64 (exactInstant t usec) := by
  unfold unixToInstant exactInstant unixEpochStart secPerDay usecPerSecond
  rw [wrapInt64_eq, wrapInt64_eq, wrapInt64_eq, wrapInt64_eq]
  omega

theorem newFromTimeval_toUnix (offsets : tz.SmallOffsets) (micro : 0 ≤ usec ∧ usec < 1000000)
    (made : newFromTimeval tz t usec = some dt) :
    Representable tz (wrapInt64 (exactInstant t usec)) ∧ (toUnix dt = t ↔ minInt64 ≤ exactInstant t usec) := by
  have latest : instantToUnix maxInt64 = 9161236353654 := by decide
  have low := minInt64_eq
  unfold newFromTimeval unixToInstantIsValid at made
  rw [latest, unixToInstant_add] at made
  simp only [Bool.or_eq_true, Bool.not_eq_true', decide_eq_true_eq, decide_eq_false_iff_not] at made
  split at made
  · exact absurd made (by simp)
  · obtain ⟨representable, same, -⟩ := toInstant_of_fromInstant offsets made
    refine ⟨representable, ?_⟩
    have lower := representable.1
    unfold toUnix
    rw [same, instantToUnix_eq lower]
    unfold exactInstant at *
    constructor
    · intro back
      omega
    · intro fits
      have exact_ : wrapInt64 ((t + 62135683200) * 1000000 + usec) = (t + 62135683200) * 1000000 + usec := by
        rw [wrapInt64_eq]
        omega
      omega

theorem newFromTimeval_isSome (offsets : tz.SmallOffsets) (below : exactInstant t usec < minInt64) (micro : 0 ≤ usec)
    (representable : Representable tz (wrapInt64 (exactInstant t usec))) : ∃ dt, newFromTimeval tz t usec = some dt := by
  have latest : instantToUnix maxInt64 = 9161236353654 := by decide
  have low := minInt64_eq
  have high := maxInt64_eq
  unfold newFromTimeval unixToInstantIsValid
  rw [latest, unixToInstant_add, fromInstant_eq offsets, if_pos representable]
  simp only [Bool.or_eq_true, Bool.not_eq_true', decide_eq_true_eq, decide_eq_false_iff_not]
  unfold exactInstant at below
  rw [if_neg (by omega)]
  exact ⟨_, rfl⟩

/-- Comparing, equality, the difference and the hash of values with the same instants. -/
def OfInstants (a b a' b' : GDateTime) : Prop :=
  compare a b = compare a' b' ∧ equal a b = equal a' b' ∧ difference a b = difference a' b' ∧ hash a = hash a'

theorem ofInstants {a b a' b' : GDateTime} (first : toInstant a = toInstant a') (second : toInstant b = toInstant b') :
    OfInstants a b a' b' := by
  unfold OfInstants compare equal difference hash
  rw [first, second]
  exact ⟨rfl, rfl, rfl, rfl⟩

/-- Constructing a value from a Unix time, in seconds or as a `GTimeVal`, and reading it back. -/
def UnixTimesSurvive (tz : TimeZone) (t usec : Int) : Prop :=
  (∀ dt, newFromUnixSeconds tz t = some dt → toUnix dt = t) ∧ ∀ dt, newFromTimeval tz t usec = some dt → toUnix dt = t

/-- Instants survive the conversion between zones, and all comparisons are about instants; a Unix time survives
if its microseconds since the first day fit in 64 bits, and otherwise only if the wrapped number is refused. -/
theorem instants_iff (tz : TimeZone) (offsets : tz.SmallOffsets) (t usec : Int) (micro : 0 ≤ usec ∧ usec < 1000000) :
    (UnixTimesSurvive tz t usec ∧
      (∀ dt new, toTimezone dt tz = some new → toInstant new = toInstant dt) ∧
      (∀ a b a' b', toInstant a = toInstant a' → toInstant b = toInstant b' → OfInstants a b a' b') ∧
      (∀ a b, equal a b = true ↔ toInstant a = toInstant b) ∧
      (∀ a b c, difference a c = wrapInt64 (difference a b + difference b c)) ∧
      ∀ a b c : GDateTime, a.InCalendar → b.InCalendar → c.InCalendar →
        difference a c = difference a b + difference b c) ↔
      (minInt64 ≤ exactInstant t usec ∨ ¬Representable tz (wrapInt64 (exactInstant t usec))) := by
  constructor
  · rintro ⟨⟨-, timeval⟩, -⟩
    by_contra neither
    obtain ⟨below, representable⟩ := not_or.mp neither
    obtain ⟨dt, made⟩ := newFromTimeval_isSome offsets (Int.not_le.mp below) micro.1 (not_not.mp representable)
    exact below ((newFromTimeval_toUnix offsets micro made).2.mp (timeval dt made))
  · intro fits
    refine ⟨⟨fun dt => newFromUnixSeconds_toUnix offsets, fun dt made => ?_⟩, fun dt new converted => ?_,
      fun a b a' b' => ofInstants, equal_iff, difference_wraps, fun a b c first second third => ?_⟩
    · obtain ⟨representable, back⟩ := newFromTimeval_toUnix offsets micro made
      exact back.mpr (fits.resolve_right (not_not.mpr representable))
    · exact (toInstant_of_fromInstant offsets converted).2.1
    · rw [difference_eq first third, difference_eq first second, difference_eq second third]
      omega

/-- The zone of coordinated universal time. -/
def utc : TimeZone where
  tInfo := [{ gmtOffset := 0, isDst := false }]
  transitions := none
  some_info := List.cons_ne_nil _ _
  known := by decide
  times := by decide

theorem utc_smallOffsets : utc.SmallOffsets := by
  unfold TimeZone.SmallOffsets
  decide

/-- A zone of one hour before UTC, which had a summer of a million seconds from the thousandth second on. -/
def oneSummer : TimeZone where
  tInfo := [{ gmtOffset := 3600, isDst := false }, { gmtOffset := 7200, isDst := true }]
  transitions := some [{ time := 1000, infoIndex := 1 }, { time := 1001000, infoIndex := 0 }]
  some_info := List.cons_ne_nil _ _
  known := by decide
  times := by decide

/-- The seconds on both sides of the beginning of the summer, and its last microsecond. -/
theorem instants_iff_epoch :
    UnixTimesSurvive oneSummer 999 999999 ∧ UnixTimesSurvive oneSummer 1000 0 ∧ UnixTimesSurvive oneSummer 1000999 999999 := by
  have offsets : oneSummer.SmallOffsets := by
    unfold TimeZone.SmallOffsets
    decide
  exact ⟨((instants_iff oneSummer offsets 999 999999 (by decide)).mpr (Or.inl (by decide))).1,
    ((instants_iff oneSummer offsets 1000 0 (by decide)).mpr (Or.inl (by decide))).1,
    ((instants_iff oneSummer offsets 1000999 999999 (by decide)).mpr (Or.inl (by decide))).1⟩

/-- A time of more than half a million years before the epoch is taken for one in the year 1. -/
theorem timeval_wraps :
    (∃ dt, newFromTimeval utc (-18508879656909) 0 = some dt ∧ toUnix dt = -62135583200) ∧
      ¬UnixTimesSurvive utc (-18508879656909) 0 := by
  refine ⟨⟨{ usec := 13600551616, tz := utc, interval := 0, days := 1 }, rfl, by decide⟩, fun survive => ?_⟩
  exact absurd (survive.2 { usec := 13600551616, tz := utc, interval := 0, days := 1 } rfl) (by decide)

end Xpl.Time.DateTime
