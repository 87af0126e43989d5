import Xpl.Time.Adders
import Xpl.Time.CalendarAgreement

/-! ISO week dates. A week date is a day by the year of its Thursday, the number of that Thursday
in the year, and the weekday. -/

set_option autoImplicit false

namespace Xpl.Time.DateTime

open Xpl.Library

variable {past year month day number : Nat} {week weekDay ordinalDay hour minute : Int} {seconds : Seconds}

section IsoDate

/-- The day with the given week-numbering year, ISO week and weekday. -/
structure IsoDate (year week weekDay : Int) (number : Nat) : Prop where
  positive : 0 < number
  weekDay_eq : weekDay = weekday number
  thursday_in : ∃ y month day : Nat, ValidDay y month day ∧ dayNumber y month day = thursday number ∧
    year = y ∧ week = ((dayOfYear y month day - 1) / 7 + 1 : Nat)

/-- The weekday of the 4 January after the years up to `past`, counted from zero. -/
def jan4 (past : Nat) : Nat := (daysThrough past + 3) % 7

theorem jan4_lt (past : Nat) : jan4 past < 7 := Nat.mod_lt _ (by decide)

/-- The day of the year, which lies in the year before or after for some days of the first and last weeks. -/
def ordinalOf (past : Nat) (week weekDay : Int) : Int := week * 7 + weekDay - (jan4 past + 4)

theorem IsoDate.thursday (iso : IsoDate (past + 1 : Nat) week weekDay number) :
    week * 7 - jan4 past ≤ yearLength (past + 1) ∧ 1 ≤ week ∧ 1 ≤ weekDay ∧ weekDay ≤ 7 ∧
      (number : Int) = daysThrough past + ordinalOf past week weekDay := by
  obtain ⟨positive, weekDay_eq, y, month, day, valid, same, year_eq, week_eq⟩ := iso
  obtain rfl : past + 1 = y := by omega
  have first := valid.dayOfYear_pos
  have last := valid.dayOfYear_le
  rw [thursday_eq positive] at same
  unfold dayNumber at same
  unfold weekday at weekDay_eq
  unfold ordinalOf jan4
  rw [Nat.add_sub_cancel] at same
  omega

theorem isoDate_of (inYear : week * 7 - jan4 past ≤ yearLength (past + 1)) (some_ : 1 ≤ week) (first : 1 ≤ weekDay)
    (last : weekDay ≤ 7) (number_eq : (number : Int) = daysThrough past + ordinalOf past week weekDay) :
    IsoDate (past + 1 : Nat) week weekDay number := by
  have later : past = 0 ∨ 365 ≤ daysThrough past := by
    rcases Nat.eq_zero_or_pos past with first | after
    · exact .inl first
    · exact .inr (daysThrough_mono after)
  unfold ordinalOf jan4 at *
  have positive : 0 < number := by
    rcases later with rfl | later
    · -- the first day of the calendar is a Monday
      omega
    · omega
  have through : daysThrough (past + 1) = daysThrough past + yearLength (past + 1) := rfl
  have thursday_ := thursday_eq positive
  obtain ⟨month, day, valid, same⟩ := @exists_inYear (Library.thursday number) past (by omega) (by omega)
  refine ⟨positive, by unfold weekday; omega, past + 1, month, day, valid, same, rfl, ?_⟩
  unfold dayNumber at same
  rw [Nat.add_sub_cancel] at same
  omega

theorem isoDate_iff : IsoDate (past + 1 : Nat) week weekDay number ↔
    week * 7 - jan4 past ≤ yearLength (past + 1) ∧ 1 ≤ week ∧ 1 ≤ weekDay ∧ weekDay ≤ 7 ∧
      (number : Int) = daysThrough past + ordinalOf past week weekDay :=
  ⟨IsoDate.thursday, fun ⟨inYear, some_, first, last, same⟩ => isoDate_of inYear some_ first last same⟩

theorem IsoDate.year_pos {year : Int} (iso : IsoDate year week weekDay number) : ∃ past : Nat, year = (past + 1 : Nat) := by
  obtain ⟨-, -, y, -, -, ⟨positive, -⟩, -, rfl, -⟩ := iso
  exact ⟨y - 1, by omega⟩

theorem year_unique (valid : ValidDay year month day) (same : dayNumber year month day = number)
    (later : daysThrough past < number) (inside : number ≤ daysThrough (past + 1)) : year = past + 1 := by
  obtain ⟨month', day', valid', same'⟩ := exists_inYear later inside
  exact (dayNumber_injective valid valid' (same.trans same'.symm)).1

theorem exists_isoDate (valid : ValidDay year month day) :
    ∃ y week : Int, getWeekNumberingYear (dayNumber year month day) = some y ∧
      getWeekOfYear (dayNumber year month day) = some week ∧
      IsoDate y week (getDayOfWeek (dayNumber year month day)) (dayNumber year month day) := by
  have ymd := getYmd_spec valid
  have positive := valid.dayNumber_pos
  obtain ⟨week, ⟨y, m, d, valid', same, week_eq⟩, results⟩ := getWeekNumber_spec valid
  have dayOfWeek : getDayOfWeek (dayNumber year month day) = weekday (dayNumber year month day) := by
    unfold getDayOfWeek weekday
    rw [Int.tmod_eq_emod_of_nonneg (by omega)]
    omega
  refine ⟨y, week, ?_, ?_, positive, dayOfWeek, y, m, d, valid', same, rfl, by rw [week_eq]⟩
  · obtain ⟨past, rfl⟩ : ∃ past, year = past + 1 := ⟨year - 1, by have some_ := valid.1; omega⟩
    have thursday_ := thursday_eq positive
    have number : dayNumber (past + 1) month day = daysThrough past + (monthStart (past + 1) month + day) := rfl
    have through : daysThrough (past + 1) = daysThrough past + yearLength (past + 1) := rfl
    have doy_le := valid.dayOfYear_le
    unfold dayOfYear at doy_le
    obtain ⟨-, some_, few, firstDay, length⟩ := id valid
    unfold getWeekNumberingYear
    rw [ymd, dayOfWeek]
    obtain ⟨w, weekday_w⟩ : ∃ w, weekday (dayNumber (past + 1) month day) = w := ⟨_, rfl⟩
    rw [weekday_w]
    unfold weekday at weekday_w
    change (if (month : Int) = 1 ∧ (day : Int) - w ≤ -4 then some (((past + 1 : Nat) : Int) - 1)
      else if (month : Int) = 12 ∧ (day : Int) - w ≥ 28 then some (((past + 1 : Nat) : Int) + 1)
      else some ((past + 1 : Nat) : Int)) = some (y : Int)
    have december : monthStart (past + 1) 12 + 31 = yearLength (past + 1) := monthStart_end (past + 1)
    have early : month = 1 ∧ monthStart (past + 1) month = 0 ∨ 2 ≤ month ∧ 31 ≤ monthStart (past + 1) month := by
      rcases Nat.lt_or_ge month 2 with first | second
      · obtain rfl : month = 1 := by omega
        exact .inl ⟨rfl, rfl⟩
      · exact .inr ⟨second, monthStart_mono (past + 1) second⟩
    have late : month = 12 ∧ monthStart (past + 1) month = monthStart (past + 1) 12 ∨
        month < 12 ∧ monthStart (past + 1) month + day ≤ monthStart (past + 1) 12 := by
      rcases Nat.lt_or_ge month 12 with other | last
      · exact .inr ⟨other, Nat.le_trans valid.before (monthStart_mono (past + 1) other)⟩
      · obtain rfl : month = 12 := by omega
        exact .inl ⟨rfl, rfl⟩
    by_cases before : (month : Int) = 1 ∧ (day : Int) - w ≤ -4
    · rw [if_pos before]
      obtain ⟨p, rfl⟩ : ∃ p, past = p + 1 := by
        rcases Nat.eq_zero_or_pos past with rfl | after
        · have start : daysThrough 0 = 0 := rfl
          omega
        · exact ⟨past - 1, by omega⟩
      have through' : daysThrough (p + 1) = daysThrough p + (365 + leapDay (p + 1)) := rfl
      have year_eq := @year_unique p y m d _ valid' same (by omega) (by omega)
      congr 1
      omega
    · rw [if_neg before]
      by_cases after : (month : Int) = 12 ∧ (day : Int) - w ≥ 28
      · rw [if_pos after]
        have through' : daysThrough (past + 1 + 1) = daysThrough (past + 1) + (365 + leapDay (past + 1 + 1)) := rfl
        have year_eq := @year_unique (past + 1) y m d _ valid' same (by omega) (by omega)
        congr 1
        omega
      · rw [if_neg after]
        have year_eq := @year_unique past y m d _ valid' same (by omega) (by omega)
        rw [year_eq]
  · rw [getWeekOfYear, results]
    rfl

end IsoDate

section Constructors
variable {tz : TimeZone} {y : Int}

def TimeOfDay (hour minute : Int) (seconds : Seconds) : Prop :=
  0 ≤ hour ∧ hour ≤ 23 ∧ 0 ≤ minute ∧ minute ≤ 59 ∧ seconds.valid = true

instance (hour minute : Int) (seconds : Seconds) : Decidable (TimeOfDay hour minute seconds) :=
  inferInstanceAs (Decidable (_ ∧ _))

theorem newDateTime_year {m d : Int} (outside : y < 1 ∨ 9999 < y) :
    newDateTime tz y m d hour minute seconds = some none := by
  unfold newDateTime
  rw [if_pos]
  simp only [Bool.or_eq_true, decide_eq_true_eq]
  omega

theorem newDateTime_time {m d : Int} (outside : ¬TimeOfDay hour minute seconds) :
    newDateTime tz y m d hour minute seconds = some none := by
  unfold newDateTime
  rw [if_pos]
  unfold TimeOfDay at outside
  cases valid : seconds.valid with
  | false => simp
  | true =>
    simp only [Bool.or_eq_true, decide_eq_true_eq]
    simp only [valid, and_true] at outside
    omega

theorem newDateTime_utc (valid : ValidDay year month day) (below : year ≤ 9999) (time : TimeOfDay hour minute seconds) :
    ∃ dt, newDateTime utc year month day hour minute seconds = some (some dt) ∧ dt.days = dayNumber year month day := by
  obtain ⟨noEarlier, noLater, minutes, minutes', whole⟩ := time
  obtain ⟨secondsNonneg, secondsBelow⟩ := seconds.whole_range whole
  have number := ymdToDays_eq valid
  have last := valid.dayNumber_le
  have whole_ : daysThrough 9999 = 3652059 := daysThrough_eq 9999
  have bound := daysThrough_mono below
  obtain ⟨some_, first, few, firstDay, length⟩ := valid
  have table : entry daysInMonths (if gregorianLeap year = true then 1 else 0) month = monthLength year month := by
    simp only [gregorianLeap_iff]
    exact entry_months first few year
  have inside : ¬(((decide ((year : Int) < 1) || decide ((year : Int) > 9999) || decide ((month : Int) < 1) ||
      decide ((month : Int) > 12) || decide ((day : Int) < 1) ||
      decide ((day : Int) > entry daysInMonths (if gregorianLeap year then 1 else 0) month) ||
      decide (hour < 0) || decide (hour > 23) || decide (minute < 0) || decide (minute > 59) || !seconds.valid) = true)) := by
    rw [whole, table]
    simp only [Bool.or_eq_true, decide_eq_true_eq, Bool.not_true, Bool.false_eq_true, or_false]
    omega
  unfold newDateTime
  rw [if_neg inside]
  refine ⟨_, rfl, ?_⟩
  dsimp only
  rw [number]
  unfold secPerDay unixEpochStart secsPerHour secsPerMinute
  have total : wrapInt64 (86400 * ((dayNumber year month day : Int) - 719163) + 3600 * hour + 60 * minute + seconds.whole +
      719163 * 86400) = 86400 * dayNumber year month day + (3600 * hour + 60 * minute + seconds.whole) := by
    rw [wrapInt64_eq]
    omega
  rw [total, Int.tdiv_eq_ediv_of_nonneg (by omega), wrapInt32_eq]
  omega

theorem newOrdinal_utc (below : past < 9999) (time : TimeOfDay hour minute seconds) (first : 1 ≤ ordinalDay)
    (last : ordinalDay ≤ yearLength (past + 1)) :
    ∃ dt, newOrdinal utc (past + 1 : Nat) ordinalDay hour minute seconds = some (some dt) ∧
      dt.days = daysThrough past + ordinalDay := by
  have january : ValidDay (past + 1) 1 1 := ⟨Nat.succ_pos past, by decide, by decide, by decide, monthLength_pos _ _⟩
  obtain ⟨dt, made, days⟩ := newDateTime_utc january (by omega) time
  rw [dayNumber_first, Nat.add_sub_cancel] at days
  have inside : ¬((decide (ordinalDay < 1) ||
      decide (ordinalDay > if gregorianLeap ((past + 1 : Nat) : Int) = true then 366 else 365)) = true) := by
    simp only [Bool.or_eq_true, decide_eq_true_eq, gregorianLeap_iff]
    unfold yearLength leapDay at last
    split at last <;> rename_i leap <;> simp only [leap, if_true, if_false] <;> omega
  unfold newOrdinal
  rw [if_neg inside]
  rw [Nat.cast_one] at made
  rw [made]
  refine ⟨{ dt with days := dt.days + (ordinalDay - 1) }, rfl, ?_⟩
  dsimp only
  omega

theorem newOrdinal_zero : newOrdinal tz y 0 hour minute seconds = some none := rfl

theorem newOrdinal_none (refused : newDateTime tz y 1 1 hour minute seconds = some none) :
    newOrdinal tz y ordinalDay hour minute seconds = some none := by
  unfold newOrdinal
  rw [refused]
  by_cases outside : (decide (ordinalDay < 1) || decide (ordinalDay > if gregorianLeap y = true then 366 else 365)) = true
  · rw [if_pos outside]
  · rw [if_neg outside]
    rfl

/-- The last week that `newWeek` accepts. -/
theorem maxWeek_eq (below : past < 9999) :
    (wrapInt32 (wrapInt32 (((past + 1 : Nat) : Int) * 365) + ((past + 1 : Nat) : Int).tdiv 4 -
      ((past + 1 : Nat) : Int).tdiv 100 + ((past + 1 : Nat) : Int).tdiv 400)).tmod 7 = (daysThrough (past + 1) % 7 : Nat) := by
  have more : daysThrough (past + 1) ≥ 365 * (past + 1) := by
    rw [daysThrough_eq]
    omega
  have leaps := leapYearsTo_eq (past + 1)
  unfold leapYearsTo at leaps
  have whole_ : daysThrough 9999 = 3652059 := daysThrough_eq 9999
  have bound := daysThrough_mono (show past + 1 ≤ 9999 from below)
  have product : wrapInt32 (((past + 1 : Nat) : Int) * 365) = ((past + 1 : Nat) : Int) * 365 :=
    wrapTo_of_fits ⟨by omega, by omega⟩
  have total : ((past + 1 : Nat) : Int) * 365 + ((past + 1 : Nat) : Int).tdiv 4 - ((past + 1 : Nat) : Int).tdiv 100 +
      ((past + 1 : Nat) : Int).tdiv 400 = daysThrough (past + 1) := by
    omega
  have sum : wrapInt32 (daysThrough (past + 1) : Int) = daysThrough (past + 1) := wrapTo_of_fits ⟨by omega, by omega⟩
  rw [product, total, sum, Int.tmod_eq_emod_of_nonneg (by omega)]
  omega

theorem jan4_weekday : (getWeekNumber (dayNumber (past + 1) 1 4)).map WeekNumber.dayOfWeek = some (jan4 past + 1 : Int) := by
  have valid : ValidDay (past + 1) 1 4 := ⟨Nat.succ_pos past, by decide, by decide, by decide, (by decide : 4 ≤ 31)⟩
  obtain ⟨_, -, results⟩ := getWeekNumber_spec valid
  rw [results]
  rfl

/-- The weeks and weekdays that `newWeek` looks at. -/
def Accepted (past : Nat) (week weekDay : Int) : Prop :=
  1 ≤ week ∧ week ≤ (if daysThrough (past + 1) % 7 = 4 then 53 else 52) ∧ 1 ≤ weekDay ∧ weekDay ≤ 7

/-- The ordinal day of the year, or of the year before or after. -/
def newSpilled (tz : TimeZone) (year ordinalDay hour minute : Int) (seconds : Seconds) : Option (Option GDateTime) :=
  let yearLength := fun year => if gregorianLeap year then 366 else 365
  if ordinalDay < 0 then newOrdinal tz (year - 1) (ordinalDay + yearLength (year - 1)) hour minute seconds
  else if ordinalDay > yearLength year then newOrdinal tz (year + 1) (ordinalDay - yearLength year) hour minute seconds
  else newOrdinal tz year ordinalDay hour minute seconds

theorem newWeek_refused (below : past < 9999) (refused : ¬Accepted past week weekDay) :
    newWeek utc (past + 1 : Nat) week weekDay hour minute seconds = some none := by
  unfold newWeek
  rw [if_pos]
  rw [maxWeek_eq below]
  unfold Accepted at refused
  simp only [Bool.or_eq_true, decide_eq_true_eq]
  split at refused <;> rename_i last
  · rw [if_pos (by omega)]
    omega
  · rw [if_neg (by omega)]
    omega

theorem newWeek_accepted (below : past < 9999) (accepted : Accepted past week weekDay) :
    newWeek utc (past + 1 : Nat) week weekDay hour minute seconds =
      newSpilled utc (past + 1 : Nat) (ordinalOf past week weekDay) hour minute seconds := by
  have valid : ValidDay (past + 1) 1 4 := ⟨Nat.succ_pos past, by decide, by decide, by decide, (by decide : 4 ≤ 31)⟩
  obtain ⟨dt, made, days⟩ := newDateTime_utc valid below (show TimeOfDay 0 0 Seconds.zero by decide)
  obtain ⟨_, -, results⟩ := getWeekNumber_spec valid
  have january := @jan4_weekday past
  unfold newWeek
  rw [if_neg]
  · rw [Nat.cast_one] at made
    have made' : newDateTime utc (past + 1 : Nat) 1 4 0 0 Seconds.zero = some (some dt) := made
    rw [made']
    simp only [some_bind]
    rw [days, results]
    have same : week * 7 + weekDay - ((jan4 past : Int) + 1 + 3) = ordinalOf past week weekDay := by
      unfold ordinalOf
      omega
    rfl
  · rw [maxWeek_eq below]
    unfold Accepted at accepted
    simp only [Bool.or_eq_true, decide_eq_true_eq]
    split at accepted <;> rename_i last
    · rw [if_pos (by omega)]
      omega
    · rw [if_neg (by omega)]
      omega

theorem le_yearLength (year : Nat) : 365 ≤ yearLength year := Nat.le_add_right _ _

theorem yearLength_eq (year : Nat) : (if gregorianLeap (year : Int) then 366 else 365 : Int) = yearLength year := by
  unfold yearLength leapDay
  simp only [gregorianLeap_iff]
  split <;> rfl

theorem ordinalOf_bounds (accepted : Accepted past week weekDay) :
    -2 ≤ ordinalOf past week weekDay ∧ ordinalOf past week weekDay ≤ 374 ∧ (past = 0 → 1 ≤ ordinalOf past week weekDay) := by
  obtain ⟨first, last, first', last'⟩ := accepted
  have few : week ≤ 53 := by
    split at last <;> omega
  unfold ordinalOf jan4
  refine ⟨by omega, by omega, ?_⟩
  rintro rfl
  have start : daysThrough 0 = 0 := rfl
  omega

theorem newSpilled_eq (tz : TimeZone) (past : Nat) :
    newSpilled tz (past + 1 : Nat) ordinalDay hour minute seconds =
      if ordinalDay < 0 then newOrdinal tz past (ordinalDay + yearLength past) hour minute seconds
      else if ordinalDay > yearLength (past + 1) then
        newOrdinal tz (past + 1 + 1 : Nat) (ordinalDay - yearLength (past + 1)) hour minute seconds
      else newOrdinal tz (past + 1 : Nat) ordinalDay hour minute seconds := by
  have before : ((past + 1 : Nat) : Int) - 1 = past := by omega
  unfold newSpilled
  simp only [before, yearLength_eq]
  rfl

/-- The day 0 of a year is refused, though it is the last of the year before. -/
theorem newSpilled_none (below : past < 9999) (most : ordinalDay ≤ 374)
    (outside : ordinalDay = 0 ∨ 3652059 < daysThrough past + ordinalDay) :
    newSpilled utc (past + 1 : Nat) ordinalDay hour minute seconds = some none := by
  have whole_ : daysThrough 9999 = 3652059 := daysThrough_eq 9999
  have through : daysThrough (past + 1) = daysThrough past + yearLength (past + 1) := rfl
  have bound := daysThrough_mono (show past + 1 ≤ 9999 from below)
  rw [newSpilled_eq]
  rcases outside with rfl | beyond
  · rw [if_neg (by omega), if_neg (by omega)]
    exact newOrdinal_zero
  · have last : past = 9998 := by
      by_contra other
      have bound' := daysThrough_mono (show past + 1 + 1 ≤ 9999 by omega)
      have through' : daysThrough (past + 1 + 1) = daysThrough (past + 1) + yearLength (past + 1 + 1) := rfl
      have long := le_yearLength (past + 1)
      have long' := le_yearLength (past + 1 + 1)
      omega
    subst last
    rw [if_neg (by omega), if_pos (by omega)]
    exact newOrdinal_none (newDateTime_year (.inr (by decide)))

theorem newSpilled_some (below : past < 9999) (time : TimeOfDay hour minute seconds) (least : -2 ≤ ordinalDay)
    (most : ordinalDay ≤ 374) (first : past = 0 → 1 ≤ ordinalDay) (notZero : ordinalDay ≠ 0)
    (inside : daysThrough past + ordinalDay ≤ 3652059) :
    ∃ dt, newSpilled utc (past + 1 : Nat) ordinalDay hour minute seconds = some (some dt) ∧
      dt.days = daysThrough past + ordinalDay := by
  have whole_ : daysThrough 9999 = 3652059 := daysThrough_eq 9999
  have through : daysThrough (past + 1) = daysThrough past + yearLength (past + 1) := rfl
  have long := le_yearLength (past + 1)
  rw [newSpilled_eq]
  by_cases negative : ordinalDay < 0
  · -- a day of the year before
    obtain ⟨p, rfl⟩ : ∃ p, past = p + 1 := ⟨past - 1, by omega⟩
    have through' : daysThrough (p + 1) = daysThrough p + yearLength (p + 1) := rfl
    have long' := le_yearLength (p + 1)
    rw [if_pos negative]
    obtain ⟨dt, made, days⟩ := @newOrdinal_utc p (ordinalDay + yearLength (p + 1)) _ _ _ (by omega) time (by omega) (by omega)
    exact ⟨dt, made, by omega⟩
  · rw [if_neg negative]
    by_cases beyond : ordinalDay > yearLength (past + 1)
    · -- a day of the year after, which is not the year 10000
      have earlier : past + 1 < 9999 := by
        by_contra last
        obtain rfl : past = 9998 := by omega
        have last_ : daysThrough (9998 + 1) = 3652059 := whole_
        omega
      have long' := le_yearLength (past + 1 + 1)
      rw [if_pos beyond]
      obtain ⟨dt, made, days⟩ :=
        @newOrdinal_utc (past + 1) (ordinalDay - yearLength (past + 1)) _ _ _ earlier time (by omega) (by omega)
      exact ⟨dt, made, by omega⟩
    · rw [if_neg beyond]
      exact newOrdinal_utc below time (by omega) (by omega)

end Constructors

section Agreement

/-- What is asked of `newWeek` for one week date and a time of day: the value on that day, and NULL if there is no such day
from 0001-01-01 to 9999-12-31. -/
def WeekDateExact (year week weekDay hour minute : Int) (seconds : Seconds) : Prop :=
  ∃ result, newWeek utc year week weekDay hour minute seconds = some result ∧
    (result = none ↔ ¬(TimeOfDay hour minute seconds ∧ ∃ number ≤ 3652059, IsoDate year week weekDay number)) ∧
    ∀ number dt, IsoDate year week weekDay number → result = some dt → dt.days = number

def DayReturns (number : Nat) (hour minute : Int) (seconds : Seconds) : Prop :=
  ∃ year week dt, getWeekNumberingYear number = some year ∧ getWeekOfYear number = some week ∧
    newWeek utc year week (getDayOfWeek number) hour minute seconds = some (some dt) ∧ dt.days = number

/-- The weekday of the first of January. -/
def newYearsDay (year : Int) : Nat := weekday (dayNumber year.toNat 1 1)

/-- The dates that are refused: a 31 December that lies in the first week of the year after, and the last week of
a leap year that begins on a Thursday. -/
def Missed (year week weekDay : Int) : Prop :=
  1 ≤ year ∧ year ≤ 9999 ∧ 1 ≤ weekDay ∧ weekDay ≤ 7 ∧
    (week = 1 ∧ weekDay ≤ 3 ∧ newYearsDay year = weekDay + 1 ∨
      week = 53 ∧ Leap year.toNat ∧ newYearsDay year = 4)

instance (year week weekDay : Int) : Decidable (Missed year week weekDay) := inferInstanceAs (Decidable (_ ∧ _))

theorem missed_iff (below : past < 9999) : Missed (past + 1 : Nat) week weekDay ↔
    1 ≤ weekDay ∧ weekDay ≤ 7 ∧ (week = 1 ∧ ordinalOf past week weekDay = 0 ∨
      week = 53 ∧ Leap (past + 1) ∧ jan4 past = 6) := by
  have year : ((past + 1 : Nat) : Int).toNat = past + 1 := rfl
  have number : dayNumber (past + 1) 1 1 = daysThrough past + 1 := rfl
  unfold Missed newYearsDay ordinalOf jan4 weekday
  rw [year, number]
  constructor
  · rintro ⟨-, -, first, last, missed⟩
    refine ⟨first, last, ?_⟩
    rcases missed with ⟨week_eq, early, same⟩ | ⟨week_eq, leap, same⟩
    · exact .inl ⟨week_eq, by omega⟩
    · exact .inr ⟨week_eq, leap, by omega⟩
  · rintro ⟨first, last, missed⟩
    refine ⟨by omega, by omega, first, last, ?_⟩
    rcases missed with ⟨week_eq, same⟩ | ⟨week_eq, leap, same⟩
    · exact .inl ⟨week_eq, by omega, by omega⟩
    · exact .inr ⟨week_eq, leap, by omega⟩

theorem newWeek_none_of {year : Int} (refused : ¬TimeOfDay hour minute seconds ∨ year < 1 ∨ 9999 < year) :
    newWeek utc year week weekDay hour minute seconds = some none := by
  by_cases outside : year < 1 ∨ 9999 < year
  · unfold newWeek
    rw [newDateTime_year outside]
    exact ite_eq_left_iff.mpr fun _ => rfl
  · have time := refused.resolve_right outside
    obtain ⟨past, rfl⟩ : ∃ past : Nat, year = (past + 1 : Nat) := ⟨(year - 1).toNat, by omega⟩
    by_cases accepted : Accepted past week weekDay
    · rw [newWeek_accepted (by omega) accepted, newSpilled_eq]
      split
      · exact newOrdinal_none (newDateTime_time time)
      · split
        · exact newOrdinal_none (newDateTime_time time)
        · exact newOrdinal_none (newDateTime_time time)
    · exact newWeek_refused (by omega) accepted

theorem IsoDate.beyond {year : Int} (iso : IsoDate year week weekDay number) (late : 9999 < year) : 3652059 < number := by
  obtain ⟨past, rfl⟩ := iso.year_pos
  obtain ⟨-, some_, first, last, number_eq⟩ := isoDate_iff.mp iso
  have whole_ : daysThrough 9999 = 3652059 := daysThrough_eq 9999
  unfold ordinalOf jan4 at number_eq
  rcases Nat.lt_or_ge 9999 past with after | same
  · have next : daysThrough 10000 = 3652425 := daysThrough_eq 10000
    have bound := daysThrough_mono (show 10000 ≤ past by omega)
    omega
  · obtain rfl : past = 9999 := by omega
    omega

theorem accepted_iff : Accepted past week weekDay ↔
    (week * 7 - jan4 past ≤ yearLength (past + 1) ∧ 1 ≤ week ∧ 1 ≤ weekDay ∧ weekDay ≤ 7) ∧
      ¬(week = 53 ∧ Leap (past + 1) ∧ jan4 past = 6) := by
  have through : daysThrough (past + 1) = daysThrough past + yearLength (past + 1) := rfl
  unfold Accepted jan4
  unfold yearLength leapDay at *
  by_cases leap : Leap (past + 1)
  · rw [if_pos leap] at *
    simp only [leap, true_and]
    split <;> omega
  · rw [if_neg leap] at *
    simp only [leap, false_and, and_false, not_false_eq_true, and_true]
    split <;> omega

theorem exists_isoDate_iff : (∃ number ≤ 3652059, IsoDate (past + 1 : Nat) week weekDay number) ↔
    (week * 7 - jan4 past ≤ yearLength (past + 1) ∧ 1 ≤ week ∧ 1 ≤ weekDay ∧ weekDay ≤ 7) ∧
      daysThrough past + ordinalOf past week weekDay ≤ 3652059 := by
  constructor
  · rintro ⟨number, inside, iso⟩
    obtain ⟨inYear, some_, first, last, number_eq⟩ := isoDate_iff.mp iso
    exact ⟨⟨inYear, some_, first, last⟩, by omega⟩
  · rintro ⟨⟨inYear, some_, first, last⟩, inside⟩
    have nonneg : 0 ≤ daysThrough past + ordinalOf past week weekDay := by
      rcases Nat.eq_zero_or_pos past with rfl | after
      · have start : daysThrough 0 = 0 := rfl
        unfold ordinalOf jan4
        omega
      · have later := daysThrough_mono (show 1 ≤ past from after)
        have start : daysThrough 1 = 365 := rfl
        have small := jan4_lt past
        unfold ordinalOf
        omega
    refine ⟨(daysThrough past + ordinalOf past week weekDay).toNat, by omega, ?_⟩
    exact isoDate_of inYear some_ first last (by omega)

/-- A missed date lies in the calendar. -/
theorem missed_inside (below : past < 9999) (missed : Missed (past + 1 : Nat) week weekDay) :
    (week * 7 - jan4 past ≤ yearLength (past + 1) ∧ 1 ≤ week ∧ 1 ≤ weekDay ∧ weekDay ≤ 7) ∧
      daysThrough past + ordinalOf past week weekDay ≤ 3652059 := by
  have whole_ : daysThrough 9999 = 3652059 := daysThrough_eq 9999
  have through : daysThrough (past + 1) = daysThrough past + yearLength (past + 1) := rfl
  have bound := daysThrough_mono (show past + 1 ≤ 9999 from below)
  have long := le_yearLength (past + 1)
  obtain ⟨first, last, ⟨rfl, zero⟩ | ⟨rfl, leap, january⟩⟩ := (missed_iff below).mp missed
  · exact ⟨⟨by omega, by omega, first, last⟩, by omega⟩
  · have length : yearLength (past + 1) = 366 := by
      unfold yearLength leapDay
      rw [if_pos leap]
    have earlier : past + 1 + 1 ≤ 9999 := by
      by_contra last
      obtain rfl : past = 9998 := by omega
      exact absurd leap.1 (by decide)
    have bound' := daysThrough_mono earlier
    have through' : daysThrough (past + 1 + 1) = daysThrough (past + 1) + yearLength (past + 1 + 1) := rfl
    have long' := le_yearLength (past + 1 + 1)
    unfold ordinalOf
    omega

/-- In the years of the calendar, `newWeek` finds the dates that exist and are not missed. -/
theorem newWeek_spec (below : past < 9999) (time : TimeOfDay hour minute seconds)
    (result : Option (Option GDateTime)) (run : newWeek utc (past + 1 : Nat) week weekDay hour minute seconds = result) :
    if ((week * 7 - jan4 past ≤ yearLength (past + 1) ∧ 1 ≤ week ∧ 1 ≤ weekDay ∧ weekDay ≤ 7) ∧
        daysThrough past + ordinalOf past week weekDay ≤ 3652059) ∧ ¬Missed (past + 1 : Nat) week weekDay then
      ∃ dt, result = some (some dt) ∧ dt.days = daysThrough past + ordinalOf past week weekDay
    else result = some none := by
  subst run
  have accepts := @accepted_iff past week weekDay
  have misses := @missed_iff past week weekDay below
  by_cases accepted : Accepted past week weekDay
  · obtain ⟨exists_, notLong⟩ := accepts.mp accepted
    obtain ⟨least, most, first⟩ := ordinalOf_bounds accepted
    rw [newWeek_accepted below accepted]
    by_cases zero : ordinalOf past week weekDay = 0
    · have week_eq : week = 1 := by
        unfold ordinalOf at zero
        have small := jan4_lt past
        omega
      rw [if_neg fun both => both.2 (misses.mpr ⟨exists_.2.2.1, exists_.2.2.2, .inl ⟨week_eq, zero⟩⟩)]
      exact newSpilled_none below most (.inl zero)
    · have notMissed : ¬Missed (past + 1 : Nat) week weekDay := by
        intro missed
        obtain ⟨-, -, ⟨-, same⟩ | long⟩ := misses.mp missed
        · exact zero same
        · exact notLong long
      by_cases inside : daysThrough past + ordinalOf past week weekDay ≤ 3652059
      · rw [if_pos ⟨⟨exists_, inside⟩, notMissed⟩]
        exact newSpilled_some below time least most first zero inside
      · rw [if_neg fun both => inside both.1.2]
        exact newSpilled_none below most (.inr (by omega))
  · have refused : ¬(((week * 7 - jan4 past ≤ yearLength (past + 1) ∧ 1 ≤ week ∧ 1 ≤ weekDay ∧ weekDay ≤ 7) ∧
        daysThrough past + ordinalOf past week weekDay ≤ 3652059) ∧ ¬Missed (past + 1 : Nat) week weekDay) := by
      rintro ⟨⟨exists_, -⟩, notMissed⟩
      exact accepted (accepts.mpr ⟨exists_, fun long =>
        notMissed (misses.mpr ⟨exists_.2.2.1, exists_.2.2.2, .inr long⟩)⟩)
    rw [if_neg refused]
    exact newWeek_refused below accepted

theorem weekDateExact_iff (year week weekDay hour minute : Int) (seconds : Seconds) :
    WeekDateExact year week weekDay hour minute seconds ↔
      (TimeOfDay hour minute seconds → ¬Missed year week weekDay) := by
  by_cases time : TimeOfDay hour minute seconds
  · by_cases inYears : 1 ≤ year ∧ year ≤ 9999
    · obtain ⟨past, rfl⟩ : ∃ past : Nat, year = (past + 1 : Nat) := ⟨(year - 1).toNat, by omega⟩
      have below : past < 9999 := by omega
      have spec := newWeek_spec below time _ (@rfl _ (newWeek utc (past + 1 : Nat) week weekDay hour minute seconds))
      have dates := @exists_isoDate_iff past week weekDay
      by_cases missed : Missed (past + 1 : Nat) week weekDay
      · rw [if_neg fun both => both.2 missed] at spec
        refine iff_of_false ?_ fun none_ => none_ time missed
        rintro ⟨result, same, none_, -⟩
        rw [spec] at same
        exact none_.mp (Option.some.inj same).symm ⟨time, dates.mpr (missed_inside below missed)⟩
      · refine iff_of_true ?_ fun _ => missed
        by_cases inside : ∃ number ≤ 3652059, IsoDate (past + 1 : Nat) week weekDay number
        · rw [if_pos ⟨dates.mp inside, missed⟩] at spec
          obtain ⟨dt, made, days⟩ := spec
          refine ⟨some dt, made, iff_of_false nofun fun outside => outside ⟨time, inside⟩, fun number dt' iso same => ?_⟩
          obtain rfl := Option.some.inj same
          rw [days, (isoDate_iff.mp iso).2.2.2.2]
        · rw [if_neg fun both => inside (dates.mpr both.1)] at spec
          exact ⟨none, spec, iff_of_true rfl fun both => inside both.2, nofun⟩
    · -- no year of the calendar
      have result := @newWeek_none_of week weekDay hour minute seconds year (.inr (by omega))
      refine ⟨fun _ _ missed => inYears ⟨missed.1, missed.2.1⟩, fun _ => ⟨none, result, ?_, nofun⟩⟩
      refine iff_of_true rfl ?_
      rintro ⟨-, number, inside, iso⟩
      obtain ⟨past, rfl⟩ := iso.year_pos
      have beyond := iso.beyond (by omega)
      omega
  · refine iff_of_true ⟨none, newWeek_none_of (.inl time), ?_, nofun⟩ fun time' => absurd time' time
    exact iff_of_true rfl fun both => time both.1

theorem IsoDate.unique {year year' week' weekDay' : Int} (iso : IsoDate year week weekDay number)
    (iso' : IsoDate year' week' weekDay' number) : year = year' ∧ week = week' ∧ weekDay = weekDay' := by
  obtain ⟨-, weekDay_eq, y, m, d, valid, same, rfl, rfl⟩ := iso
  obtain ⟨-, weekDay_eq', y', m', d', valid', same', rfl, rfl⟩ := iso'
  obtain ⟨rfl, rfl, rfl⟩ := dayNumber_injective valid valid' (same.trans same'.symm)
  exact ⟨rfl, rfl, weekDay_eq.trans weekDay_eq'.symm⟩

theorem IsoDate.number_unique {year : Int} {number' : Nat} (iso : IsoDate year week weekDay number)
    (iso' : IsoDate year week weekDay number') : number = number' := by
  obtain ⟨past, rfl⟩ := iso.year_pos
  have first := (isoDate_iff.mp iso).2.2.2.2
  have second := (isoDate_iff.mp iso').2.2.2.2
  omega

theorem dayReturns_iff (valid : ValidDay year month day) (below : year ≤ 9999) :
    DayReturns (dayNumber year month day) hour minute seconds ↔
      TimeOfDay hour minute seconds ∧
        ¬∃ y week weekDay, IsoDate y week weekDay (dayNumber year month day) ∧ Missed y week weekDay := by
  obtain ⟨y, week, sameYear, sameWeek, iso⟩ := exists_isoDate valid
  have whole_ : daysThrough 9999 = 3652059 := daysThrough_eq 9999
  have last := valid.dayNumber_le
  have bound := daysThrough_mono below
  have exact_ := weekDateExact_iff y week (getDayOfWeek (dayNumber year month day)) hour minute seconds
  constructor
  · rintro ⟨y', week', dt, year_eq, week_eq, made, days⟩
    obtain rfl := Option.some.inj (sameYear.symm.trans year_eq)
    obtain rfl := Option.some.inj (sameWeek.symm.trans week_eq)
    have time : TimeOfDay hour minute seconds := by
      by_contra outside
      rw [newWeek_none_of (.inl outside)] at made
      exact absurd (Option.some.inj made) nofun
    refine ⟨time, ?_⟩
    rintro ⟨y'', week'', weekDay'', iso', missed⟩
    obtain ⟨rfl, rfl, rfl⟩ := iso'.unique iso
    refine exact_.mp ⟨some dt, made, ?_, fun number dt' iso'' same => ?_⟩ time missed
    · exact iff_of_false nofun fun outside => outside ⟨time, _, by omega, iso⟩
    · obtain rfl := Option.some.inj same
      rw [days, iso.number_unique iso'']
  · rintro ⟨time, notMissed⟩
    obtain ⟨result, made, none_, days⟩ := exact_.mpr fun _ missed => notMissed ⟨y, week, _, iso, missed⟩
    cases result with
    | none => exact absurd ⟨time, _, by omega, iso⟩ (none_.mp rfl)
    | some dt => exact ⟨y, week, dt, sameYear, sameWeek, made, days _ dt iso rfl⟩

/-- The week dates that are made exactly, and the days that come back. -/
theorem weekDates_iff (hour minute : Int) (seconds : Seconds) :
    (∀ year month day : Nat, ValidDay year month day → year ≤ 9999 →
      (DayReturns (dayNumber year month day) hour minute seconds ↔
        TimeOfDay hour minute seconds ∧
          ¬∃ y week weekDay, IsoDate y week weekDay (dayNumber year month day) ∧ Missed y week weekDay)) ∧
      ∀ year week weekDay : Int, WeekDateExact year week weekDay hour minute seconds ↔
        (TimeOfDay hour minute seconds → ¬Missed year week weekDay) :=
  ⟨fun _ _ _ valid below => dayReturns_iff valid below,
    fun year week weekDay => weekDateExact_iff year week weekDay hour minute seconds⟩

/-- Wednesday of the fifth week of 2024, at noon. -/
theorem weekDates_iff_noon : WeekDateExact 2024 5 3 12 0 Seconds.zero :=
  ((weekDates_iff 12 0 Seconds.zero).2 2024 5 3).mpr fun _ => by
    have notFirst : ¬((5 : Int) = 1) := by decide
    have notLast : ¬((5 : Int) = 53) := by decide
    rintro ⟨-, -, -, -, ⟨first, -⟩ | ⟨last, -⟩⟩
    · exact notFirst first
    · exact notLast last

/-- Monday, 27 December 2004, begins the week 53, and Monday, 31 December 2018, the first week of 2019. -/
theorem weekDates_missed :
    ¬WeekDateExact 2004 53 1 0 0 Seconds.zero ∧ ¬DayReturns (dayNumber 2018 12 31) 0 0 Seconds.zero := by
  have refused : ∀ made : Option (Option GDateTime), made.map Option.isNone = some true → made = some none := by
    rintro (_ | _ | _) none_
    · cases none_
    · rfl
    · cases none_
  have first : newWeek utc 2019 1 1 0 0 Seconds.zero = some none := refused _ (by decide +kernel)
  have number : dayNumber 2018 12 31 = 737059 := by
    decide +kernel
  have thursday_ : dayNumber 2004 12 30 = 731945 := by
    decide +kernel
  constructor
  · rintro ⟨result, made, none_, -⟩
    refine none_.mp (Option.some.inj made).symm ⟨by decide +kernel, 731942, by decide +kernel, ?_⟩
    exact ⟨by decide, by decide +kernel, 2004, 12, 30, by decide, thursday_, rfl, by decide +kernel⟩
  · rintro ⟨year, week, dt, sameYear, sameWeek, made, -⟩
    rw [number] at sameYear sameWeek made
    obtain rfl : 2019 = year := Option.some.inj sameYear
    obtain rfl : 1 = week := Option.some.inj sameWeek
    exact absurd (Option.some.inj (first.symm.trans made)) nofun

end Agreement

end Xpl.Time.DateTime
