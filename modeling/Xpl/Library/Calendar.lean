import Mathlib.Data.Nat.ModEq
import Mathlib.Tactic.IntervalCases

/-! The proleptic Gregorian calendar from 1 January of year 1 on. Days are numbered
from 1 by adding up the lengths of the years and months before them; the closed
formulas that programs use are theorems about this numbering. -/

set_option autoImplicit false

namespace Xpl.Library

def Leap (year : Nat) : Prop := year % 4 = 0 ∧ (year % 100 = 0 → year % 400 = 0)

instance (year : Nat) : Decidable (Leap year) := inferInstanceAs (Decidable (_ ∧ _))

def leapDay (year : Nat) : Nat := if Leap year then 1 else 0

def yearLength (year : Nat) : Nat := 365 + leapDay year

def monthLength (year month : Nat) : Nat :=
  if month = 2 then 28 + leapDay year else if month = 4 ∨ month = 6 ∨ month = 9 ∨ month = 11 then 30 else 31

/-- The days of the years up to and including the given one. -/
def daysThrough : Nat → Nat
  | 0 => 0
  | year + 1 => daysThrough year + yearLength (year + 1)

/-- The days of a year before the first of the given month. -/
def monthStart (year : Nat) : Nat → Nat
  | 0 => 0
  | 1 => 0
  | month + 2 => monthStart year (month + 1) + monthLength year (month + 1)

def ValidDay (year month day : Nat) : Prop :=
  0 < year ∧ 0 < month ∧ month ≤ 12 ∧ 0 < day ∧ day ≤ monthLength year month

instance (year month day : Nat) : Decidable (ValidDay year month day) := inferInstanceAs (Decidable (_ ∧ _))

def dayOfYear (year month day : Nat) : Nat := monthStart year month + day

def dayNumber (year month day : Nat) : Nat := daysThrough (year - 1) + dayOfYear year month day

/-- The first day of the calendar is a Monday, the first day of the week. -/
def weekday (number : Nat) : Nat := (number - 1) % 7 + 1

theorem leapDay_le (year : Nat) : leapDay year ≤ 1 := by
  unfold leapDay
  split
  · exact le_refl 1
  · exact Nat.zero_le 1

theorem daysThrough_eq (year : Nat) : daysThrough year = 365 * year + year / 4 - year / 100 + year / 400 := by
  induction year with
  | zero => rfl
  | succ year ih =>
    rw [daysThrough, ih, yearLength, leapDay]
    split
    · rename_i leap
      obtain ⟨fourth, century⟩ := leap
      omega
    · rename_i common
      have apart : (year + 1) % 4 ≠ 0 ∨ (year + 1) % 100 = 0 ∧ (year + 1) % 400 ≠ 0 := by
        by_contra neither
        exact common ⟨by omega, by omega⟩
      omega

theorem daysThrough_mono : Monotone daysThrough :=
  monotone_nat_of_le_succ fun _ => Nat.le_add_right _ _

theorem monthStart_succ {month : Nat} (year : Nat) (positive : 0 < month) :
    monthStart year (month + 1) = monthStart year month + monthLength year month := by
  cases month with
  | zero => exact absurd positive (Nat.lt_irrefl 0)
  | succ month => rfl

theorem monthStart_mono (year : Nat) : Monotone (monthStart year) := by
  refine monotone_nat_of_le_succ fun month => ?_
  cases month with
  | zero => exact le_refl 0
  | succ month => exact Nat.le_add_right _ _

theorem monthStart_end (year : Nat) : monthStart year 13 = yearLength year := by
  have common : ∀ extra, 0 + 31 + (28 + extra) + 31 + 30 + 31 + 30 + 31 + 31 + 30 + 31 + 30 + 31 = 365 + extra := by
    intro extra
    omega
  exact common (leapDay year)

theorem monthLength_pos (year month : Nat) : 0 < monthLength year month := by
  unfold monthLength
  split
  · omega
  · split <;> omega

theorem monthLength_le (year month : Nat) : monthLength year month ≤ 31 := by
  have extra := leapDay_le year
  unfold monthLength
  split
  · omega
  · split <;> omega

section ValidDay

variable {year month day year' month' day' : Nat}

theorem ValidDay.before (valid : ValidDay year month day) : dayOfYear year month day ≤ monthStart year (month + 1) := by
  obtain ⟨_, positive, _, _, inside⟩ := valid
  rw [monthStart_succ year positive]
  exact Nat.add_le_add_left inside _

theorem ValidDay.dayOfYear_pos (valid : ValidDay year month day) : 0 < dayOfYear year month day :=
  Nat.add_pos_right _ valid.2.2.2.1

theorem ValidDay.dayOfYear_le (valid : ValidDay year month day) : dayOfYear year month day ≤ yearLength year :=
  calc dayOfYear year month day ≤ monthStart year (month + 1) := valid.before
    _ ≤ monthStart year 13 := monthStart_mono year (Nat.succ_le_succ valid.2.2.1)
    _ = yearLength year := monthStart_end year

theorem ValidDay.dayNumber_pos (valid : ValidDay year month day) : 0 < dayNumber year month day :=
  Nat.add_pos_right _ valid.dayOfYear_pos

theorem ValidDay.dayNumber_le (valid : ValidDay year month day) : dayNumber year month day ≤ daysThrough year := by
  obtain ⟨past, rfl⟩ : ∃ past, year = past + 1 := ⟨year - 1, by have positive := valid.1; omega⟩
  exact Nat.add_le_add_left valid.dayOfYear_le _

theorem dayNumber_lt_of_year (valid : ValidDay year month day) (valid' : ValidDay year' month' day') (earlier : year < year') :
    dayNumber year month day < dayNumber year' month' day' :=
  calc dayNumber year month day ≤ daysThrough year := valid.dayNumber_le
    _ ≤ daysThrough (year' - 1) := daysThrough_mono (Nat.le_sub_one_of_lt earlier)
    _ < dayNumber year' month' day' := Nat.lt_add_of_pos_right valid'.dayOfYear_pos

theorem dayOfYear_lt_of_month (valid : ValidDay year month day) (valid' : ValidDay year month' day') (earlier : month < month') :
    dayOfYear year month day < dayOfYear year month' day' :=
  calc dayOfYear year month day ≤ monthStart year (month + 1) := valid.before
    _ ≤ monthStart year month' := monthStart_mono year earlier
    _ < dayOfYear year month' day' := Nat.lt_add_of_pos_right valid'.2.2.2.1

theorem dayNumber_lt_iff (valid : ValidDay year month day) (valid' : ValidDay year' month' day') :
    dayNumber year month day < dayNumber year' month' day' ↔
      year < year' ∨ year = year' ∧ (month < month' ∨ month = month' ∧ day < day') := by
  rcases Nat.lt_trichotomy year year' with earlier | rfl | later
  · have less := dayNumber_lt_of_year valid valid' earlier
    omega
  · rcases Nat.lt_trichotomy month month' with earlier | rfl | later
    · have less := dayOfYear_lt_of_month valid valid' earlier
      unfold dayNumber
      omega
    · unfold dayNumber dayOfYear
      omega
    · have less := dayOfYear_lt_of_month valid' valid later
      unfold dayNumber
      omega
  · have less := dayNumber_lt_of_year valid' valid later
    omega

theorem dayNumber_injective (valid : ValidDay year month day) (valid' : ValidDay year' month' day')
    (same : dayNumber year month day = dayNumber year' month' day') : year = year' ∧ month = month' ∧ day = day' := by
  have less := mt (dayNumber_lt_iff valid valid').mpr (by omega)
  have more := mt (dayNumber_lt_iff valid' valid).mpr (by omega)
  omega

theorem dayNumber_first (year : Nat) : dayNumber year 1 1 = daysThrough (year - 1) + 1 := rfl

end ValidDay

theorem exists_dayNumber {number : Nat} (positive : 0 < number) :
    ∃ year month day, ValidDay year month day ∧ dayNumber year month day = number := by
  -- each day has a next one, within the month, in the next month or in the next year
  induction number with
  | zero => exact absurd positive (Nat.lt_irrefl 0)
  | succ number ih =>
    rcases Nat.eq_zero_or_pos number with rfl | earlier
    · exact ⟨1, 1, 1, by decide, rfl⟩
    · obtain ⟨year, month, day, valid, same⟩ := ih earlier
      obtain ⟨past, someMonth, below, someDay, inside⟩ := valid
      by_cases sameMonth : day < monthLength year month
      · exact ⟨year, month, day + 1, ⟨past, someMonth, below, Nat.succ_pos day, sameMonth⟩, by rw [← same]; rfl⟩
      · have last : day = monthLength year month := by omega
        have next := monthStart_succ year someMonth
        unfold dayNumber dayOfYear at same
        by_cases sameYear : month < 12
        · refine ⟨year, month + 1, 1, ⟨past, Nat.succ_pos month, sameYear, Nat.one_pos, monthLength_pos _ _⟩, ?_⟩
          unfold dayNumber dayOfYear
          omega
        · obtain rfl : month = 12 := by omega
          refine ⟨year + 1, 1, 1, ⟨Nat.succ_pos year, Nat.one_pos, by decide, Nat.one_pos, monthLength_pos _ _⟩, ?_⟩
          have whole : monthStart year 12 + monthLength year 12 = yearLength year := monthStart_end year
          obtain ⟨before, rfl⟩ : ∃ before, year = before + 1 := ⟨year - 1, by omega⟩
          have through : daysThrough (before + 1) = daysThrough before + yearLength (before + 1) := rfl
          rw [dayNumber_first]
          simp only [Nat.add_sub_cancel] at same ⊢
          omega

section March

variable {year month day : Nat}

theorem daysThrough_shift (year : Nat) : daysThrough (year + 4800) = daysThrough year + 1753164 := by
  rw [daysThrough_eq, daysThrough_eq]
  omega

theorem daysThrough_century (year : Nat) :
    daysThrough year = 36524 * (year / 100) + year / 100 / 4 + 365 * (year % 100) + year % 100 / 4 := by
  have four : year / 100 / 4 = year / 400 := Nat.div_div_eq_div_mul year 100 4
  have fourth : year / 4 = 25 * (year / 100) + year % 100 / 4 := by omega
  rw [daysThrough_eq, four]
  omega

theorem monthStart_march (year : Nat) {month : Nat} (late : 3 ≤ month) (few : month ≤ 12) :
    monthStart year month = 59 + leapDay year + (153 * (month - 3) + 2) / 5 := by
  interval_cases month <;> simp [monthStart, monthLength] <;> omega

theorem monthLength_march (year : Nat) {month : Nat} (late : 3 ≤ month) (few : month ≤ 12) :
    (153 * (month - 3) + 2) / 5 + monthLength year month = (153 * (month - 3 + 1) + 2) / 5 := by
  interval_cases month <;> rfl

/-- A day counted from 1 March: century `c`, year `r` of the century and month `M`
of years that begin in March. The longest of these years are the last of four and of four
centuries. -/
structure March (year month day c r M : Nat) : Prop where
  short : r < 100
  few : M ≤ 11
  sameMonth : month = M + 3 - 12 * (M / 10)
  sameYear : year + 4800 = 100 * c + r + M / 10
  positive : 0 < day
  inside : (153 * M + 2) / 5 + day ≤ (153 * (M + 1) + 2) / 5
  whole : (153 * M + 2) / 5 + day ≤ 366
  leap : (153 * M + 2) / 5 + day = 366 → r % 4 = 3 ∧ (r = 99 → c % 4 = 3)
  number : dayNumber year month day + 1753470 = 36524 * c + c / 4 + 365 * r + r / 4 + ((153 * M + 2) / 5 + day)

theorem ValidDay.march_early (valid : ValidDay year month day) (early : month ≤ 2) :
    March year month day ((year + 4799) / 100) ((year + 4799) % 100) (month + 9) := by
  obtain ⟨positive, some, few, first, inside⟩ := valid
  obtain ⟨past, rfl⟩ : ∃ past, year = past + 1 := ⟨year - 1, by omega⟩
  have shift := daysThrough_shift past
  rw [daysThrough_century (past + 4800)] at shift
  have start : monthStart (past + 1) month = 31 * (month - 1) := by interval_cases month <;> rfl
  have length : monthLength (past + 1) month = if month = 1 then 31 else 28 + leapDay (past + 1) := by
    interval_cases month <;> rfl
  have leap : leapDay (past + 1) = 1 → (past + 1) % 4 = 0 ∧ ((past + 1) % 100 = 0 → (past + 1) % 400 = 0) := by
    unfold leapDay
    split
    · exact fun _ => by assumption
    · exact fun absurd => by omega
  have extra := leapDay_le (past + 1)
  rw [length] at inside
  refine ⟨by omega, by omega, by omega, by omega, first, ?_, ?_, fun full => ?_, ?_⟩
  · split at inside <;> omega
  · split at inside <;> omega
  · split at inside
    · omega
    · have long : leapDay (past + 1) = 1 := by omega
      obtain ⟨fourth, century⟩ := leap long
      omega
  · simp only [dayNumber, dayOfYear, start, Nat.add_sub_cancel]
    have months : (153 * (month + 9) + 2) / 5 = 306 + 31 * (month - 1) := by interval_cases month <;> rfl
    rw [months, show past + 1 + 4799 = past + 4800 by omega]
    omega

theorem ValidDay.march_late (valid : ValidDay year month day) (late : 3 ≤ month) :
    March year month day ((year + 4800) / 100) ((year + 4800) % 100) (month - 3) := by
  obtain ⟨positive, some, few, first, inside⟩ := valid
  obtain ⟨past, rfl⟩ : ∃ past, year = past + 1 := ⟨year - 1, by omega⟩
  have shift := daysThrough_shift (past + 1)
  rw [daysThrough_century (past + 1 + 4800), daysThrough, yearLength] at shift
  have length := monthLength_march (past + 1) late few
  refine ⟨by omega, by omega, by omega, by omega, first, by omega, by omega, by omega, ?_⟩
  simp only [dayNumber, dayOfYear, monthStart_march _ late few, Nat.add_sub_cancel]
  omega

theorem ValidDay.exists_march (valid : ValidDay year month day) : ∃ c r M, March year month day c r M := by
  by_cases early : month ≤ 2
  · exact ⟨_, _, _, valid.march_early early⟩
  · exact ⟨_, _, _, valid.march_late (by omega)⟩

end March

section Weeks

variable {number week week' : Nat}

/-- The Thursday of the week of a day; weeks begin on Monday. -/
def thursday (number : Nat) : Nat := number + 4 - weekday number

def IsoWeek (number week : Nat) : Prop :=
  ∃ year month day, ValidDay year month day ∧ dayNumber year month day = thursday number ∧
    week = (dayOfYear year month day - 1) / 7 + 1

theorem thursday_eq (positive : 0 < number) : thursday number = number + 3 - (number - 1) % 7 := by
  unfold thursday weekday
  omega

theorem thursday_pos (positive : 0 < number) : 0 < thursday number := by
  rw [thursday_eq positive]
  omega

theorem IsoWeek.unique (first : IsoWeek number week) (second : IsoWeek number week') : week = week' := by
  obtain ⟨year, month, day, valid, same, rfl⟩ := first
  obtain ⟨year', month', day', valid', same', rfl⟩ := second
  obtain ⟨rfl, rfl, rfl⟩ := dayNumber_injective valid valid' (same.trans same'.symm)
  rfl

theorem exists_inYear {past : Nat} (later : daysThrough past < number) (inside : number ≤ daysThrough (past + 1)) :
    ∃ month day, ValidDay (past + 1) month day ∧ dayNumber (past + 1) month day = number := by
  obtain ⟨year, month, day, valid, same⟩ := exists_dayNumber (Nat.lt_of_le_of_lt (Nat.zero_le _) later)
  have upper := valid.dayNumber_le
  have lower : daysThrough (year - 1) < dayNumber year month day := Nat.lt_add_of_pos_right valid.dayOfYear_pos
  rcases Nat.lt_trichotomy year (past + 1) with early | rfl | late
  · have before := daysThrough_mono (show year ≤ past by omega)
    omega
  · exact ⟨month, day, valid, same⟩
  · have after := daysThrough_mono (show past + 1 ≤ year - 1 by omega)
    omega

theorem isoWeek_of {past : Nat} (later : daysThrough past < thursday number)
    (inside : thursday number ≤ daysThrough (past + 1)) :
    IsoWeek number ((thursday number - daysThrough past - 1) / 7 + 1) := by
  obtain ⟨month, day, valid, same⟩ := exists_inYear later inside
  refine ⟨past + 1, month, day, valid, same, ?_⟩
  rw [← same]
  unfold dayNumber
  rw [Nat.add_sub_cancel, Nat.add_sub_cancel_left]

end Weeks

end Xpl.Library
