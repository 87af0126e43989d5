import Mathlib.Data.List.Basic
import Xpl.Library.Calendar

/-! The dates of gdate.c. A date holds a day number, or day, month and year, or both,
and converts lazily. A failed check prints a warning and returns; for a call that is
given dates, `false` beside the result says that a check has failed. -/

set_option autoImplicit false

namespace Xpl.Time

/-- The bit fields of a date; `julian` and `dmy` say which of the others count. -/
structure Date where
  julianDays : UInt32
  julian : Bool
  dmy : Bool
  day : Nat
  month : Nat
  year : Nat
  deriving DecidableEq, Repr

def Date.cleared : Date := { julianDays := 0, julian := false, dmy := false, day := 0, month := 0, year := 0 }

/-- Day, month and year as they fit into 6, 4 and 16 bits. -/
def Date.store (d : Date) (day month year : Nat) : Date :=
  { d with day := day % 2 ^ 6, month := month % 2 ^ 4, year := year % 2 ^ 16 }

def Date.withDmy (d : Date) (dmy : UInt8 × UInt32 × UInt16) : Date :=
  { d.store dmy.1.toNat dmy.2.1.toNat dmy.2.2.toNat with dmy := true }

section withDmy

variable (d : Date) (dmy : UInt8 × UInt32 × UInt16)

@[simp] theorem withDmy_julian : (d.withDmy dmy).julian = d.julian := rfl
@[simp] theorem withDmy_julianDays : (d.withDmy dmy).julianDays = d.julianDays := rfl
@[simp] theorem withDmy_dmy : (d.withDmy dmy).dmy = true := rfl

end withDmy

def daysInMonths : List (List Nat) := [
  [ 0, 31, 28, 31, 30, 31, 30, 31, 31, 30, 31, 30, 31 ],
  [ 0, 31, 29, 31, 30, 31, 30, 31, 31, 30, 31, 30, 31 ]]

def daysInYear : List (List Nat) := [
  [ 0, 0, 31, 59, 90, 120, 151, 181, 212, 243, 273, 304, 334, 365 ],
  [ 0, 0, 31, 60, 91, 121, 152, 182, 213, 244, 274, 305, 335, 366 ]]

def entry (table : List (List Nat)) (idx month : Nat) : Nat := (table.getD idx []).getD month 0

def validMonth (m : Nat) : Bool := m > 0 && m < 13
def validYear (y : Nat) : Bool := y > 0
def validDay (d : Nat) : Bool := d > 0 && d < 32
def validJulian (j : UInt32) : Bool := j > 0

def isLeapYear (year : Nat) : Bool :=
  if validYear year then (year % 4 == 0 && year % 100 != 0) || year % 400 == 0 else false

def leapIndex (year : Nat) : Nat := if isLeapYear year then 1 else 0

def validDmy (d m y : Nat) : Bool :=
  m > 0 && m < 13 && d > 0 && y > 0 && d ≤ entry daysInMonths (leapIndex y) m

def Date.valid (d : Date) : Bool := d.julian || d.dmy

/-- A new date; its day number is what the memory held before. -/
def newDmy (memory : Date) (day : UInt8) (m : UInt32) (y : UInt16) : Option Date :=
  if !validDmy day.toNat m.toNat y.toNat then none
  else some { memory.store day.toNat m.toNat y.toNat with julian := false, dmy := true }

/-- A new date; day, month and year are what the memory held before. -/
def newJulian (memory : Date) (j : UInt32) : Option Date :=
  if !validJulian j then none
  else some { memory.store memory.day memory.month memory.year with julianDays := j, julian := true, dmy := false }

/-- Years times 365, and the leap days among them; `year` is shifted and divided on the way. -/
def daysOfYears (year : UInt16) : UInt32 :=
  let days : UInt32 := year.toUInt32 * 365
  let year : UInt16 := year >>> 2
  let days : UInt32 := days + year.toUInt32
  let year : UInt16 := year / 25
  let days : UInt32 := days - year.toUInt32
  days + (year >>> 2).toUInt32

def updateJulian (d : Date) : Date :=
  if !d.dmy || d.julian || !validDmy d.day d.month d.year then d
  else
    let days : UInt32 :=
      daysOfYears (UInt16.ofNat d.year - 1) + UInt32.ofNat (entry daysInYear (leapIndex d.year) d.month + d.day)
    if validJulian days then { d with julianDays := days, julian := true } else { d with julianDays := days }

/-- Day, month and year by the formula of the Calendar FAQ, in unsigned 32-bit arithmetic. -/
def dmyOfJulian (julianDays : UInt32) : UInt8 × UInt32 × UInt16 :=
  let A : UInt32 := julianDays + 1721425 + 32045
  let B : UInt32 := (4 * (A + 36524)) / 146097 - 1
  let C : UInt32 := A - (146097 * B) / 4
  let D : UInt32 := (4 * (C + 365)) / 1461 - 1
  let E : UInt32 := C - (1461 * D) / 4
  let M : UInt32 := (5 * (E - 1) + 2) / 153
  ((E - (153 * M + 2) / 5).toUInt8, M + 3 - 12 * (M / 10), (100 * B + D - 4800 + M / 10).toUInt16)

def updateDmy (d : Date) : Date :=
  if !d.julian || d.dmy || !validJulian d.julianDays then d
  else d.withDmy (dmyOfJulian d.julianDays)

def ensureJulian (d : Date) : Date := if d.julian then d else updateJulian d
def ensureDmy (d : Date) : Date := if d.dmy then d else updateDmy d

section Setters

/-- The end of the three setters of one field: the date counts if the day exists. -/
def Date.revalidate (d : Date) : Date := { d with dmy := validDmy d.day d.month d.year }

/-- The beginning of the same setters. -/
def Date.loseJulian (d : Date) : Date :=
  let d := if d.julian && !d.dmy then updateDmy d else d
  { d with julian := false }

def setMonth (d : Date) (m : UInt32) : Date × Bool :=
  if !validMonth m.toNat then (d, false)
  else
    let d := d.loseJulian
    (Date.revalidate { d with month := m.toNat % 2 ^ 4 }, true)

def setDay (d : Date) (day : UInt8) : Date × Bool :=
  if !validDay day.toNat then (d, false)
  else
    let d := d.loseJulian
    (Date.revalidate { d with day := day.toNat % 2 ^ 6 }, true)

def setYear (d : Date) (y : UInt16) : Date × Bool :=
  if !validYear y.toNat then (d, false)
  else
    let d := d.loseJulian
    (Date.revalidate { d with year := y.toNat }, true)

def setDmy (d : Date) (day : UInt8) (m : UInt32) (y : UInt16) : Date × Bool :=
  if !validDmy day.toNat m.toNat y.toNat then (d, false)
  else ({ d.store day.toNat m.toNat y.toNat with julian := false, dmy := true }, true)

def setJulian (d : Date) (j : UInt32) : Date × Bool :=
  if !validJulian j then (d, false)
  else ({ d with julianDays := j, julian := true, dmy := false }, true)

structure LocalTime where
  mon : Int
  mday : Int
  year : Int

/-- The fields are stored before they are checked, and a failed check leaves them there. -/
def setTimeT (d : Date) (tm : LocalTime) : Date × Bool :=
  let d := { d with
    julian := false
    month := ((tm.mon + 1) % 2 ^ 4).toNat
    day := (tm.mday % 2 ^ 6).toNat
    year := ((tm.year + 1900) % 2 ^ 16).toNat }
  if validDmy d.day d.month d.year then ({ d with dmy := true }, true) else (d, false)

/-- What the reader of a date found: day, month and year, nothing where it gives up early.
The check of the day sees its eight low bits, that of the year its sixteen low bits. -/
def setParse (found : Option (UInt32 × UInt32 × UInt32)) : Date :=
  match found with
  | none => Date.cleared
  | some (day, m, y) =>
    if y < 8000 && validDmy day.toUInt8.toNat m.toNat y.toUInt16.toNat then
      { Date.cleared.store day.toNat m.toNat y.toNat with dmy := true }
    else Date.cleared

end Setters

section Getters

def getWeekday (d : Date) : Nat × Date :=
  if !d.valid then (0, d)
  else
    let d := ensureJulian d
    (if d.julian then ((d.julianDays - 1) % 7 + 1).toNat else 0, d)

def getMonth (d : Date) : Nat × Date :=
  if !d.valid then (0, d)
  else
    let d := ensureDmy d
    (if d.dmy then d.month else 0, d)

def getYear (d : Date) : Nat × Date :=
  if !d.valid then (0, d)
  else
    let d := ensureDmy d
    (if d.dmy then d.year else 0, d)

def getDay (d : Date) : Nat × Date :=
  if !d.valid then (0, d)
  else
    let d := ensureDmy d
    (if d.dmy then d.day else 0, d)

def getJulian (d : Date) : UInt32 × Date :=
  if !d.valid then (0, d)
  else
    let d := ensureJulian d
    (if d.julian then d.julianDays else 0, d)

def getDayOfYear (d : Date) : Nat × Date :=
  if !d.valid then (0, d)
  else
    let d := ensureDmy d
    (if d.dmy then entry daysInYear (leapIndex d.year) d.month + d.day else 0, d)

/-- The weeks of a year begin on its first day and on each Monday, or each Sunday;
`first` is how many days before the first of January the week began. -/
def getWeekOfYear (first : UInt32 → UInt32) (d : Date) : UInt32 × Date :=
  if !d.valid then (0, d)
  else
    let d := ensureDmy d
    if d.dmy then
      let newYear := (setDmy Date.cleared 1 1 (UInt16.ofNat d.year)).1
      let wd := first (UInt32.ofNat (getWeekday newYear).1)
      let day := UInt32.ofNat (getDayOfYear d).1 - 1
      ((day + wd) / 7 + (if wd = 0 then 1 else 0), d)
    else (0, d)

def getMondayWeekOfYear : Date → UInt32 × Date := getWeekOfYear fun weekday => weekday - 1

def getSundayWeekOfYear : Date → UInt32 × Date := getWeekOfYear fun weekday => if weekday = 7 then 0 else weekday

def getIso8601WeekOfYear (d : Date) : UInt32 × Date :=
  if !d.valid then (0, d)
  else
    let d := ensureJulian d
    if d.julian then
      let j : UInt32 := d.julianDays + 1721425
      let d4 : UInt32 := (j + 31741 - j % 7) % 146097 % 36524 % 1461
      let L : UInt32 := d4 / 1460
      let d1 : UInt32 := (d4 - L) % 365 + L
      (d1 / 7 + 1, d)
    else (0, d)

def isFirstOfMonth (d : Date) : Bool × Date :=
  if !d.valid then (false, d)
  else
    let d := ensureDmy d
    (d.dmy && d.day == 1, d)

def isLastOfMonth (d : Date) : Bool × Date :=
  if !d.valid then (false, d)
  else
    let d := ensureDmy d
    (d.dmy && d.day == entry daysInMonths (leapIndex d.year) d.month, d)

end Getters

section Arithmetic

def addDays (d : Date) (ndays : UInt32) : Date × Bool :=
  if !d.valid then (d, false)
  else
    let d := ensureJulian d
    if !d.julian then (d, false)
    else if ndays > 0xffffffff - d.julianDays then (d, false)
    else ({ d with julianDays := d.julianDays + ndays, dmy := false }, true)

def subtractDays (d : Date) (ndays : UInt32) : Date × Bool :=
  if !d.valid then (d, false)
  else
    let d := ensureJulian d
    if !d.julian then (d, false)
    else if d.julianDays ≤ ndays then (d, false)
    else ({ d with julianDays := d.julianDays - ndays, dmy := false }, true)

/-- A day that the month does not have becomes the last one of the month. -/
def Date.clipDay (d : Date) : Date :=
  let length := entry daysInMonths (leapIndex d.year) d.month
  if d.day > length then { d with day := length } else d

def addMonths (d : Date) (nmonths : UInt32) : Date × Bool :=
  if !d.valid then (d, false)
  else
    let d := ensureDmy d
    if !d.dmy then (d, false)
    else if nmonths > 0xffffffff - (UInt32.ofNat d.month - 1) then (d, false)
    else
      let nmonths := nmonths + (UInt32.ofNat d.month - 1)
      let years := nmonths / 12
      let months := nmonths % 12
      if years > UInt32.ofNat (2 ^ 16 - 1 - d.year) then (d, false)
      else
        let d := { d with month := (months + 1).toNat, year := d.year + years.toNat }
        ({ d.clipDay with julian := false }, true)

def subtractMonths (d : Date) (nmonths : UInt32) : Date × Bool :=
  if !d.valid then (d, false)
  else
    let d := ensureDmy d
    if !d.dmy then (d, false)
    else
      let years := nmonths.toNat / 12
      let months := nmonths.toNat % 12
      if d.year ≤ years then (d, false)
      else
        let d := { d with year := d.year - years }
        let d :=
          if d.month > months then { d with month := d.month - months }
          else { d with month := 12 - (months - d.month), year := d.year - 1 }
        ({ d.clipDay with julian := false }, true)

/-- The 29th of February becomes the 28th in a year without one. -/
def Date.clipLeapDay (d : Date) : Date :=
  if d.month = 2 ∧ d.day = 29 ∧ !isLeapYear d.year then { d with day := 28 } else d

def addYears (d : Date) (nyears : UInt32) : Date × Bool :=
  if !d.valid then (d, false)
  else
    let d := ensureDmy d
    if !d.dmy then (d, false)
    else if nyears.toNat > 2 ^ 16 - 1 - d.year then (d, false)
    else
      let d := { d with year := d.year + nyears.toNat }
      ({ d.clipLeapDay with julian := false }, true)

def subtractYears (d : Date) (nyears : UInt32) : Date × Bool :=
  if !d.valid then (d, false)
  else
    let d := ensureDmy d
    if !d.dmy then (d, false)
    else if d.year ≤ nyears.toNat then (d, false)
    else
      let d := { d with year := d.year - nyears.toNat }
      ({ d.clipLeapDay with julian := false }, true)

end Arithmetic

/-! The two lazy conversions of gdate.c compute the calendar's numbering and its
inverse, up to the last day of year 65535. -/

open Xpl.Library

/-- The number of 31 December 65535. -/
def lastDay : Nat := 23936166

theorem daysThrough_lastYear : daysThrough 65535 = lastDay := by
  rw [daysThrough_eq]
  rfl

section Tables

variable {d m y : Nat}

theorem isLeapYear_iff (positive : 0 < y) : isLeapYear y = true ↔ Leap y := by
  simp only [isLeapYear, validYear, positive, decide_true, if_true, Bool.or_eq_true, Bool.and_eq_true,
    beq_iff_eq, bne_iff_ne, Leap]
  omega

theorem leapIndex_eq (positive : 0 < y) : leapIndex y = leapDay y := by
  unfold leapIndex leapDay
  simp only [isLeapYear_iff positive]

theorem daysInMonths_eq (positive : 0 < y) (some : 0 < m) (few : m ≤ 12) :
    entry daysInMonths (leapIndex y) m = monthLength y m := by
  rw [leapIndex_eq positive]
  unfold monthLength leapDay
  split <;> interval_cases m <;> rfl

theorem daysInYear_eq (positive : 0 < y) (some : 0 < m) (few : m ≤ 12) :
    entry daysInYear (leapIndex y) m = monthStart y m := by
  rw [leapIndex_eq positive]
  by_cases leap : Leap y
  · interval_cases m <;> simp [monthStart, monthLength, leapDay, leap, entry, daysInYear]
  · interval_cases m <;> simp [monthStart, monthLength, leapDay, leap, entry, daysInYear]

theorem validDmy_iff : validDmy d m y = true ↔ ValidDay y m d := by
  simp only [validDmy, gt_iff_lt, Bool.and_eq_true, decide_eq_true_eq, ValidDay]
  constructor
  · rintro ⟨⟨⟨⟨some, few⟩, day⟩, year⟩, inside⟩
    rw [daysInMonths_eq year some (by omega)] at inside
    exact ⟨year, some, by omega, day, inside⟩
  · rintro ⟨year, some, few, day, inside⟩
    rw [← daysInMonths_eq year some few] at inside
    exact ⟨⟨⟨⟨some, by omega⟩, day⟩, year⟩, inside⟩

end Tables

section Words

variable {a b : UInt32}

theorem toNat_add_small (small : a.toNat + b.toNat < 2 ^ 32) : (a + b).toNat = a.toNat + b.toNat := by
  rw [UInt32.toNat_add, Nat.mod_eq_of_lt small]

theorem toNat_mul_small (small : a.toNat * b.toNat < 2 ^ 32) : (a * b).toNat = a.toNat * b.toNat := by
  rw [UInt32.toNat_mul, Nat.mod_eq_of_lt small]

theorem toNat_sub_small (small : b.toNat ≤ a.toNat) : (a - b).toNat = a.toNat - b.toNat := by
  have below := a.toNat_lt
  rw [UInt32.toNat_sub]
  omega

end Words

section Numbers
variable {c r M : Nat}
variable {year month day : Nat}

theorem dayNumber_le_lastDay (valid : ValidDay year month day) (fits : year < 2 ^ 16) :
    dayNumber year month day ≤ lastDay :=
  calc dayNumber year month day ≤ daysThrough year := valid.dayNumber_le
    _ ≤ daysThrough 65535 := daysThrough_mono (by omega)
    _ = lastDay := daysThrough_lastYear

theorem year_lt (valid : ValidDay year month day) (inside : dayNumber year month day ≤ lastDay) : year < 2 ^ 16 := by
  by_contra late
  have through : daysThrough 65535 ≤ daysThrough (year - 1) := daysThrough_mono (by omega)
  have positive := valid.dayOfYear_pos
  rw [daysThrough_lastYear] at through
  unfold dayNumber at inside
  omega

theorem march_century {A : Nat} (march : March year month day c r M) (number : A = dayNumber year month day + 1753470) :
    4 * (A + 36524) / 146097 = c + 1 ∧ A - 146097 * c / 4 = 365 * r + r / 4 + ((153 * M + 2) / 5 + day) := by
  obtain ⟨short, -, -, -, positive, -, whole, leap, total⟩ := march
  constructor
  · apply Nat.div_eq_of_lt_le
    · omega
    · omega
  · omega

theorem march_year {C : Nat} (march : March year month day c r M)
    (century : C = 365 * r + r / 4 + ((153 * M + 2) / 5 + day)) :
    4 * (C + 365) / 1461 = r + 1 ∧ C - 1461 * r / 4 = (153 * M + 2) / 5 + day := by
  obtain ⟨-, -, -, -, positive, -, whole, leap, -⟩ := march
  constructor
  · apply Nat.div_eq_of_lt_le
    · omega
    · omega
  · omega

theorem march_month (march : March year month day c r M) :
    (5 * ((153 * M + 2) / 5 + day - 1) + 2) / 153 = M := by
  obtain ⟨-, few, -, -, positive, inside, -, -, -⟩ := march
  interval_cases M <;> omega

end Numbers

section Conversions
variable {c r M : Nat}
variable {d : Date} {year month day : Nat}

theorem daysOfYears_toNat (y : UInt16) : (daysOfYears y).toNat = daysThrough y.toNat := by
  have small := y.toNat_lt
  obtain ⟨n, same⟩ : ∃ n, y.toNat = n := ⟨_, rfl⟩
  have fourth : (y >>> 2).toNat = n / 4 := by
    rw [UInt16.toNat_shiftRight, same, Nat.shiftRight_eq_div_pow]
    rfl
  have century : ((y >>> 2) / 25).toNat = n / 100 := by
    rw [UInt16.toNat_div, fourth]
    exact Nat.div_div_eq_div_mul _ 4 25
  have period : (((y >>> 2) / 25) >>> 2).toNat = n / 400 := by
    rw [UInt16.toNat_shiftRight, century, Nat.shiftRight_eq_div_pow]
    exact Nat.div_div_eq_div_mul _ 100 4
  have whole : (y.toUInt32 * (365 : UInt32)).toNat = n * 365 := by
    have product : y.toUInt32.toNat * (365 : UInt32).toNat = n * 365 := by
      rw [UInt16.toNat_toUInt32, same]
      simp only [UInt32.reduceToNat]
    rw [toNat_mul_small (by omega), product]
  have added : (y.toUInt32 * (365 : UInt32) + (y >>> 2).toUInt32).toNat = n * 365 + n / 4 := by
    rw [toNat_add_small, whole, UInt16.toNat_toUInt32, fourth]
    rw [whole, UInt16.toNat_toUInt32, fourth]
    omega
  have subtracted : (y.toUInt32 * (365 : UInt32) + (y >>> 2).toUInt32 - ((y >>> 2) / 25).toUInt32).toNat =
      n * 365 + n / 4 - n / 100 := by
    rw [toNat_sub_small, added, UInt16.toNat_toUInt32, century]
    rw [added, UInt16.toNat_toUInt32, century]
    omega
  have total : (daysOfYears y).toNat = n * 365 + n / 4 - n / 100 + n / 400 := by
    unfold daysOfYears
    rw [toNat_add_small, subtracted, UInt16.toNat_toUInt32, period]
    rw [subtracted, UInt16.toNat_toUInt32, period]
    omega
  rw [total, same, daysThrough_eq, Nat.mul_comm]

theorem updateJulian_spec (dmy : d.dmy = true) (off : d.julian = false) (valid : ValidDay d.year d.month d.day)
    (fits : d.year < 2 ^ 16) :
    ∃ days : UInt32, updateJulian d = { d with julianDays := days, julian := true } ∧
      days.toNat = dayNumber d.year d.month d.day := by
  have bound := dayNumber_le_lastDay valid fits
  have check : validDmy d.day d.month d.year = true := validDmy_iff.mpr valid
  have past : (UInt16.ofNat d.year - 1).toNat = d.year - 1 := by
    have positive := valid.1
    rw [UInt16.toNat_sub, UInt16.toNat_ofNat_of_lt' fits]
    simp only [UInt16.reduceToNat]
    omega
  have rest : (UInt32.ofNat (entry daysInYear (leapIndex d.year) d.month + d.day)).toNat = dayOfYear d.year d.month d.day := by
    rw [daysInYear_eq valid.1 valid.2.1 valid.2.2.1]
    apply UInt32.toNat_ofNat_of_lt'
    exact Nat.lt_of_le_of_lt (Nat.le_trans (Nat.le_add_left _ _) bound) (by decide)
  have number : (daysOfYears (UInt16.ofNat d.year - 1) +
      UInt32.ofNat (entry daysInYear (leapIndex d.year) d.month + d.day)).toNat = dayNumber d.year d.month d.day := by
    rw [toNat_add_small, daysOfYears_toNat, past, rest]
    · rfl
    · rw [daysOfYears_toNat, past, rest]
      exact Nat.lt_of_le_of_lt bound (by decide)
  have positive : validJulian (daysOfYears (UInt16.ofNat d.year - 1) +
      UInt32.ofNat (entry daysInYear (leapIndex d.year) d.month + d.day)) = true := by
    simp only [validJulian, gt_iff_lt, decide_eq_true_eq, UInt32.lt_iff_toNat_lt, number]
    exact valid.dayNumber_pos
  refine ⟨_, ?_, number⟩
  unfold updateJulian
  rw [dmy, off, check]
  dsimp only
  rw [positive]
  rfl

theorem updateDmy_century {A : UInt32} (march : March year month day c r M)
    (number : A.toNat = dayNumber year month day + 1753470) (bound : dayNumber year month day ≤ lastDay) :
    (4 * (A + 36524) / 146097 - 1).toNat = c ∧
      (A - 146097 * (4 * (A + 36524) / 146097 - 1) / 4).toNat = 365 * r + r / 4 + ((153 * M + 2) / 5 + day) := by
  unfold lastDay at bound
  obtain ⟨whole, rest⟩ := march_century march number
  have words : (36524 : UInt32).toNat = 36524 ∧ (4 : UInt32).toNat = 4 ∧ (146097 : UInt32).toNat = 146097 ∧
      (1 : UInt32).toNat = 1 := ⟨rfl, rfl, rfl, rfl⟩
  obtain ⟨w1, w2, w3, w4⟩ := words
  have sum : (A + 36524).toNat = A.toNat + 36524 := by rw [toNat_add_small (by omega), w1]
  have product : (4 * (A + 36524)).toNat = 4 * (A.toNat + 36524) := by rw [toNat_mul_small (by rw [w2]; omega), w2, sum]
  have B : (4 * (A + 36524) / 146097 - 1).toNat = c := by
    have quotient : (4 * (A + 36524) / 146097).toNat = c + 1 := by rw [UInt32.toNat_div, product, w3, whole]
    rw [toNat_sub_small (by omega), quotient, w4, Nat.add_sub_cancel]
  generalize 4 * (A + 36524) / 146097 - 1 = B' at B ⊢
  refine ⟨B, ?_⟩
  have times : (146097 * B').toNat = 146097 * c := by rw [toNat_mul_small (by rw [w3, B]; omega), w3, B]
  have quarter : (146097 * B' / 4).toNat = 146097 * c / 4 := by rw [UInt32.toNat_div, times, w2]
  rw [toNat_sub_small (by omega), quarter, rest]

theorem updateDmy_year {C : UInt32} (march : March year month day c r M)
    (century : C.toNat = 365 * r + r / 4 + ((153 * M + 2) / 5 + day)) :
    (4 * (C + 365) / 1461 - 1).toNat = r ∧
      (C - 1461 * (4 * (C + 365) / 1461 - 1) / 4).toNat = (153 * M + 2) / 5 + day := by
  obtain ⟨whole, rest⟩ := march_year march century
  obtain ⟨short, -, -, -, positive, -, inside, -, -⟩ := march
  have words : (365 : UInt32).toNat = 365 ∧ (4 : UInt32).toNat = 4 ∧ (1461 : UInt32).toNat = 1461 ∧
      (1 : UInt32).toNat = 1 := ⟨rfl, rfl, rfl, rfl⟩
  obtain ⟨w1, w2, w3, w4⟩ := words
  have sum : (C + 365).toNat = C.toNat + 365 := by rw [toNat_add_small (by omega), w1]
  have product : (4 * (C + 365)).toNat = 4 * (C.toNat + 365) := by rw [toNat_mul_small (by rw [w2]; omega), w2, sum]
  have D : (4 * (C + 365) / 1461 - 1).toNat = r := by
    have quotient : (4 * (C + 365) / 1461).toNat = r + 1 := by rw [UInt32.toNat_div, product, w3, whole]
    rw [toNat_sub_small (by omega), quotient, w4, Nat.add_sub_cancel]
  generalize 4 * (C + 365) / 1461 - 1 = D' at D ⊢
  refine ⟨D, ?_⟩
  have times : (1461 * D').toNat = 1461 * r := by rw [toNat_mul_small (by rw [w3, D]; omega), w3, D]
  have quarter : (1461 * D' / 4).toNat = 1461 * r / 4 := by rw [UInt32.toNat_div, times, w2]
  rw [toNat_sub_small (by omega), quarter, rest]

theorem updateDmy_month {E : UInt32} (march : March year month day c r M)
    (inYear : E.toNat = (153 * M + 2) / 5 + day) :
    ((5 * (E - 1) + 2) / 153).toNat = M ∧ (E - (153 * ((5 * (E - 1) + 2) / 153) + 2) / 5).toNat = day := by
  have month := march_month march
  obtain ⟨-, few, -, -, positive, -, inside, -, -⟩ := march
  have words : (5 : UInt32).toNat = 5 ∧ (1 : UInt32).toNat = 1 ∧ (2 : UInt32).toNat = 2 ∧
      (153 : UInt32).toNat = 153 := ⟨rfl, rfl, rfl, rfl⟩
  obtain ⟨w1, w2, w3, w4⟩ := words
  have past : (E - 1).toNat = (153 * M + 2) / 5 + day - 1 := by rw [toNat_sub_small (by omega), w2, inYear]
  have times : (5 * (E - 1)).toNat = 5 * ((153 * M + 2) / 5 + day - 1) := by
    rw [toNat_mul_small (by rw [w1, past]; omega), w1, past]
  have sum : (5 * (E - 1) + 2).toNat = 5 * ((153 * M + 2) / 5 + day - 1) + 2 := by
    rw [toNat_add_small (by omega), times, w3]
  have M' : ((5 * (E - 1) + 2) / 153).toNat = M := by rw [UInt32.toNat_div, sum, w4, month]
  generalize (5 * (E - 1) + 2) / 153 = N at M' ⊢
  have product : (153 * N).toNat = 153 * M := by rw [toNat_mul_small (by rw [w4, M']; omega), w4, M']
  have before : ((153 * N + 2) / 5).toNat = (153 * M + 2) / 5 := by
    rw [UInt32.toNat_div, toNat_add_small (by omega), product, w3, w1]
  rw [toNat_sub_small (by omega), before, inYear]
  omega

theorem updateDmy_fields {B D N : UInt32} (march : March year month day c r M) (fits : year < 2 ^ 16)
    (B_eq : B.toNat = c) (D_eq : D.toNat = r) (N_eq : N.toNat = M) :
    (N + 3 - 12 * (N / 10)).toNat = month ∧ (100 * B + D - 4800 + N / 10).toUInt16.toNat = year := by
  obtain ⟨short, few, sameMonth, sameYear, -, -, whole, -, number⟩ := march
  have words : (3 : UInt32).toNat = 3 ∧ (12 : UInt32).toNat = 12 ∧ (10 : UInt32).toNat = 10 ∧
      (100 : UInt32).toNat = 100 ∧ (4800 : UInt32).toNat = 4800 := ⟨rfl, rfl, rfl, rfl, rfl⟩
  obtain ⟨w1, w2, w3, w4, w5⟩ := words
  have tenth : (N / 10).toNat = M / 10 := by rw [UInt32.toNat_div, N_eq, w3]
  constructor
  · have product : (12 * (N / 10)).toNat = 12 * (M / 10) := by
      rw [toNat_mul_small (by rw [w2, tenth]; omega), w2, tenth]
    have sum : (N + 3).toNat = M + 3 := by rw [toNat_add_small (by omega), N_eq, w1]
    rw [toNat_sub_small (by omega), sum, product, sameMonth]
  · have product : (100 * B).toNat = 100 * c := by rw [toNat_mul_small (by rw [w4, B_eq]; omega), w4, B_eq]
    have sum : (100 * B + D).toNat = 100 * c + r := by rw [toNat_add_small (by omega), product, D_eq]
    have difference : (100 * B + D - 4800).toNat = 100 * c + r - 4800 := by rw [toNat_sub_small (by omega), sum, w5]
    rw [UInt32.toNat_toUInt16, toNat_add_small (by omega), difference, tenth]
    omega

theorem dmyOfJulian_spec {j : UInt32} (valid : ValidDay year month day) (fits : year < 2 ^ 16)
    (number : j.toNat = dayNumber year month day) :
    (dmyOfJulian j).1.toNat = day ∧ (dmyOfJulian j).2.1.toNat = month ∧ (dmyOfJulian j).2.2.toNat = year := by
  have bound := dayNumber_le_lastDay valid fits
  have shortMonth := monthLength_le year month
  have fewDays := valid.2.2.2.2
  obtain ⟨c, r, M, march⟩ := valid.exists_march
  unfold lastDay at bound
  have once : (j + 1721425).toNat = dayNumber year month day + 1721425 := by
    have word : (1721425 : UInt32).toNat = 1721425 := rfl
    rw [toNat_add_small (by omega)]
    omega
  have first : (j + 1721425 + 32045).toNat = dayNumber year month day + 1753470 := by
    have word : (32045 : UInt32).toNat = 32045 := rfl
    rw [toNat_add_small (by omega)]
    omega
  obtain ⟨B_eq, C_eq⟩ := updateDmy_century march first bound
  obtain ⟨D_eq, E_eq⟩ := updateDmy_year march C_eq
  obtain ⟨M_eq, day_eq⟩ := updateDmy_month march E_eq
  obtain ⟨month_eq, year_eq⟩ := updateDmy_fields march fits B_eq D_eq M_eq
  refine ⟨?_, month_eq, year_eq⟩
  unfold dmyOfJulian
  rw [UInt32.toNat_toUInt8, day_eq]
  omega

/-- Where it converts, `updateDmy` changes day, month and year only. -/
theorem updateDmy_eq (julian : d.julian = true) (off : d.dmy = false) (positive : 0 < d.julianDays.toNat) :
    updateDmy d = d.withDmy (dmyOfJulian d.julianDays) := by
  have someDays : validJulian d.julianDays = true := by
    simp only [validJulian, gt_iff_lt, decide_eq_true_eq, UInt32.lt_iff_toNat_lt]
    exact positive
  unfold updateDmy
  rw [julian, off, someDays]
  rfl

theorem updateDmy_spec (julian : d.julian = true) (off : d.dmy = false) (valid : ValidDay year month day)
    (fits : year < 2 ^ 16) (number : d.julianDays.toNat = dayNumber year month day) :
    updateDmy d = { d with day := day, month := month, year := year, dmy := true } := by
  have shortMonth := monthLength_le year month
  obtain ⟨_, _, fewMonths, _, fewDays⟩ := id valid
  obtain ⟨day_eq, month_eq, year_eq⟩ := dmyOfJulian_spec valid fits number
  have sameDay : day % 2 ^ 6 = day := by omega
  have sameMonth : month % 2 ^ 4 = month := by omega
  have sameYear : year % 2 ^ 16 = year := by omega
  rw [updateDmy_eq julian off (by rw [number]; exact valid.dayNumber_pos), Date.withDmy, day_eq, month_eq, year_eq]
  simp only [Date.store, sameDay, sameMonth, sameYear]

end Conversions

end Xpl.Time
