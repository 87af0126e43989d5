import Mathlib.Data.Int.Order.Basic

/-! The day arithmetic of gdatetime.c. Integer division rounds towards zero, as in C;
`none` stands for a failed assertion. -/

set_option autoImplicit false

namespace Xpl.Time.DateTime

def daysIn4Years : Int := 1461
def daysIn100Years : Int := 36524
def daysIn400Years : Int := 146097

def daysInMonths : List (List Int) := [
  [ 0, 31, 28, 31, 30, 31, 30, 31, 31, 30, 31, 30, 31 ],
  [ 0, 31, 29, 31, 30, 31, 30, 31, 31, 30, 31, 30, 31 ]]

def daysInYear : List (List Int) := [
  [ 0, 31, 59, 90, 120, 151, 181, 212, 243, 273, 304, 334, 365 ],
  [ 0, 31, 60, 91, 121, 152, 182, 213, 244, 274, 305, 335, 366 ]]

def entry (table : List (List Int)) (idx : Nat) (month : Int) : Int := (table.getD idx []).getD month.toNat 0

def gregorianLeap (y : Int) : Bool := y.tmod 4 == 0 && !(y.tmod 100 == 0 && y.tmod 400 != 0)

def ymdToDays (year month day : Int) : Int :=
  let days := (year - 1) * 365 + (year - 1).tdiv 4 - (year - 1).tdiv 100 + (year - 1).tdiv 400
  let days := days + entry daysInYear 0 (month - 1)
  let day := if gregorianLeap year && month > 2 then day + 1 else day
  days + day

/-- Month and day from the days of the year before; the first estimate of the month is never
too small and at most one too large. -/
def getMonthDay (remainingDays : Int) (leap : Bool) : Option (Int × Int) :=
  let theMonth := (remainingDays + 50) >>> (5 : Nat)
  let preceding := entry daysInYear 0 (theMonth - 1) + (if theMonth > 2 && leap then 1 else 0)
  let (theMonth, preceding) :=
    if preceding > remainingDays then
      (theMonth - 1, preceding - entry daysInMonths (if leap then 1 else 0) (theMonth - 1))
    else (theMonth, preceding)
  if 0 ≤ remainingDays - preceding then some (theMonth, remainingDays - preceding + 1) else none

def getYmd (days : Int) : Option (Int × Int × Int) :=
  let remainingDays := days - 1
  let theYear := remainingDays.tdiv daysIn400Years * 400 + 1
  let remainingDays := remainingDays.tmod daysIn400Years
  let y100Cycles := remainingDays.tdiv daysIn100Years
  let remainingDays := remainingDays.tmod daysIn100Years
  let theYear := theYear + y100Cycles * 100
  let y4Cycles := remainingDays.tdiv daysIn4Years
  let remainingDays := remainingDays.tmod daysIn4Years
  let theYear := theYear + y4Cycles * 4
  let y1Cycles := remainingDays.tdiv 365
  let theYear := theYear + y1Cycles
  let remainingDays := remainingDays.tmod 365
  if y1Cycles = 4 || y100Cycles = 4 then
    -- the last day of a leap year, counted as the first of the year after
    if remainingDays = 0 then some (theYear - 1, 12, 31) else none
  else
    let leap := y1Cycles = 3 && (y4Cycles ≠ 24 || y100Cycles = 3)
    if leap = gregorianLeap theYear then do
      let (theMonth, theDay) ← getMonthDay remainingDays leap
      return (theYear, theMonth, theDay)
    else none

/-- What `xdate_time_get_week_number` computes for its three results. -/
structure WeekNumber where
  weekNumber : Int
  dayOfWeek : Int
  dayOfYear : Int
  deriving DecidableEq, Repr

/-- The end of `xdate_time_get_week_number`. -/
def weekNumberOf (f g e s : Int) : WeekNumber :=
  let d := (f + g - e).tmod 7
  let n := f + 3 - d
  { weekNumber :=
      if n < 0 then 53 - (g - s).tdiv 5
      else if n > 364 + s then 1
      else n.tdiv 7 + 1
    dayOfWeek := d + 1
    dayOfYear := f + 1 }

def leapYearsTo (a : Int) : Int := a.tdiv 4 - a.tdiv 100 + a.tdiv 400

def getWeekNumber (days : Int) : Option WeekNumber := do
  let (year, month, day) ← getYmd days
  if month ≤ 2 then
    let a := year - 1
    let b := leapYearsTo a
    let c := leapYearsTo (a - 1)
    let s := b - c
    return weekNumberOf (day - 1 + 31 * (month - 1)) ((a + b).tmod 7) 0 s
  else
    let a := year
    let b := leapYearsTo a
    let c := leapYearsTo (a - 1)
    let s := b - c
    return weekNumberOf (day + (153 * (month - 3) + 2).tdiv 5 + 58 + s) ((a + b).tmod 7) (s + 1) s

def getWeekOfYear (days : Int) : Option Int := (getWeekNumber days).map WeekNumber.weekNumber

def getDayOfYear (days : Int) : Option Int := (getWeekNumber days).map WeekNumber.dayOfYear

def getDayOfWeek (days : Int) : Int := (days - 1).tmod 7 + 1

def getWeekNumberingYear (days : Int) : Option Int := do
  let (year, month, day) ← getYmd days
  let weekday := getDayOfWeek days
  if month = 1 ∧ day - weekday ≤ -4 then return year - 1
  else if month = 12 ∧ day - weekday ≥ 28 then return year + 1
  else return year

end Xpl.Time.DateTime
