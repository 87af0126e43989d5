import Xpl.Time.Date

/-! Programs that hold any number of dates and call the functions of gdate.c on them.
Two arguments of one call may be the same date. -/

set_option autoImplicit false

namespace Xpl.Time

open Xpl.Library

abbrev Dates := Nat → Date

def threeWay (a b : Nat) : Int := if a < b then -1 else if a > b then 1 else 0

def compareJulian (lhs rhs : Date) : Int := threeWay lhs.julianDays.toNat rhs.julianDays.toNat

def compareDmy (lhs rhs : Date) : Int :=
  if lhs.year ≠ rhs.year then threeWay lhs.year rhs.year
  else if lhs.month ≠ rhs.month then threeWay lhs.month rhs.month
  else threeWay lhs.day rhs.day

def ensureJulianAt (s : Dates) (i : Nat) : Dates := Function.update s i (ensureJulian (s i))

/-- The loop runs at most twice: its second turn finds both day numbers. -/
def compareDates (s : Dates) (lhs rhs : Nat) : Int × Dates × Bool :=
  if !(s lhs).valid || !(s rhs).valid then (0, s, false)
  else if (s lhs).julian && (s rhs).julian then (compareJulian (s lhs) (s rhs), s, true)
  else if (s lhs).dmy && (s rhs).dmy then (compareDmy (s lhs) (s rhs), s, true)
  else
    let s := ensureJulianAt s lhs
    let s := ensureJulianAt s rhs
    if !(s lhs).julian || !(s rhs).julian then (0, s, false)
    else (compareJulian (s lhs) (s rhs), s, true)

/-- `xdate_clamp` after its checks. -/
def clampBetween (s : Dates) (date : Nat) (minDate maxDate : Option Nat) : Dates :=
  let s :=
    match minDate with
    | none => s
    | some low =>
      let (order, s, _) := compareDates s date low
      if order < 0 then Function.update s date (s low) else s
  match maxDate with
  | none => s
  | some high =>
    let (order, s, _) := compareDates s high date
    if order < 0 then Function.update s date (s high) else s

def clamp (s : Dates) (date : Nat) (minDate maxDate : Option Nat) : Dates × Bool :=
  if !(s date).valid then (s, false)
  else if minDate.any fun low => !(s low).valid then (s, false)
  else if maxDate.any fun high => !(s high).valid then (s, false)
  else
    match minDate, maxDate with
    | some low, some high =>
      let (order, s, _) := compareDates s low high
      if order > 0 then (s, false) else (clampBetween s date minDate maxDate, true)
    | _, _ => (clampBetween s date minDate maxDate, true)

def order (s : Dates) (date1 date2 : Nat) : Dates × Bool :=
  if !(s date1).valid || !(s date2).valid then (s, false)
  else
    let (order, s, _) := compareDates s date1 date2
    if order > 0 then (Function.update (Function.update s date1 (s date2)) date2 (s date1), true) else (s, true)

def daysBetween (s : Dates) (d1 d2 : Nat) : Int × Dates × Bool :=
  if !(s d1).valid || !(s d2).valid then (0, s, false)
  else
    let (second, date2) := getJulian (s d2)
    let s := Function.update s d2 date2
    let (first, date1) := getJulian (s d1)
    ((second.toNat : Int) - first.toNat, Function.update s d1 date1, true)

/-- A valid date is copied through its day number; a date without a day as it is. -/
def copyDate (s : Dates) (source target : Nat) (memory : Date) : Dates :=
  if (s source).valid then
    let (days, date) := getJulian (s source)
    let s := Function.update s source date
    match newJulian memory days with
    | some copy => Function.update s target copy
    | none => s
  else Function.update s target (s source)

inductive Getter where
  | day | month | year | julian | weekday | dayOfYear | mondayWeek | sundayWeek | iso8601Week | isFirst | isLast
  deriving DecidableEq, Repr

def Getter.run (g : Getter) (d : Date) : Nat × Date :=
  match g with
  | .day => getDay d
  | .month => getMonth d
  | .year => getYear d
  | .julian => ((getJulian d).1.toNat, (getJulian d).2)
  | .weekday => getWeekday d
  | .dayOfYear => getDayOfYear d
  | .mondayWeek => ((getMondayWeekOfYear d).1.toNat, (getMondayWeekOfYear d).2)
  | .sundayWeek => ((getSundayWeekOfYear d).1.toNat, (getSundayWeekOfYear d).2)
  | .iso8601Week => ((getIso8601WeekOfYear d).1.toNat, (getIso8601WeekOfYear d).2)
  | .isFirst => ((isFirstOfMonth d).1.toNat, (isFirstOfMonth d).2)
  | .isLast => ((isLastOfMonth d).1.toNat, (isLastOfMonth d).2)

def Getter.needsDmy : Getter → Bool
  | .julian | .weekday | .iso8601Week => false
  | _ => true

inductive DateCall where
  | clear (date : Nat)
  | setDay (date : Nat) (day : UInt8)
  | setMonth (date : Nat) (m : UInt32)
  | setYear (date : Nat) (y : UInt16)
  | setDmy (date : Nat) (day : UInt8) (m : UInt32) (y : UInt16)
  | setJulian (date : Nat) (j : UInt32)
  | setTimeT (date : Nat) (tm : LocalTime)
  | setParse (date : Nat) (found : Option (UInt32 × UInt32 × UInt32))
  | get (g : Getter) (date : Nat)
  | daysBetween (d1 d2 : Nat)
  | compare (lhs rhs : Nat)
  | addDays (date : Nat) (ndays : UInt32)
  | subtractDays (date : Nat) (ndays : UInt32)
  | addMonths (date : Nat) (nmonths : UInt32)
  | subtractMonths (date : Nat) (nmonths : UInt32)
  | addYears (date : Nat) (nyears : UInt32)
  | subtractYears (date : Nat) (nyears : UInt32)
  | clamp (date : Nat) (minDate maxDate : Option Nat)
  | order (date1 date2 : Nat)
  | copy (source target : Nat) (memory : Date)

def onDate (s : Dates) (date : Nat) (f : Date → Date × Bool) : Dates × Bool :=
  (Function.update s date (f (s date)).1, (f (s date)).2)

def DateCall.run (call : DateCall) (s : Dates) : Dates × Bool :=
  match call with
  | .clear date => onDate s date fun _ => (Date.cleared, true)
  | .setDay date day => onDate s date fun d => Time.setDay d day
  | .setMonth date m => onDate s date fun d => Time.setMonth d m
  | .setYear date y => onDate s date fun d => Time.setYear d y
  | .setDmy date day m y => onDate s date fun d => Time.setDmy d day m y
  | .setJulian date j => onDate s date fun d => Time.setJulian d j
  | .setTimeT date tm => onDate s date fun d => Time.setTimeT d tm
  | .setParse date found => onDate s date fun _ => (Time.setParse found, true)
  | .get g date => onDate s date fun d => ((g.run d).2, d.valid)
  | .daysBetween d1 d2 => (Time.daysBetween s d1 d2).2
  | .compare lhs rhs => (compareDates s lhs rhs).2
  | .addDays date ndays => onDate s date fun d => Time.addDays d ndays
  | .subtractDays date ndays => onDate s date fun d => Time.subtractDays d ndays
  | .addMonths date nmonths => onDate s date fun d => Time.addMonths d nmonths
  | .subtractMonths date nmonths => onDate s date fun d => Time.subtractMonths d nmonths
  | .addYears date nyears => onDate s date fun d => Time.addYears d nyears
  | .subtractYears date nyears => onDate s date fun d => Time.subtractYears d nyears
  | .clamp date minDate maxDate => Time.clamp s date minDate maxDate
  | .order date1 date2 => Time.order s date1 date2
  | .copy source target memory => (copyDate s source target memory, true)

def DateCall.changes : DateCall → List Nat
  | .clear date | .setDay date _ | .setMonth date _ | .setYear date _ | .setDmy date _ _ _ | .setJulian date _
  | .setTimeT date _ | .setParse date _ | .addDays date _ | .subtractDays date _ | .addMonths date _
  | .subtractMonths date _ | .addYears date _ | .subtractYears date _ | .clamp date _ _ | .copy _ date _ => [date]
  | .order date1 date2 => [date1, date2]
  | .get _ _ | .daysBetween _ _ | .compare _ _ => []

/-! What holds of a date between two calls, and that the calls keep it as long as no day
beyond the last one is converted and no date leaves year 1. -/

open Xpl.Library

variable {d : Date}

def Date.number (d : Date) : Option Nat :=
  if d.julian then some d.julianDays.toNat else if d.dmy then some (dayNumber d.year d.month d.day) else none

/-- What is marked as valid is valid, and two valid representations denote one day. -/
structure Date.Sound (d : Date) : Prop where
  width : d.year < 2 ^ 16
  exists_day : d.dmy = true → ValidDay d.year d.month d.day
  positive : d.julian = true → 0 < d.julianDays.toNat
  same : d.julian = true → d.dmy = true → d.julianDays.toNat = dayNumber d.year d.month d.day

/-- The date has its day, month and year, or they can be computed. -/
def Date.Convertible (d : Date) : Prop := d.julian = true → d.dmy = false → d.julianDays.toNat ≤ lastDay

theorem sound_cleared : Date.cleared.Sound := ⟨by decide, nofun, nofun, nofun⟩

theorem validJulian_iff {j : UInt32} : validJulian j = true ↔ 0 < j.toNat := by
  simp only [validJulian, gt_iff_lt, decide_eq_true_eq, UInt32.lt_iff_toNat_lt]
  exact Iff.rfl

theorem valid_iff : d.valid = true ↔ d.julian = true ∨ d.dmy = true := by
  simp only [Date.valid, Bool.or_eq_true]

/-- The conversions keep the day. -/
theorem ensureJulian_spec (sound : d.Sound) :
    (ensureJulian d).Sound ∧ (ensureJulian d).number = d.number ∧ (d.valid = true → (ensureJulian d).julian = true) ∧
      (ensureJulian d).dmy = d.dmy := by
  unfold ensureJulian
  by_cases julian : d.julian = true
  · simp only [julian, if_true]
    exact ⟨sound, trivial, fun _ => trivial, trivial⟩
  · have off : d.julian = false := by simpa using julian
    by_cases dmy : d.dmy = true
    · obtain ⟨days, updated, number⟩ := updateJulian_spec dmy off (sound.exists_day dmy) sound.width
      simp only [off, Bool.false_eq_true, if_false, updated]
      refine ⟨⟨sound.width, sound.exists_day, fun _ => ?_, fun _ _ => number⟩, ?_, fun _ => trivial, trivial⟩
      · rw [number]
        exact (sound.exists_day dmy).dayNumber_pos
      · simp [Date.number, off, dmy, number]
    · have none_ : d.dmy = false := by simpa using dmy
      have kept : updateJulian d = d := by simp [updateJulian, none_]
      simp only [off, Bool.false_eq_true, if_false, kept]
      refine ⟨sound, trivial, fun valid => ?_, trivial⟩
      rw [valid_iff, off, none_] at valid
      simp at valid

theorem ensureDmy_spec (sound : d.Sound) (convertible : d.Convertible) :
    (ensureDmy d).Sound ∧ (ensureDmy d).number = d.number ∧ (d.valid = true → (ensureDmy d).dmy = true) := by
  unfold ensureDmy
  by_cases dmy : d.dmy = true
  · simp only [dmy, if_true]
    exact ⟨sound, trivial, fun _ => trivial⟩
  · have off : d.dmy = false := by simpa using dmy
    by_cases julian : d.julian = true
    · obtain ⟨year, month, day, valid, number⟩ := exists_dayNumber (sound.positive julian)
      have inside := convertible julian off
      have fits := year_lt valid (by rw [number]; exact inside)
      have updated := updateDmy_spec julian off valid fits number.symm
      simp only [off, Bool.false_eq_true, if_false, updated]
      refine ⟨⟨fits, fun _ => valid, fun _ => sound.positive julian, fun _ _ => number.symm⟩, ?_, fun _ => trivial⟩
      simp [Date.number, julian]
    · have none_ : d.julian = false := by simpa using julian
      have kept : updateDmy d = d := by simp [updateDmy, none_]
      simp only [off, Bool.false_eq_true, if_false, kept]
      refine ⟨sound, trivial, fun valid => ?_⟩
      rw [valid_iff, off, none_] at valid
      simp at valid

section Setters

theorem sound_revalidate (off : d.julian = false) (width : d.year < 2 ^ 16) : d.revalidate.Sound := by
  refine ⟨width, fun dmy => ?_, fun on => ?_, fun on => ?_⟩
  · exact validDmy_iff.mp dmy
  · exact absurd (off.symm.trans on) nofun
  · exact absurd (off.symm.trans on) nofun

theorem loseJulian_spec (sound : d.Sound) (convertible : d.Convertible) :
    d.loseJulian.julian = false ∧ d.loseJulian.year < 2 ^ 16 := by
  refine ⟨rfl, ?_⟩
  unfold Date.loseJulian
  by_cases convert : (d.julian && !d.dmy) = true
  · have off : d.dmy = false := by simp at convert; exact convert.2
    have spec := (ensureDmy_spec sound convertible).1
    simp only [ensureDmy, off, Bool.false_eq_true, if_false] at spec
    simp only [convert, if_true]
    exact spec.width
  · simp only [convert]
    exact sound.width

theorem setMonth_sound (sound : d.Sound) (m : UInt32) (convertible : validMonth m.toNat = true → d.Convertible) :
    (setMonth d m).1.Sound ∧ ((setMonth d m).2 = false → (setMonth d m).1 = d) := by
  unfold setMonth
  by_cases good : validMonth m.toNat = true
  · obtain ⟨off, width⟩ := loseJulian_spec sound (convertible good)
    simp only [good, Bool.not_true, Bool.false_eq_true, if_false]
    exact ⟨sound_revalidate off width, fun rejected => absurd rejected nofun⟩
  · simp only [good]
    exact ⟨sound, fun _ => rfl⟩

theorem setDay_sound (sound : d.Sound) (day : UInt8) (convertible : validDay day.toNat = true → d.Convertible) :
    (setDay d day).1.Sound ∧ ((setDay d day).2 = false → (setDay d day).1 = d) := by
  unfold setDay
  by_cases good : validDay day.toNat = true
  · obtain ⟨off, width⟩ := loseJulian_spec sound (convertible good)
    simp only [good, Bool.not_true, Bool.false_eq_true, if_false]
    exact ⟨sound_revalidate off width, fun rejected => absurd rejected nofun⟩
  · simp only [good]
    exact ⟨sound, fun _ => rfl⟩

theorem setYear_sound (sound : d.Sound) (y : UInt16) (convertible : validYear y.toNat = true → d.Convertible) :
    (setYear d y).1.Sound ∧ ((setYear d y).2 = false → (setYear d y).1 = d) := by
  unfold setYear
  by_cases good : validYear y.toNat = true
  · obtain ⟨off, _⟩ := loseJulian_spec sound (convertible good)
    simp only [good, Bool.not_true, Bool.false_eq_true, if_false]
    exact ⟨sound_revalidate off y.toNat_lt, fun rejected => absurd rejected nofun⟩
  · simp only [good]
    exact ⟨sound, fun _ => rfl⟩

/-- Valid fields fit into their bits. -/
theorem store_eq {day m y : Nat} (valid : ValidDay y m day) (fits : y < 2 ^ 16) :
    d.store day m y = { d with day := day, month := m, year := y } := by
  have short := monthLength_le y m
  obtain ⟨_, _, few, _, inside⟩ := valid
  have sameDay : day % 2 ^ 6 = day := by omega
  have sameMonth : m % 2 ^ 4 = m := by omega
  have sameYear : y % 2 ^ 16 = y := by omega
  simp only [Date.store, sameDay, sameMonth, sameYear]

theorem sound_dmy {date : Date} (off : date.julian = false) (fits : date.year < 2 ^ 16)
    (valid : ValidDay date.year date.month date.day) : date.Sound :=
  ⟨fits, fun _ => valid, fun on => absurd (off.symm.trans on) nofun, fun on => absurd (off.symm.trans on) nofun⟩

theorem sound_julian {date : Date} (off : date.dmy = false) (fits : date.year < 2 ^ 16)
    (positive : 0 < date.julianDays.toNat) : date.Sound :=
  ⟨fits, fun on => absurd (off.symm.trans on) nofun, fun _ => positive, fun _ on => absurd (off.symm.trans on) nofun⟩

theorem setDmy_sound (sound : d.Sound) (day : UInt8) (m : UInt32) (y : UInt16) :
    (setDmy d day m y).1.Sound ∧ ((setDmy d day m y).2 = false → (setDmy d day m y).1 = d) := by
  unfold setDmy
  by_cases good : validDmy day.toNat m.toNat y.toNat = true
  · have valid := validDmy_iff.mp good
    simp only [good, Bool.not_true, Bool.false_eq_true, if_false, store_eq valid y.toNat_lt]
    exact ⟨sound_dmy rfl y.toNat_lt valid, fun rejected => absurd rejected nofun⟩
  · simp only [good]
    exact ⟨sound, fun _ => rfl⟩

theorem setJulian_sound (sound : d.Sound) (j : UInt32) :
    (setJulian d j).1.Sound ∧ ((setJulian d j).2 = false → (setJulian d j).1 = d) := by
  unfold setJulian
  by_cases good : validJulian j = true
  · simp only [good, Bool.not_true, Bool.false_eq_true, if_false]
    exact ⟨sound_julian rfl sound.width (validJulian_iff.mp good), fun rejected => absurd rejected nofun⟩
  · simp only [good]
    exact ⟨sound, fun _ => rfl⟩

/-- The local day exists in the year that the sixteen bits of the field hold. -/
def LocalTime.Fits (tm : LocalTime) : Prop :=
  ValidDay ((tm.year + 1900) % 2 ^ 16).toNat ((tm.mon + 1) % 2 ^ 4).toNat (tm.mday % 2 ^ 6).toNat

theorem setTimeT_sound {tm : LocalTime} (fits : tm.Fits) :
    (setTimeT d tm).1.Sound ∧ (setTimeT d tm).2 = true := by
  have good := validDmy_iff.mpr fits
  unfold setTimeT
  rw [if_pos good]
  refine ⟨sound_dmy rfl ?_ fits, rfl⟩
  dsimp only
  omega

theorem setParse_sound (found : Option (UInt32 × UInt32 × UInt32)) : (setParse found).Sound := by
  unfold setParse
  split
  · exact sound_cleared
  · rename_i day m y
    split
    · rename_i good
      simp only [Bool.and_eq_true, decide_eq_true_eq] at good
      have low : y.toUInt16.toNat = y.toNat := by
        have small : y.toNat < 8000 := UInt32.lt_iff_toNat_lt.mp good.1
        rw [UInt32.toNat_toUInt16]
        omega
      have valid := validDmy_iff.mp good.2
      have days := Nat.le_trans valid.2.2.2.2 (monthLength_le _ _)
      have bits : day.toNat % 2 ^ 6 = day.toUInt8.toNat := by
        rw [UInt32.toNat_toUInt8] at days ⊢
        omega
      have stored : Date.cleared.store day.toNat m.toNat y.toNat =
          Date.cleared.store day.toUInt8.toNat m.toNat y.toUInt16.toNat := by
        simp only [Date.store, low, ← bits]
        simp
      rw [stored, store_eq valid (UInt16.toNat_lt _)]
      exact sound_dmy rfl (UInt16.toNat_lt _) valid
    · exact sound_cleared

end Setters

section Getters

theorem getter_date (g : Getter) (d : Date) :
    (g.run d).2 = if d.valid then (if g.needsDmy then ensureDmy d else ensureJulian d) else d := by
  cases valid : d.valid with
  | false =>
    cases g <;> simp [Getter.run, getDay, getMonth, getYear, getJulian, getWeekday, getDayOfYear, getMondayWeekOfYear,
      getSundayWeekOfYear, getWeekOfYear, getIso8601WeekOfYear, isFirstOfMonth, isLastOfMonth, valid]
  | true =>
    cases g <;> simp [Getter.run, Getter.needsDmy, getDay, getMonth, getYear, getJulian, getWeekday, getDayOfYear,
      getMondayWeekOfYear, getSundayWeekOfYear, getWeekOfYear, getIso8601WeekOfYear, isFirstOfMonth, isLastOfMonth, valid]
    all_goals split <;> rfl

theorem getter_sound (sound : d.Sound) (g : Getter) (convertible : g.needsDmy = true → d.Convertible) :
    (g.run d).2.Sound ∧ (g.run d).2.number = d.number := by
  rw [getter_date]
  split
  · split
    · rename_i needs
      obtain ⟨sound', number, _⟩ := ensureDmy_spec sound (convertible needs)
      exact ⟨sound', number⟩
    · obtain ⟨sound', number, _, _⟩ := ensureJulian_spec sound
      exact ⟨sound', number⟩
  · exact ⟨sound, rfl⟩

end Getters

section Arithmetic

theorem addDays_sound (sound : d.Sound) (ndays : UInt32) :
    (addDays d ndays).1.Sound ∧ ((addDays d ndays).2 = false → (addDays d ndays).1.number = d.number) := by
  obtain ⟨sound', number, converted, _⟩ := ensureJulian_spec sound
  unfold addDays
  by_cases valid : d.valid = true
  · have julian := converted valid
    simp only [valid, julian, Bool.not_true, Bool.false_eq_true, if_false]
    by_cases far : ndays > 0xffffffff - (ensureJulian d).julianDays
    · rw [if_pos far]
      exact ⟨sound', fun _ => number⟩
    · rw [if_neg far]
      have room : ndays.toNat ≤ 2 ^ 32 - 1 - (ensureJulian d).julianDays.toNat := by
        have below := (ensureJulian d).julianDays.toNat_lt
        have word : (0xffffffff : UInt32).toNat = 2 ^ 32 - 1 := rfl
        have fits := mt UInt32.lt_iff_toNat_lt.mpr far
        rw [toNat_sub_small (by omega), word] at fits
        omega
      refine ⟨sound_julian rfl sound'.width ?_, fun rejected => absurd rejected nofun⟩
      have positive := sound'.positive julian
      have below := (ensureJulian d).julianDays.toNat_lt
      rw [toNat_add_small (by omega)]
      omega
  · simp only [valid]
    exact ⟨sound, fun _ => rfl⟩

theorem subtractDays_sound (sound : d.Sound) (ndays : UInt32) :
    (subtractDays d ndays).1.Sound ∧ ((subtractDays d ndays).2 = false → (subtractDays d ndays).1.number = d.number) := by
  obtain ⟨sound', number, converted, _⟩ := ensureJulian_spec sound
  unfold subtractDays
  by_cases valid : d.valid = true
  · have julian := converted valid
    simp only [valid, julian, Bool.not_true, Bool.false_eq_true, if_false]
    by_cases far : (ensureJulian d).julianDays ≤ ndays
    · rw [if_pos far]
      exact ⟨sound', fun _ => number⟩
    · rw [if_neg far]
      have later := mt UInt32.le_iff_toNat_le.mpr far
      refine ⟨sound_julian rfl sound'.width ?_, fun rejected => absurd rejected nofun⟩
      rw [toNat_sub_small (by omega)]
      omega
  · simp only [valid]
    exact ⟨sound, fun _ => rfl⟩

theorem clipDay_sound (width : d.year < 2 ^ 16) (past : 0 < d.year) (some : 0 < d.month) (few : d.month ≤ 12)
    (positive : 0 < d.day) : ({ d.clipDay with julian := false } : Date).Sound := by
  unfold Date.clipDay
  dsimp only
  rw [daysInMonths_eq past some few]
  split
  · exact sound_dmy rfl width ⟨past, some, few, monthLength_pos _ _, le_refl _⟩
  · rename_i inside
    exact sound_dmy rfl width ⟨past, some, few, positive, Nat.le_of_not_lt inside⟩

/-- The 29th of February, moved to another year, is clipped there. -/
theorem clipLeapDay_sound (width : d.year < 2 ^ 16) (past : 0 < d.year) {year : Nat} (valid : ValidDay year d.month d.day) :
    ({ d.clipLeapDay with julian := false } : Date).Sound := by
  obtain ⟨_, some, few, positive, inside⟩ := valid
  unfold Date.clipLeapDay
  split
  · rename_i clipped
    obtain ⟨february, _, _⟩ := clipped
    refine sound_dmy rfl width ⟨past, some, few, Nat.succ_pos 27, ?_⟩
    rw [february]
    exact Nat.le_add_right 28 _
  · rename_i kept
    refine sound_dmy rfl width ⟨past, some, few, positive, ?_⟩
    by_cases february : d.month = 2
    · rw [february] at inside ⊢
      simp only [monthLength, if_true] at inside ⊢
      have extra := leapDay_le year
      by_cases leap : isLeapYear d.year = true
      · have long : leapDay d.year = 1 := if_pos ((isLeapYear_iff past).mp leap)
        omega
      · have short : d.day ≠ 29 := fun last => kept ⟨february, last, by simpa using leap⟩
        omega
    · simp only [monthLength, february, if_false] at inside ⊢
      exact inside

theorem addMonths_sound (sound : d.Sound) (nmonths : UInt32) (convertible : d.Convertible) :
    (addMonths d nmonths).1.Sound ∧ ((addMonths d nmonths).2 = false → (addMonths d nmonths).1.number = d.number) := by
  obtain ⟨sound', number, converted⟩ := ensureDmy_spec sound convertible
  unfold addMonths
  by_cases valid : d.valid = true
  · have dmy := converted valid
    obtain ⟨past, some, few, positive, _⟩ := sound'.exists_day dmy
    have width := sound'.width
    simp only [valid, dmy, Bool.not_true, Bool.false_eq_true, if_false]
    split
    · exact ⟨sound', fun _ => number⟩
    · split
      · exact ⟨sound', fun _ => number⟩
      · rename_i few_years
        generalize nmonths + (UInt32.ofNat (ensureDmy d).month - 1) = n at few_years ⊢
        have years : (n / 12).toNat ≤ 2 ^ 16 - 1 - (ensureDmy d).year := by
          have fits := mt UInt32.lt_iff_toNat_lt.mpr few_years
          rw [UInt32.toNat_ofNat_of_lt' (Nat.lt_of_le_of_lt (Nat.sub_le _ _) (by decide))] at fits
          omega
        have month : (n % 12 + 1).toNat = n.toNat % 12 + 1 := by
          have twelve : (n % 12).toNat = n.toNat % 12 := UInt32.toNat_mod _ _
          have word : (1 : UInt32).toNat = 1 := rfl
          rw [toNat_add_small (by omega), twelve, word]
        refine ⟨clipDay_sound ?_ ?_ ?_ ?_ positive, fun rejected => absurd rejected nofun⟩
        all_goals dsimp only; omega
  · simp only [valid]
    exact ⟨sound, fun _ => rfl⟩

theorem addYears_sound (sound : d.Sound) (nyears : UInt32) (convertible : d.Convertible) :
    (addYears d nyears).1.Sound ∧ ((addYears d nyears).2 = false → (addYears d nyears).1.number = d.number) := by
  obtain ⟨sound', number, converted⟩ := ensureDmy_spec sound convertible
  unfold addYears
  by_cases valid : d.valid = true
  · have dmy := converted valid
    have exists_ := sound'.exists_day dmy
    have past := exists_.1
    have width := sound'.width
    simp only [valid, dmy, Bool.not_true, Bool.false_eq_true, if_false]
    split
    · exact ⟨sound', fun _ => number⟩
    · rename_i few
      refine ⟨clipLeapDay_sound ?_ ?_ exists_, fun rejected => absurd rejected nofun⟩
      all_goals dsimp only; omega
  · simp only [valid]
    exact ⟨sound, fun _ => rfl⟩

theorem subtractYears_sound (sound : d.Sound) (nyears : UInt32) (convertible : d.Convertible) :
    (subtractYears d nyears).1.Sound ∧
      ((subtractYears d nyears).2 = false → (subtractYears d nyears).1.number = d.number) := by
  obtain ⟨sound', number, converted⟩ := ensureDmy_spec sound convertible
  unfold subtractYears
  by_cases valid : d.valid = true
  · have dmy := converted valid
    have exists_ := sound'.exists_day dmy
    have width := sound'.width
    simp only [valid, dmy, Bool.not_true, Bool.false_eq_true, if_false]
    split
    · exact ⟨sound', fun _ => number⟩
    · rename_i later
      refine ⟨clipLeapDay_sound ?_ ?_ exists_, fun rejected => absurd rejected nofun⟩
      all_goals dsimp only; omega
  · simp only [valid]
    exact ⟨sound, fun _ => rfl⟩

/-- Going back so many months does not leave year 1, or the call is refused. -/
def Date.Reaches (d : Date) (nmonths : UInt32) : Prop :=
  ∀ year month day, ValidDay year month day → d.number = some (dayNumber year month day) →
    nmonths.toNat < 12 * (year - 1) + month ∨ year ≤ nmonths.toNat / 12

theorem subtractMonths_sound (sound : d.Sound) (nmonths : UInt32) (convertible : d.Convertible) (reaches : d.Reaches nmonths) :
    (subtractMonths d nmonths).1.Sound ∧
      ((subtractMonths d nmonths).2 = false → (subtractMonths d nmonths).1.number = d.number) := by
  obtain ⟨sound', number, converted⟩ := ensureDmy_spec sound convertible
  unfold subtractMonths
  by_cases valid : d.valid = true
  · have dmy := converted valid
    have exists_ := sound'.exists_day dmy
    have width := sound'.width
    have denoted : d.number = some (dayNumber (ensureDmy d).year (ensureDmy d).month (ensureDmy d).day) := by
      rw [← number]
      unfold Date.number
      by_cases julian : (ensureDmy d).julian = true
      · simp only [julian, if_true, sound'.same julian dmy]
      · simp only [julian, dmy, if_true]
        rfl
    have back := reaches _ _ _ exists_ denoted
    obtain ⟨past, some, few, positive, _⟩ := exists_
    simp only [valid, dmy, Bool.not_true, Bool.false_eq_true, if_false]
    split
    · exact ⟨sound', fun _ => number⟩
    · rename_i later
      by_cases same_year : (ensureDmy d).month > nmonths.toNat % 12
      · simp only [same_year, if_true]
        refine ⟨clipDay_sound ?_ ?_ ?_ ?_ positive, fun rejected => absurd rejected nofun⟩
        all_goals dsimp only; omega
      · simp only [same_year, if_false]
        refine ⟨clipDay_sound ?_ ?_ ?_ ?_ positive, fun rejected => absurd rejected nofun⟩
        all_goals dsimp only; omega
  · simp only [valid]
    exact ⟨sound, fun _ => rfl⟩

end Arithmetic

end Xpl.Time
