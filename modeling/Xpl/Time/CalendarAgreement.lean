import Xpl.Library.Partial
import Xpl.Time.DateInvariant
import Xpl.Time.DateTimeDays

/-! Dates and times count days, weekdays, days of the year and ISO weeks alike, and as
the calendar does. -/

set_option autoImplicit false

namespace Xpl.Time

open Xpl.Library

variable {year month day number : Nat}

section DateTime

theorem leapYearsTo_eq (past : Nat) : DateTime.leapYearsTo past = (daysThrough past : Int) - 365 * past := by
  unfold DateTime.leapYearsTo
  simp only [Int.natCast_tdiv_eq_ediv]
  rw [daysThrough_eq]
  omega

theorem leapYearsTo_step (past : Nat) :
    DateTime.leapYearsTo past - DateTime.leapYearsTo ((past : Int) - 1) = if past = 0 then 0 else (leapDay past : Int) := by
  cases past with
  | zero => rfl
  | succ past =>
    have shift : ((past + 1 : Nat) : Int) - 1 = (past : Int) := by omega
    rw [shift, leapYearsTo_eq, leapYearsTo_eq, daysThrough, yearLength, if_neg (Nat.succ_ne_zero past)]
    omega

theorem weekNumberOf_spec {past k : Nat} {g e s : Int} (inYear : k < yearLength (past + 1))
    (weekday_eq : ((k : Int) + g - e).tmod 7 = ((daysThrough past + k) % 7 : Nat))
    (year_before : k < 3 → g = ((daysThrough past) % 7 : Nat) ∧ s = if past = 0 then 0 else (leapDay past : Int))
    (year_after : 361 < k → s = leapDay (past + 1)) (leap : 0 ≤ s) :
    ∃ week : Nat, IsoWeek (daysThrough past + k + 1) week ∧
      DateTime.weekNumberOf k g e s =
        { weekNumber := week, dayOfWeek := weekday (daysThrough past + k + 1), dayOfYear := (k + 1 : Nat) } := by
  obtain ⟨r, weekday_r⟩ : ∃ r, (daysThrough past + k) % 7 = r := ⟨_, rfl⟩
  have thursday_r : thursday (daysThrough past + k + 1) = daysThrough past + k + 4 - r := by
    have days := thursday_eq (show 0 < daysThrough past + k + 1 from Nat.succ_pos _)
    rw [Nat.add_sub_cancel, weekday_r] at days
    exact days
  have same : weekday (daysThrough past + k + 1) = r + 1 := by
    unfold weekday
    rw [Nat.add_sub_cancel, weekday_r]
  have next : daysThrough (past + 1) = daysThrough past + (365 + leapDay (past + 1)) := rfl
  have later : daysThrough (past + 1 + 1) = daysThrough (past + 1) + (365 + leapDay (past + 1 + 1)) := rfl
  unfold yearLength at inYear
  unfold DateTime.weekNumberOf
  rw [weekday_eq, weekday_r, same]
  dsimp only
  by_cases before : k + 3 < r
  · -- Friday to Sunday at the beginning of the year: the last week of the year before
    obtain ⟨g_eq, s_eq⟩ := year_before (by omega)
    have notFirst : past ≠ 0 := by
      rintro rfl
      have start : daysThrough 0 = 0 := rfl
      omega
    obtain ⟨p, rfl⟩ : ∃ p, past = p + 1 := ⟨past - 1, by omega⟩
    have step : daysThrough (p + 1) = daysThrough p + (365 + leapDay (p + 1)) := rfl
    have extra' := leapDay_le (p + 1)
    refine ⟨_, @isoWeek_of _ p (by omega) (by omega), ?_⟩
    rw [if_pos (by omega), thursday_r, Int.tdiv_eq_ediv_of_nonneg (by omega)]
    congr 1
    omega
  · by_cases after : k + 3 - r > 364 + s
    · -- Monday to Wednesday at the end of the year: the first week of the year after
      have s_eq := year_after (by omega)
      refine ⟨_, @isoWeek_of _ (past + 1) (by omega) (by omega), ?_⟩
      congr 1
      omega
    · have inside : thursday (daysThrough past + k + 1) ≤ daysThrough (past + 1) := by
        by_cases end_ : 361 < k
        · have s_eq := year_after end_
          omega
        · omega
      refine ⟨_, @isoWeek_of _ past (by omega) inside, ?_⟩
      rw [if_neg (by omega), if_neg (by omega), thursday_r, Int.tdiv_eq_ediv_of_nonneg (by omega)]
      congr 1
      omega

theorem getWeekNumber_spec (valid : ValidDay year month day) :
    ∃ week : Nat, IsoWeek (dayNumber year month day) week ∧
      DateTime.getWeekNumber (dayNumber year month day) =
        some { weekNumber := week, dayOfWeek := weekday (dayNumber year month day), dayOfYear := dayOfYear year month day } := by
  have ymd := DateTime.getYmd_spec valid
  have first := valid.dayOfYear_pos
  have inside := valid.dayOfYear_le
  obtain ⟨positive, some_, few, firstDay, length⟩ := id valid
  obtain ⟨past, rfl⟩ : ∃ past, year = past + 1 := ⟨year - 1, by omega⟩
  obtain ⟨k, inYear⟩ : ∃ k, dayOfYear (past + 1) month day = k + 1 := ⟨dayOfYear (past + 1) month day - 1, by omega⟩
  have number : dayNumber (past + 1) month day = daysThrough past + k + 1 := by
    unfold dayNumber
    rw [inYear]
    rfl
  have extra := leapDay_le (past + 1)
  have step := leapYearsTo_step past
  have step' := leapYearsTo_step (past + 1)
  have shift : ((past + 1 : Nat) : Int) - 1 = (past : Int) := by omega
  have next : daysThrough (past + 1) = daysThrough past + (365 + leapDay (past + 1)) := rfl
  rw [shift, if_neg (Nat.succ_ne_zero past)] at step'
  unfold DateTime.getWeekNumber
  rw [ymd]
  simp only [some_bind]
  by_cases early : (month : Int) ≤ 2
  · have f : (day : Int) - 1 + 31 * ((month : Int) - 1) = k := by
      have start : monthStart (past + 1) month = 31 * (month - 1) := by
        have two : month ≤ 2 := by omega
        interval_cases month <;> rfl
      unfold dayOfYear at inYear
      omega
    have short : k < 60 := by
      have month31 := monthLength_le (past + 1) month
      have two : month ≤ 2 := by omega
      interval_cases month
      · omega
      · have february : monthLength (past + 1) 2 = 28 + leapDay (past + 1) := rfl
        omega
    have g : ((past : Int) + DateTime.leapYearsTo past).tmod 7 = (daysThrough past % 7 : Nat) := by
      have more : daysThrough past ≥ 365 * past := by
        rw [daysThrough_eq]
        omega
      rw [leapYearsTo_eq, Int.tmod_eq_emod_of_nonneg (by omega)]
      omega
    obtain ⟨week, iso, results⟩ := @weekNumberOf_spec past k (daysThrough past % 7 : Nat) 0
      (if past = 0 then 0 else (leapDay past : Int)) (by unfold yearLength; omega)
      (by rw [Int.tmod_eq_emod_of_nonneg (by omega)]; omega) (fun _ => ⟨rfl, rfl⟩) (fun far => by omega) (by split <;> omega)
    rw [if_pos early, shift, f, g, step, results, number]
    exact ⟨week, iso, by rw [inYear]; rfl⟩
  · have f : (day : Int) + (153 * ((month : Int) - 3) + 2).tdiv 5 + 58 + leapDay (past + 1) = k := by
      have start := monthStart_march (past + 1) (show 3 ≤ month by omega) few
      unfold dayOfYear at inYear
      rw [Int.tdiv_eq_ediv_of_nonneg (by omega)]
      omega
    have late : 3 ≤ k := by
      have start := monthStart_march (past + 1) (show 3 ≤ month by omega) few
      unfold dayOfYear at inYear
      omega
    have more : daysThrough (past + 1) ≥ 365 * (past + 1) := by
      rw [daysThrough_eq]
      omega
    have g : (((past + 1 : Nat) : Int) + DateTime.leapYearsTo ((past + 1 : Nat) : Int)).tmod 7 =
        ((daysThrough past + 1 + leapDay (past + 1)) % 7 : Nat) := by
      rw [leapYearsTo_eq, Int.tmod_eq_emod_of_nonneg (by omega)]
      omega
    obtain ⟨week, iso, results⟩ := @weekNumberOf_spec past k
      ((daysThrough past + 1 + leapDay (past + 1)) % 7 : Nat) (leapDay (past + 1) + 1) (leapDay (past + 1))
      (by unfold yearLength at inside ⊢; omega)
      (by rw [Int.tmod_eq_emod_of_nonneg (by omega)]; omega) (fun few => by omega) (fun _ => rfl) (by omega)
    rw [if_neg early, shift, step', f, g, results, number]
    exact ⟨week, iso, by rw [inYear]; rfl⟩

end DateTime

section Date

variable {d : Date}

theorem valid_of_number (denotes : d.number = some number) : d.valid = true := by
  rw [valid_iff]
  unfold Date.number at denotes
  split at denotes
  · exact .inl (by assumption)
  · split at denotes
    · exact .inr (by assumption)
    · exact absurd denotes nofun

theorem ensureJulian_number (sound : d.Sound) (denotes : d.number = some number) :
    (ensureJulian d).julian = true ∧ (ensureJulian d).julianDays.toNat = number := by
  obtain ⟨_, same, converted, _⟩ := ensureJulian_spec sound
  have julian := converted (valid_of_number denotes)
  rw [denotes] at same
  unfold Date.number at same
  rw [if_pos julian] at same
  exact ⟨julian, Option.some.inj same⟩

theorem ensureDmy_number (sound : d.Sound) (valid : ValidDay year month day)
    (denotes : d.number = some (dayNumber year month day)) (fits : year < 2 ^ 16) :
    (ensureDmy d).dmy = true ∧ (ensureDmy d).year = year ∧ (ensureDmy d).month = month ∧ (ensureDmy d).day = day := by
  have convertible : d.Convertible := by
    intro julian _
    unfold Date.number at denotes
    rw [if_pos julian] at denotes
    rw [Option.some.inj denotes]
    exact dayNumber_le_lastDay valid fits
  obtain ⟨sound', same, converted⟩ := ensureDmy_spec sound convertible
  have dmy := converted (valid_of_number denotes)
  have number : dayNumber (ensureDmy d).year (ensureDmy d).month (ensureDmy d).day = dayNumber year month day := by
    rw [denotes] at same
    unfold Date.number at same
    by_cases julian : (ensureDmy d).julian = true
    · rw [if_pos julian] at same
      rw [← sound'.same julian dmy]
      exact Option.some.inj same
    · rw [if_neg julian, if_pos dmy] at same
      exact Option.some.inj same
  exact ⟨dmy, dayNumber_injective (sound'.exists_day dmy) valid number⟩

theorem thursday_cycles {past k : Nat} (thursday_ : (daysThrough past + k) % 7 = 3) (inYear : k ≤ 365)
    (leap : k = 365 → Leap (past + 1)) :
    (daysThrough past + k) % 146097 % 36524 % 1461 = 365 * (past % 4) + k ∧ (k = 365 → past % 4 = 3) := by
  have cycles := DateTime.exists_cycles past k inYear leap
  have total := cycles.total
  have whole := cycles.remainder
  obtain ⟨_, centuries, fours, ones, _, last⟩ := cycles
  have few : 1461 * (past % 100 / 4) + (365 * (past % 4) + k) < 36524 := by omega
  have fewer : 365 * (past % 4) + k < 1461 := by omega
  refine ⟨?_, fun end_ => (last end_).1⟩
  rw [total, Nat.mul_add_mod, Nat.mod_eq_of_lt whole, Nat.mul_add_mod, Nat.mod_eq_of_lt few, Nat.mul_add_mod,
    Nat.mod_eq_of_lt fewer]

theorem dayOfFour {o k : Nat} (few : o < 4) (inYear : k ≤ 365) (leap : k = 365 → o = 3) :
    (365 * o + k - (365 * o + k) / 1460) % 365 + (365 * o + k) / 1460 = k := by
  by_cases last : 365 * o + k = 1460
  · rw [last]
    omega
  · have early : (365 * o + k) / 1460 = 0 := by omega
    have short : k < 365 := by omega
    rw [early, Nat.sub_zero, Nat.add_zero, Nat.mul_add_mod, Nat.mod_eq_of_lt short]

theorem isoWeek_formula {n : UInt32} (positive : 0 < n.toNat) (inside : n.toNat ≤ lastDay) :
    let j : UInt32 := n + 1721425
    let d4 : UInt32 := (j + 31741 - j % 7) % 146097 % 36524 % 1461
    IsoWeek n.toNat (((d4 - d4 / 1460) % 365 + d4 / 1460) / 7 + 1).toNat := by
  intro j d4
  have later := thursday_eq positive
  obtain ⟨year, month, day, valid, same⟩ := exists_dayNumber (thursday_pos positive)
  refine ⟨year, month, day, valid, same, ?_⟩
  obtain ⟨past, rfl⟩ : ∃ past, year = past + 1 := ⟨year - 1, by have some_ := valid.1; omega⟩
  obtain ⟨k, inYear⟩ : ∃ k, dayOfYear (past + 1) month day = k + 1 :=
    ⟨dayOfYear (past + 1) month day - 1, by have first := valid.dayOfYear_pos; omega⟩
  have number : thursday n.toNat = daysThrough past + k + 1 := by
    rw [← same]
    unfold dayNumber
    rw [inYear]
    rfl
  have length := valid.dayOfYear_le
  have extra := leapDay_le (past + 1)
  unfold yearLength at length
  have leap : k = 365 → Leap (past + 1) := by
    intro last
    by_contra common
    unfold leapDay at length
    rw [if_neg common] at length
    omega
  obtain ⟨four, third⟩ := @thursday_cycles past k (by omega) (by omega) leap
  unfold lastDay at inside
  have w1 : (1721425 : UInt32).toNat = 1721425 := rfl
  have w2 : (31741 : UInt32).toNat = 31741 := rfl
  have w3 : (7 : UInt32).toNat = 7 := rfl
  have j_eq : j.toNat = n.toNat + 1721425 := by rw [toNat_add_small (by omega), w1]
  have sum : (j + 31741).toNat = n.toNat + 1721425 + 31741 := by rw [toNat_add_small (by omega), j_eq, w2]
  have rest : (j % 7).toNat = (n.toNat + 1721425) % 7 := by rw [UInt32.toNat_mod, j_eq, w3]
  have monday : (j + 31741 - j % 7).toNat = 146097 * 12 + (daysThrough past + k) := by
    rw [toNat_sub_small (by omega), sum, rest]
    omega
  have d4_eq : d4.toNat = 365 * (past % 4) + k := by
    have period : (146097 : UInt32).toNat = 146097 := rfl
    have century : (36524 : UInt32).toNat = 36524 := rfl
    have fours : (1461 : UInt32).toNat = 1461 := rfl
    rw [UInt32.toNat_mod, UInt32.toNat_mod, UInt32.toNat_mod, monday, period, century, fours, Nat.mul_add_mod, four]
  have w4 : (1460 : UInt32).toNat = 1460 := rfl
  have w5 : (365 : UInt32).toNat = 365 := rfl
  have w6 : (1 : UInt32).toNat = 1 := rfl
  have L : (d4 / 1460).toNat = (365 * (past % 4) + k) / 1460 := by rw [UInt32.toNat_div, d4_eq, w4]
  have d1 : ((d4 - d4 / 1460) % 365 + d4 / 1460).toNat = k := by
    have difference : ((d4 - d4 / 1460) % 365).toNat = (365 * (past % 4) + k - (365 * (past % 4) + k) / 1460) % 365 := by
      rw [UInt32.toNat_mod, toNat_sub_small (by omega), d4_eq, L, w5]
    rw [toNat_add_small (by omega), difference, L]
    exact dayOfFour (Nat.mod_lt _ (by decide)) (by omega) third
  have seventh : (((d4 - d4 / 1460) % 365 + d4 / 1460) / 7).toNat = k / 7 := by rw [UInt32.toNat_div, d1, w3]
  rw [toNat_add_small (by omega), seventh, w6, inYear, Nat.add_sub_cancel]

end Date

section Agreement

variable {d : Date}

theorem getWeekday_spec (sound : d.Sound) (denotes : d.number = some number) : (getWeekday d).1 = weekday number := by
  obtain ⟨julian, days⟩ := ensureJulian_number sound denotes
  have valid := valid_of_number denotes
  have positive := (ensureJulian_spec sound).1.positive julian
  have w1 : (1 : UInt32).toNat = 1 := rfl
  have w7 : (7 : UInt32).toNat = 7 := rfl
  unfold getWeekday weekday
  simp only [valid, julian, Bool.not_true, Bool.false_eq_true, if_false, if_true]
  have past : ((ensureJulian d).julianDays - 1).toNat = number - 1 := by rw [toNat_sub_small (by omega), days, w1]
  have rest : (((ensureJulian d).julianDays - 1) % 7).toNat = (number - 1) % 7 := by rw [UInt32.toNat_mod, past, w7]
  rw [toNat_add_small (by omega), rest, w1]

theorem getJulian_number (sound : d.Sound) (denotes : d.number = some number) : (getJulian d).1.toNat = number := by
  obtain ⟨julian, days⟩ := ensureJulian_number sound denotes
  unfold getJulian
  simp only [valid_of_number denotes, julian, Bool.not_true, Bool.false_eq_true, if_false, if_true]
  exact days

theorem getDayOfYear_spec (sound : d.Sound) (valid : ValidDay year month day)
    (denotes : d.number = some (dayNumber year month day)) (fits : year < 2 ^ 16) :
    (getDayOfYear d).1 = dayOfYear year month day := by
  obtain ⟨dmy, sameYear, sameMonth, sameDay⟩ := ensureDmy_number sound valid denotes fits
  unfold getDayOfYear
  simp only [valid_of_number denotes, dmy, Bool.not_true, Bool.false_eq_true, if_false, if_true, sameYear, sameMonth, sameDay]
  rw [daysInYear_eq valid.1 valid.2.1 valid.2.2.1]
  rfl

theorem getIso8601WeekOfYear_spec (sound : d.Sound) (denotes : d.number = some number) (inside : number ≤ lastDay) :
    IsoWeek number (getIso8601WeekOfYear d).1.toNat := by
  obtain ⟨julian, days⟩ := ensureJulian_number sound denotes
  have positive := (ensureJulian_spec sound).1.positive julian
  have formula := isoWeek_formula positive (by rw [days]; exact inside)
  unfold getIso8601WeekOfYear
  simp only [valid_of_number denotes, julian, Bool.not_true, Bool.false_eq_true, if_false, if_true]
  rw [days] at formula
  exact formula

/-- A time on the given day: its functions see the day number only. -/
def DateTime.Agrees (days : Int) (year month day week : Nat) : Prop :=
  DateTime.getYmd days = some ((year : Int), (month : Int), (day : Int)) ∧
    DateTime.getDayOfWeek days = weekday (dayNumber year month day) ∧
    DateTime.getDayOfYear days = some (dayOfYear year month day : Int) ∧
    DateTime.getWeekOfYear days = some (week : Int)

/-- A date on the given day, whichever of its representations are set. -/
def Date.Agrees (d : Date) (year month day week : Nat) : Prop :=
  (getJulian d).1.toNat = dayNumber year month day ∧
    (getWeekday d).1 = weekday (dayNumber year month day) ∧
    (getDayOfYear d).1 = dayOfYear year month day ∧
    (getIso8601WeekOfYear d).1.toNat = week

/-- Every day up to the end of year 9999: both calendars number it alike, the time finds year, month
and day again, and both know its weekday, its day of the year and its ISO week. -/
theorem calendars_agree (year month day : Nat) (valid : ValidDay year month day) (last : year ≤ 9999) :
    DateTime.ymdToDays year month day = dayNumber year month day ∧
      ∃ week, IsoWeek (dayNumber year month day) week ∧
        DateTime.Agrees (DateTime.ymdToDays year month day) year month day week ∧
        ∀ d : Date, d.Sound → d.number = some (dayNumber year month day) → d.Agrees year month day week := by
  have days := DateTime.ymdToDays_eq valid
  have fits : year < 2 ^ 16 := by omega
  obtain ⟨week, iso, results⟩ := getWeekNumber_spec valid
  refine ⟨days, week, iso, ?_, fun d sound denotes => ?_⟩
  · rw [days]
    refine ⟨DateTime.getYmd_spec valid, ?_, ?_, ?_⟩
    · have positive := valid.dayNumber_pos
      unfold DateTime.getDayOfWeek weekday
      rw [Int.tmod_eq_emod_of_nonneg (by omega)]
      omega
    · rw [DateTime.getDayOfYear, results]
      rfl
    · rw [DateTime.getWeekOfYear, results]
      rfl
  · have dateIso := getIso8601WeekOfYear_spec sound denotes (dayNumber_le_lastDay valid fits)
    exact ⟨getJulian_number sound denotes, getWeekday_spec sound denotes, getDayOfYear_spec sound valid denotes fits,
      dateIso.unique iso⟩

/-- The Saturday 1 January 2000 lies in the last week of the year before. -/
theorem calendars_agree_sample :
    DateTime.ymdToDays (2000 : Nat) (1 : Nat) (1 : Nat) = dayNumber 2000 1 1 ∧
      ∃ week, IsoWeek (dayNumber 2000 1 1) week ∧
        DateTime.Agrees (DateTime.ymdToDays (2000 : Nat) (1 : Nat) (1 : Nat)) 2000 1 1 week ∧
        ∀ d : Date, d.Sound → d.number = some (dayNumber 2000 1 1) → d.Agrees 2000 1 1 week :=
  calendars_agree 2000 1 1 (by decide) (by decide)

end Agreement

end Xpl.Time
