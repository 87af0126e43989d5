import Mathlib.Tactic.Linarith
import Xpl.Library.Calendar
import Xpl.Time.DateTime

/-! Day numbers of gdatetime.c: `ymdToDays` counts the days of the calendar and `getYmd`
takes the number apart again. -/

set_option autoImplicit false

namespace Xpl.Time.DateTime

open Xpl.Library

variable {year month day : Nat}

theorem gregorianLeap_iff (year : Nat) : gregorianLeap (year : Int) = true ↔ Leap year := by
  simp only [gregorianLeap, Leap, Int.tmod_eq_emod_of_nonneg (Int.natCast_nonneg year), Bool.and_eq_true, beq_iff_eq,
    Bool.not_eq_true', Bool.and_eq_false_iff, beq_eq_false_iff_ne, bne_eq_false_iff_eq]
  omega

theorem gregorianLeap_eq (year : Nat) : gregorianLeap (year : Int) = decide (Leap year) := by
  by_cases leap : Leap year
  · rw [(gregorianLeap_iff year).mpr leap, decide_eq_true leap]
  · rw [decide_eq_false leap]
    exact Bool.eq_false_iff.mpr (mt (gregorianLeap_iff year).mp leap)

theorem entry_months (some : 0 < month) (few : month ≤ 12) (year : Nat) :
    entry daysInMonths (if Leap year then 1 else 0) month = monthLength year month := by
  unfold monthLength leapDay
  split <;> interval_cases month <;> rfl

theorem entry_year (some : 0 < month) (few : month ≤ 12) (year : Nat) :
    entry daysInYear 0 (month - 1 : Int) + (if (month : Int) > 2 && decide (Leap year) then 1 else 0) =
      monthStart year month := by
  by_cases leap : Leap year
  · interval_cases month <;> simp [monthStart, monthLength, leapDay, leap, entry, daysInYear]
  · interval_cases month <;> simp [monthStart, monthLength, leapDay, leap, entry, daysInYear]

theorem ymdToDays_eq (valid : ValidDay year month day) : ymdToDays year month day = dayNumber year month day := by
  obtain ⟨past, some, few, _, _⟩ := valid
  have start := entry_year some few year
  obtain ⟨before, rfl⟩ : ∃ before, year = before + 1 := ⟨year - 1, by omega⟩
  have shift : ((before + 1 : Nat) : Int) - 1 = (before : Int) := by omega
  unfold ymdToDays
  rw [gregorianLeap_eq, shift, Bool.and_comm]
  simp only [Int.natCast_tdiv_eq_ediv, dayNumber, dayOfYear, daysThrough_eq, Nat.add_sub_cancel]
  cases late : decide ((month : Int) > 2) && decide (Leap (before + 1)) with
  | true =>
    rw [late, if_pos rfl] at start
    rw [if_pos rfl]
    omega
  | false =>
    rw [late, if_neg Bool.false_ne_true] at start
    rw [if_neg Bool.false_ne_true]
    omega

theorem estimate (valid : ValidDay year month day) (inside : dayOfYear year month day ≤ 365) :
    (dayOfYear year month day - 1 + 50) / 32 = month ∨
      (dayOfYear year month day - 1 + 50) / 32 = month + 1 ∧ month < 12 := by
  obtain ⟨_, some, few, positive, length⟩ := valid
  have extra := leapDay_le year
  unfold dayOfYear at inside ⊢
  interval_cases month <;> simp [monthStart, monthLength] at inside length ⊢ <;> omega

theorem getMonthDay_spec (valid : ValidDay year month day) (inside : dayOfYear year month day ≤ 365) :
    getMonthDay ((dayOfYear year month day - 1 : Nat) : Int) (decide (Leap year)) = some ((month : Int), (day : Int)) := by
  have landed := estimate valid inside
  obtain ⟨_, positive, few, first, length⟩ := valid
  have start := entry_year positive few year
  have months := entry_months positive few year
  have shift : (((dayOfYear year month day - 1 : Nat) : Int) + 50) >>> (5 : Nat) =
      (((dayOfYear year month day - 1 + 50) / 32 : Nat) : Int) := by
    rw [Int.shiftRight_eq_div_pow]
    rfl
  have next := monthStart_succ year positive
  unfold getMonthDay
  dsimp only
  rw [shift]
  rcases landed with exact_ | ⟨later, more⟩
  · rw [exact_, start]
    have before : ¬((monthStart year month : Int) > ((dayOfYear year month day - 1 : Nat) : Int)) := by
      unfold dayOfYear
      omega
    rw [if_neg before]
    have rest : ((dayOfYear year month day - 1 : Nat) : Int) - monthStart year month = day - 1 := by
      unfold dayOfYear
      omega
    rw [rest, if_pos (by omega)]
    congr 2
    omega
  · have start' := @entry_year (month + 1) (by omega) (by omega) year
    rw [later, start', next]
    have after : ((monthStart year month + monthLength year month : Nat) : Int) > ((dayOfYear year month day - 1 : Nat) : Int) := by
      unfold dayOfYear
      omega
    rw [if_pos after]
    have back : ((month + 1 : Nat) : Int) - 1 = (month : Int) := by omega
    have index : (if decide (Leap year) = true then 1 else 0) = if Leap year then 1 else 0 := by simp
    rw [back, index, months]
    have rest : ((dayOfYear year month day - 1 : Nat) : Int) -
        (((monthStart year month + monthLength year month : Nat) : Int) - monthLength year month) = day - 1 := by
      unfold dayOfYear
      omega
    rw [rest, if_pos (by omega)]
    congr 2
    omega

/-- The cycles of a day: `k` days into the year that is `p` years after the first. -/
structure Cycles (p k q c f o : Nat) : Prop where
  years : p = 400 * q + 100 * c + 4 * f + o
  centuries : c < 4
  fours : f < 25
  ones : o < 4
  inYear : k ≤ 365
  leap : k = 365 → o = 3 ∧ (f = 24 → c = 3)

theorem exists_cycles (p k : Nat) (inYear : k ≤ 365) (leap : k = 365 → Leap (p + 1)) :
    Cycles p k (p / 400) (p % 400 / 100) (p % 100 / 4) (p % 4) := by
  refine ⟨by omega, by omega, by omega, by omega, inYear, fun last => ?_⟩
  obtain ⟨fourth, century⟩ := leap last
  omega

section Cycles

variable {p k q c f o : Nat}

theorem Cycles.total (cycles : Cycles p k q c f o) :
    daysThrough p + k = 146097 * q + (36524 * c + (1461 * f + (365 * o + k))) := by
  obtain ⟨years, _, _, _, _, _⟩ := cycles
  rw [daysThrough_eq]
  omega

theorem Cycles.remainder (cycles : Cycles p k q c f o) : 36524 * c + (1461 * f + (365 * o + k)) < 146097 := by
  obtain ⟨_, _, _, _, _, leap⟩ := cycles
  omega

/-- The last day of a leap year counts as a fifth year of its four, or a fifth century. -/
theorem Cycles.last (cycles : Cycles p k q c f o) (last : k = 365) :
    o = 3 ∧ ((f = 24 ∧ c = 3 ∧ 36524 * c + (1461 * f + (365 * o + k)) = 36524 * 4 + 0) ∨
      (1461 * f + (365 * o + k) < 36524 ∧ 365 * o + k = 4 * 365)) := by
  obtain ⟨_, _, _, _, _, leap⟩ := cycles
  omega

theorem Cycles.inside (cycles : Cycles p k q c f o) (other : k < 365) :
    1461 * f + (365 * o + k) < 36524 ∧ 365 * o + k < 1461 := by
  obtain ⟨_, _, _, _, _, _⟩ := cycles
  omega

theorem Cycles.leap_iff (cycles : Cycles p k q c f o) : Leap (p + 1) ↔ o = 3 ∧ (f ≠ 24 ∨ c = 3) := by
  obtain ⟨years, _, _, _, _, _⟩ := cycles
  constructor
  · rintro ⟨fourth, century⟩
    omega
  · rintro ⟨third, century⟩
    constructor <;> omega

end Cycles

theorem tdiv_cycle (length q r : Nat) (small : r < length) :
    ((length * q + r : Nat) : Int).tdiv (length : Int) = q ∧ ((length * q + r : Nat) : Int).tmod (length : Int) = r := by
  have positive : 0 < length := Nat.lt_of_le_of_lt (Nat.zero_le r) small
  rw [Int.natCast_tdiv_eq_ediv, Int.tmod_eq_emod_of_nonneg (Int.natCast_nonneg _)]
  constructor
  · norm_cast
    rw [Nat.mul_add_div positive, Nat.div_eq_of_lt small, Nat.add_zero]
  · norm_cast
    rw [Nat.mul_add_mod, Nat.mod_eq_of_lt small]

theorem getYmd_cycles {p k q c f o : Nat} (cycles : Cycles p k q c f o) (other : k < 365) :
    getYmd ((daysThrough p + k + 1 : Nat) : Int) =
      (getMonthDay k (decide (Leap (p + 1)))).map fun monthDay => (((p + 1 : Nat) : Int), monthDay.1, monthDay.2) := by
  obtain ⟨few, fewer⟩ := cycles.inside other
  have leapYear := cycles.leap_iff
  have total := cycles.total
  have whole := cycles.remainder
  obtain ⟨years, centuries, fours, ones, _, _⟩ := cycles
  have past : ((daysThrough p + k + 1 : Nat) : Int) - 1 =
      ((146097 * q + (36524 * c + (1461 * f + (365 * o + k))) : Nat) : Int) := by omega
  obtain ⟨div400, mod400⟩ := tdiv_cycle 146097 q _ whole
  obtain ⟨div100, mod100⟩ := tdiv_cycle 36524 c _ few
  obtain ⟨div4, mod4⟩ := tdiv_cycle 1461 f _ fewer
  obtain ⟨div1, mod1⟩ := tdiv_cycle 365 o k other
  have length1 : daysIn400Years = ((146097 : Nat) : Int) := rfl
  have length2 : daysIn100Years = ((36524 : Nat) : Int) := rfl
  have length3 : daysIn4Years = ((1461 : Nat) : Int) := rfl
  have length4 : (365 : Int) = ((365 : Nat) : Int) := rfl
  have year : (q : Int) * 400 + 1 + c * 100 + f * 4 + o = ((p + 1 : Nat) : Int) := by omega
  unfold getYmd
  rw [past, length1, length2, length3, length4]
  simp only [div400, mod400, div100, mod100, div4, mod4, div1, mod1, year]
  have notLast : ((decide ((o : Int) = 4) || decide ((c : Int) = 4)) = true) = False := by
    simp only [Bool.or_eq_true, decide_eq_true_eq, eq_iff_iff, iff_false, not_or]
    omega
  have leap : (decide ((o : Int) = 3) && (decide ((f : Int) ≠ 24) || decide ((c : Int) = 3))) = decide (Leap (p + 1)) := by
    rw [Bool.eq_iff_iff]
    simp only [Bool.and_eq_true, Bool.or_eq_true, decide_eq_true_eq, leapYear]
    omega
  rw [leap, gregorianLeap_eq]
  simp only [notLast, if_false, if_true]
  cases getMonthDay k (decide (Leap (p + 1))) with
  | none => rfl
  | some monthDay => rfl

theorem getYmd_last {p q c f o : Nat} (cycles : Cycles p 365 q c f o) :
    getYmd ((daysThrough p + 365 + 1 : Nat) : Int) = some (((p + 1 : Nat) : Int), 12, 31) := by
  have total := cycles.total
  have whole := cycles.remainder
  obtain ⟨third, last⟩ := cycles.last rfl
  obtain ⟨years, centuries, fours, ones, _, _⟩ := cycles
  have past : ((daysThrough p + 365 + 1 : Nat) : Int) - 1 =
      ((146097 * q + (36524 * c + (1461 * f + (365 * o + 365))) : Nat) : Int) := by omega
  obtain ⟨div400, mod400⟩ := tdiv_cycle 146097 q _ whole
  have length1 : daysIn400Years = ((146097 : Nat) : Int) := rfl
  unfold getYmd
  rw [past, length1]
  simp only [div400, mod400]
  rcases last with ⟨lastFour, lastCentury, end_⟩ | ⟨few, end_⟩
  · obtain ⟨div100, mod100⟩ := tdiv_cycle 36524 4 0 (by omega)
    have length2 : daysIn100Years = ((36524 : Nat) : Int) := rfl
    rw [end_, length2]
    have year : (q : Int) * 400 + 1 + 4 * 100 - 1 = ((p + 1 : Nat) : Int) := by omega
    simpa [daysIn4Years] using year
  · obtain ⟨div100, mod100⟩ := tdiv_cycle 36524 c _ few
    have length2 : daysIn100Years = ((36524 : Nat) : Int) := rfl
    have small : 365 * o + 365 < 1461 := by
      rw [end_]
      decide
    obtain ⟨div4, mod4⟩ := tdiv_cycle 1461 f (365 * o + 365) small
    have length3 : daysIn4Years = ((1461 : Nat) : Int) := rfl
    rw [length2, length3]
    simp only [div100, mod100, div4, mod4]
    rw [end_]
    have year : (q : Int) * 400 + 1 + c * 100 + f * 4 + 4 - 1 = ((p + 1 : Nat) : Int) := by omega
    simpa using year

/-- The cycles of a day lead back to it, and no assertion fails on the way. -/
theorem getYmd_spec (valid : ValidDay year month day) :
    getYmd (dayNumber year month day) = some ((year : Int), (month : Int), (day : Int)) := by
  have first := valid.dayOfYear_pos
  have length := valid.dayOfYear_le
  have extra := leapDay_le year
  obtain ⟨p, rfl⟩ : ∃ p, year = p + 1 := ⟨year - 1, by have past := valid.1; omega⟩
  unfold yearLength at length
  have number : dayNumber (p + 1) month day = daysThrough p + (dayOfYear (p + 1) month day - 1) + 1 := by
    unfold dayNumber
    rw [Nat.add_sub_cancel]
    omega
  have leap : dayOfYear (p + 1) month day - 1 = 365 → Leap (p + 1) := by
    intro last
    by_contra common
    unfold leapDay at length
    rw [if_neg common] at length
    omega
  have cycles := exists_cycles p (dayOfYear (p + 1) month day - 1) (by omega) leap
  by_cases last : dayOfYear (p + 1) month day - 1 = 365
  · have newYear : ValidDay (p + 1) 12 31 := ⟨Nat.succ_pos p, by decide, le_refl 12, by decide, le_refl 31⟩
    have end_ : dayOfYear (p + 1) 12 31 = yearLength (p + 1) := monthStart_end (p + 1)
    have same := dayNumber_injective valid newYear (by unfold dayNumber; unfold yearLength at end_; omega)
    rw [number, last, getYmd_last (last ▸ cycles), same.2.1, same.2.2]
    rfl
  · rw [number, getYmd_cycles cycles (by omega), getMonthDay_spec valid (by omega)]
    rfl

end Xpl.Time.DateTime
