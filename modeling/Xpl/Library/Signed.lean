import Mathlib.Data.Int.ModEq

/-! Signed machine integers as the integers of a symmetric range: a result outside of
`[-half, half)` wraps around. -/

set_option autoImplicit false

namespace Xpl.Library

variable {half value other : Int}

def wrapTo (half value : Int) : Int := (value + half) % (2 * half) - half

/-- The value is one of the machine's integers. -/
def Fits (half value : Int) : Prop := -half ≤ value ∧ value < half

instance (half value : Int) : Decidable (Fits half value) := inferInstanceAs (Decidable (_ ∧ _))

theorem wrapTo_of_fits (fits : Fits half value) : wrapTo half value = value := by
  obtain ⟨lower, upper⟩ := fits
  unfold wrapTo
  rw [Int.emod_eq_of_lt (by omega) (by omega)]
  omega

theorem fits_wrapTo (positive : 0 < half) (value : Int) : Fits half (wrapTo half value) := by
  have lower := Int.emod_nonneg (value + half) (show 2 * half ≠ 0 by omega)
  have upper := Int.emod_lt_of_pos (value + half) (show 0 < 2 * half by omega)
  unfold Fits wrapTo
  omega

theorem wrapTo_eq_iff (positive : 0 < half) : wrapTo half value = value ↔ Fits half value := by
  constructor
  · intro same
    rw [← same]
    exact fits_wrapTo positive value
  · exact wrapTo_of_fits

/-- A value that is too large by less than the width ends up below the range's middle. -/
theorem wrapTo_of_above (large : half ≤ value) (once : value < 3 * half) : wrapTo half value = value - 2 * half := by
  unfold wrapTo
  rw [← Int.sub_emod_right, Int.emod_eq_of_lt (by omega) (by omega)]
  omega

theorem wrapTo_of_below (small : value < -half) (once : -(3 * half) ≤ value) : wrapTo half value = value + 2 * half := by
  unfold wrapTo
  rw [← Int.add_emod_right, Int.emod_eq_of_lt (by omega) (by omega)]
  omega

theorem wrapTo_modEq (half value : Int) : wrapTo half value ≡ value [ZMOD 2 * half] := by
  have step := (Int.mod_modEq (value + half) (2 * half)).sub_right half
  rw [Int.add_sub_cancel] at step
  exact step

/-- Wrapping in between does not change what a sum wraps to. -/
theorem wrapTo_add_wrapTo (half value other : Int) : wrapTo half (value + wrapTo half other) = wrapTo half (value + other) := by
  have inner := ((wrapTo_modEq half other).add_left value).add_right half
  unfold wrapTo at inner ⊢
  rw [inner]

end Xpl.Library
