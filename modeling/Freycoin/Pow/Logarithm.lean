import Mathlib.Analysis.SpecialFunctions.Log.Basic

/-! The logarithm that `mpfr_ln_fixed` in `pow.cpp` and `pow/pow_utils.cpp` computes.

All the proof-of-work proofs assume of `mpfr_ln_fixed` is that it is within one of
`ln(x) * 2^48`. -/

namespace Freycoin.Pow

/-- The documented behaviour of the MPFR logarithm at precision 48. -/
def LnFixedSpec (lnFixed : Int → Nat → Int) : Prop :=
  ∀ x : Int, 1 ≤ x → x < 2 ^ 1024 → |(lnFixed x 48 : ℝ) - Real.log x * 2 ^ 48| ≤ 1

theorem log_two_pow_ge (bits : Nat) : (bits : ℝ) / 2 ≤ Real.log (2 ^ bits) := by
  have half : 1 - (2 : ℝ)⁻¹ ≤ Real.log 2 := Real.one_sub_inv_le_log_of_pos (by norm_num)
  rw [Real.log_pow]
  have bitsNonneg : (0 : ℝ) ≤ bits := Nat.cast_nonneg bits
  nlinarith

theorem log_two_pow_le (bits : Nat) : Real.log (2 ^ bits) ≤ bits := by
  have one : Real.log 2 ≤ 2 - 1 := Real.log_le_sub_one_of_pos (by norm_num)
  rw [Real.log_pow]
  have bitsNonneg : (0 : ℝ) ≤ bits := Nat.cast_nonneg bits
  nlinarith

variable {lnFixed : Int → Nat → Int}

theorem lnFixed_bounds (spec : LnFixedSpec lnFixed) {x : Nat} (low : 2 ^ 213 ≤ x)
    (high : x < 2 ^ 512) : 0 < lnFixed x 48 ∧ lnFixed x 48 ≤ 2 ^ 97 := by
  have lowReal : (2 : ℝ) ^ 213 ≤ x := by exact_mod_cast low
  have highReal : (x : ℝ) ≤ 2 ^ 512 := by exact_mod_cast high.le
  have logLow : (213 : ℝ) / 2 ≤ Real.log x :=
    (log_two_pow_ge 213).trans (Real.log_le_log (by positivity) lowReal)
  have positive : (0 : ℝ) < x := lt_of_lt_of_le (by positivity) lowReal
  have logHigh : Real.log x ≤ 512 :=
    (Real.log_le_log positive highReal).trans (log_two_pow_le 512)
  have one : (1 : Int) ≤ x := by exact_mod_cast Nat.one_le_two_pow.trans low
  have below : (x : Int) < 2 ^ 1024 := by
    exact_mod_cast high.trans (Nat.pow_lt_pow_right (by norm_num) (by norm_num))
  have close := spec x one below
  rw [abs_le] at close
  push_cast at close
  constructor
  · have positive : (0 : ℝ) < lnFixed x 48 := by linarith only [close.1, logLow]
    exact_mod_cast positive
  · have small : (lnFixed x 48 : ℝ) ≤ 2 ^ 97 := by linarith only [close.2, logHigh]
    exact_mod_cast small

/-- The exact logarithm rounded to the nearest integer, which MPFR's result matches. -/
noncomputable def lnFixedReference (x : Int) (precision : Nat) : Int :=
  round (Real.log x * 2 ^ precision)

theorem lnFixedReference_spec : LnFixedSpec lnFixedReference := by
  intro x _ _
  rw [lnFixedReference, abs_sub_comm]
  exact (abs_sub_round _).trans (by norm_num)

/-- What the retarget needs of the logarithm on the timespans it clamps to, `[1, 1800]`:
exact at one, where the logarithm is zero, monotone as correct rounding makes it, and far
below `2^64`. -/
structure LnFixedOnTimespans (lnFixed : Int → Nat → Int) : Prop where
  one : lnFixed 1 48 = 0
  monotone : ∀ x y : Int, 1 ≤ x → x ≤ y → y ≤ 1800 → lnFixed x 48 ≤ lnFixed y 48
  fits : lnFixed 1800 48 < 2 ^ 64

theorem LnFixedOnTimespans.bounds (onTimespans : LnFixedOnTimespans lnFixed) {t : Int}
    (low : 1 ≤ t) (high : t ≤ 1800) : 0 ≤ lnFixed t 48 ∧ lnFixed t 48 < 2 ^ 64 := by
  have above := onTimespans.monotone 1 t le_rfl low high
  have below := onTimespans.monotone t 1800 low high le_rfl
  rw [onTimespans.one] at above
  exact ⟨above, below.trans_lt onTimespans.fits⟩

theorem round_le_round_of_le {x y : ℝ} (le : x ≤ y) : round x ≤ round y := by
  rw [round_eq, round_eq]
  exact Int.floor_le_floor (by linarith)

theorem lnFixedReference_onTimespans : LnFixedOnTimespans lnFixedReference where
  one := by simp [lnFixedReference]
  monotone x y low le _ := by
    have positive : (0 : ℝ) < x := by exact_mod_cast Int.lt_of_lt_of_le Int.one_pos low
    have logs : Real.log x ≤ Real.log y := Real.log_le_log positive (by exact_mod_cast le)
    exact round_le_round_of_le (by nlinarith [pow_pos (by norm_num : (0 : ℝ) < 2) 48])
  fits := by
    have small : Real.log ((1800 : Int) : ℝ) ≤ 1800 - 1 :=
      Real.log_le_sub_one_of_pos (by norm_num) |>.trans (by norm_num)
    have rounded := round_le_round_of_le (mul_le_mul_of_nonneg_right small
      (by positivity : (0 : ℝ) ≤ 2 ^ 48))
    have exact : round ((1800 - 1 : ℝ) * 2 ^ 48) = 1799 * 2 ^ 48 := by
      rw [show (1800 - 1 : ℝ) * 2 ^ 48 = ((1799 * 2 ^ 48 : Int) : ℝ) by push_cast; ring, round_intCast]
    rw [lnFixedReference]
    omega

end Freycoin.Pow
