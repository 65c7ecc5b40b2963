import Mathlib.Algebra.Order.Floor.Ring
import Mathlib.Data.Rat.Floor
import Mathlib.Order.Compare
import Mathlib.Tactic.LinearCombination

/-! Wide numbers as a high and a low part, and their division rounded either way. -/

namespace WideDivision

/-- `n / d` rounded down when `roundDown`, up otherwise (for `0 < d`). -/
def roundedDiv (n d : ℤ) (roundDown : Bool) : ℤ := if roundDown then n / d else -(-n / d)

section Order

variable {B : ℤ}

theorem mul_add_lt_of_lt (positive : 0 < B) {h h' l l' : ℤ} (low : l < B) (low' : 0 ≤ l')
    (less : h < h') : h * B + l < h' * B + l' := by
  have step : (h + 1) * B ≤ h' * B := Int.mul_le_mul_of_nonneg_right less positive.le
  rw [Int.add_mul, Int.one_mul] at step
  omega

theorem compare_mul_add (positive : 0 < B) {h h' l l' : ℤ} (low : 0 ≤ l ∧ l < B)
    (low' : 0 ≤ l' ∧ l' < B) :
    compare (h * B + l) (h' * B + l') = (compare h h').then (compare l l') := by
  rcases lt_trichotomy h h' with less | rfl | more
  · rw [compare_lt_iff_lt.mpr (mul_add_lt_of_lt positive low.2 low'.1 less),
      compare_lt_iff_lt.mpr less]
    rfl
  · rw [Int.compare_eq_eq.mpr rfl, Ordering.eq_then]
    rcases lt_trichotomy l l' with less | rfl | more
    · rw [compare_lt_iff_lt.mpr less, compare_lt_iff_lt.mpr (by omega)]
    · rw [Int.compare_eq_eq.mpr rfl, Int.compare_eq_eq.mpr rfl]
    · rw [compare_gt_iff_gt.mpr more, compare_gt_iff_gt.mpr (by omega)]
  · rw [compare_gt_iff_gt.mpr (mul_add_lt_of_lt positive low'.2 low.1 more),
      compare_gt_iff_gt.mpr more]
    rfl

end Order

section Rounding

variable {d : ℤ}

theorem roundedDiv_true_eq_floor (n : ℤ) (positive : 0 < d) :
    roundedDiv n d true = ⌊(n : ℚ) / d⌋ := by
  obtain ⟨k, rfl⟩ := Int.eq_ofNat_of_zero_le positive.le
  rw [roundedDiv, if_pos rfl, Int.cast_natCast, Rat.floor_intCast_div_natCast]

theorem roundedDiv_false_eq_ceil (n : ℤ) (positive : 0 < d) :
    roundedDiv n d false = ⌈(n : ℚ) / d⌉ := by
  have floor := roundedDiv_true_eq_floor (-n) positive
  rw [roundedDiv, if_pos rfl, Int.cast_neg, neg_div, Int.floor_neg] at floor
  rw [roundedDiv, if_neg Bool.false_ne_true, floor, Int.neg_neg]

theorem ediv_eq_of_eq (positive : 0 < d) {n q r : ℤ} (split : r + d * q = n) (low : 0 ≤ r)
    (high : r < d) : n / d = q :=
  ((Int.ediv_emod_unique positive).mpr ⟨split, low, high⟩).1

theorem tmod_nonpos (n : ℤ) (nonpos : n ≤ 0) : n.tmod d ≤ 0 := by
  have flipped := Int.tmod_nonneg d (Int.neg_nonneg_of_nonpos nonpos)
  rw [Int.neg_tmod] at flipped
  omega

theorem tdiv_cases (n : ℤ) (positive : 0 < d) :
    (0 < n.tmod d ∧ 0 ≤ n.tdiv d ∧ n / d = n.tdiv d ∧ -n / d = -n.tdiv d - 1) ∨
    (n.tmod d = 0 ∧ n / d = n.tdiv d ∧ -n / d = -n.tdiv d) ∨
    (n.tmod d < 0 ∧ n.tdiv d ≤ 0 ∧ n / d = n.tdiv d - 1 ∧ -n / d = -n.tdiv d) := by
  have split := Int.mul_tdiv_add_tmod n d
  have above := Int.lt_tmod_of_pos n positive
  have below := Int.tmod_lt_of_pos n positive
  rcases lt_trichotomy 0 (n.tmod d) with sign | sign | sign
  · have nonneg : 0 ≤ n := by
      by_contra negative
      have := tmod_nonpos (d := d) n (by omega)
      omega
    refine Or.inl ⟨sign, ?_, ediv_eq_of_eq positive (by omega) sign.le below,
      ediv_eq_of_eq positive (r := d - n.tmod d) ?_ (by omega) (by omega)⟩
    · rw [Int.tdiv_eq_ediv_of_nonneg nonneg]
      exact Int.ediv_nonneg nonneg positive.le
    · rw [Int.mul_sub, Int.mul_neg, Int.mul_one]
      omega
  · refine Or.inr (Or.inl ⟨sign.symm, ediv_eq_of_eq positive (by omega) le_rfl positive,
      ediv_eq_of_eq positive (r := 0) ?_ le_rfl positive⟩)
    rw [Int.mul_neg]
    omega
  · have nonpos : n ≤ 0 := by
      by_contra positive'
      have := Int.tmod_nonneg d (show 0 ≤ n by omega)
      omega
    refine Or.inr (Or.inr ⟨sign, ?_, ediv_eq_of_eq positive (r := n.tmod d + d) ?_ (by omega)
      (by omega), ediv_eq_of_eq positive (r := -n.tmod d) ?_ (by omega) (by omega)⟩)
    · have flipped := Int.ediv_nonneg (Int.neg_nonneg_of_nonpos nonpos) positive.le
      rw [← Int.tdiv_eq_ediv_of_nonneg (Int.neg_nonneg_of_nonpos nonpos), Int.neg_tdiv] at flipped
      omega
    · rw [Int.mul_sub, Int.mul_one]
      omega
    · rw [Int.mul_neg]
      omega

theorem tdiv_add_correction (n : ℤ) (positive : 0 < d) (roundDown : Bool) :
    n.tdiv d + ((if 0 < n.tmod d then 1 else 0) - (if n.tmod d ≠ 0 ∧ roundDown = true then 1 else 0)) =
      roundedDiv n d roundDown := by
  rcases tdiv_cases n positive with ⟨sign, -, down, up⟩ | ⟨sign, down, up⟩ | ⟨sign, -, down, up⟩
  · cases roundDown <;> simp [roundedDiv, sign, sign.ne', down, up]
    omega
  · cases roundDown <;> simp [roundedDiv, sign, down, up]
  · cases roundDown <;> simp [roundedDiv, sign.ne, not_lt.mpr sign.le, down, up]
    omega

theorem tdiv_between (n : ℤ) (positive : 0 < d) (roundDown : Bool) :
    (0 ≤ n.tdiv d ∧ n.tdiv d ≤ roundedDiv n d roundDown) ∨
      (roundedDiv n d roundDown ≤ n.tdiv d ∧ n.tdiv d ≤ 0) := by
  have corrected := tdiv_add_correction n positive roundDown
  rcases tdiv_cases n positive with ⟨sign, nonneg, -⟩ | ⟨sign, -⟩ | ⟨sign, nonpos, -⟩
  · left
    cases roundDown <;> simp [sign] at corrected <;> omega
  · rcases le_total 0 (n.tdiv d) with nonneg | nonpos
    · left
      cases roundDown <;> simp [sign] at corrected <;> omega
    · right
      cases roundDown <;> simp [sign] at corrected <;> omega
  · right
    cases roundDown <;> simp [sign.ne, not_lt.mpr sign.le] at corrected <;> omega

theorem roundedDiv_neg (n : ℤ) (roundDown : Bool) :
    roundedDiv (-n) d roundDown = -roundedDiv n d (!roundDown) := by
  cases roundDown <;> simp [roundedDiv]

theorem roundedDiv_bounds_of_nonneg {n : ℤ} (positive : 0 < d) (nonneg : 0 ≤ n) (roundDown : Bool) :
    0 ≤ roundedDiv n d roundDown ∧ roundedDiv n d roundDown ≤ n := by
  cases roundDown
  · have atMost := Int.ediv_nonpos_of_nonpos_of_neg (Int.neg_nonpos_of_nonneg nonneg) positive
    have atLeast : -n ≤ -n / d := by
      rw [Int.le_ediv_iff_mul_le positive]
      have := Int.mul_le_mul_of_nonneg_left (show 1 ≤ d by omega) nonneg
      rw [Int.mul_one] at this
      rw [Int.neg_mul]
      omega
    simp only [roundedDiv, Bool.false_eq_true, ↓reduceIte]
    omega
  · exact ⟨Int.ediv_nonneg nonneg positive.le, Int.ediv_le_self d nonneg⟩

theorem roundedDiv_between {n : ℤ} (positive : 0 < d) (roundDown : Bool) :
    (0 ≤ roundedDiv n d roundDown ∧ roundedDiv n d roundDown ≤ n) ∨
      (n ≤ roundedDiv n d roundDown ∧ roundedDiv n d roundDown ≤ 0) := by
  rcases le_total 0 n with nonneg | nonpos
  · exact Or.inl (roundedDiv_bounds_of_nonneg positive nonneg roundDown)
  · have flipped := roundedDiv_bounds_of_nonneg positive (Int.neg_nonneg_of_nonpos nonpos)
      (!roundDown)
    rw [roundedDiv_neg, Bool.not_not] at flipped
    exact Or.inr ⟨by omega, by omega⟩

theorem tdiv_between_self (n : ℤ) (positive : 0 < d) :
    (0 ≤ n.tdiv d ∧ n.tdiv d ≤ n) ∨ (n ≤ n.tdiv d ∧ n.tdiv d ≤ 0) := by
  have truncated := tdiv_between n positive true
  have rounded := roundedDiv_between (n := n) positive true
  omega

theorem roundedDiv_natCast (p : ℕ) {s : ℕ} (positive : 0 < s) (roundDown : Bool) :
    roundedDiv p s roundDown = ((if roundDown then p / s else (p + s - 1) / s : ℕ) : ℤ) := by
  cases roundDown
  · have split := Nat.div_add_mod (p + s - 1) s
    have below := Nat.mod_lt (p + s - 1) positive
    have flipped : -(p : ℤ) / s = -(((p + s - 1) / s : ℕ) : ℤ) := by
      apply ediv_eq_of_eq (by exact_mod_cast positive) (r := s - 1 - ((p + s - 1) % s : ℕ))
      · rw [Int.mul_neg]
        omega
      · omega
      · omega
    simp only [roundedDiv, Bool.false_eq_true, ↓reduceIte, flipped, Int.neg_neg]
  · simp only [roundedDiv, ↓reduceIte, Int.natCast_div]

theorem roundedDiv_mul_add (positive : 0 < d) (h B l : ℤ) (roundDown : Bool) :
    roundedDiv (h * B + l) d roundDown =
      h.tdiv d * B + roundedDiv (h.tmod d * B + l) d roundDown := by
  have split : h * B + l = h.tmod d * B + l + h.tdiv d * B * d := by
    have high := Int.mul_tdiv_add_tmod h d
    calc h * B + l = (d * h.tdiv d + h.tmod d) * B + l := by rw [high]
      _ = h.tmod d * B + l + h.tdiv d * B * d := by ring
  have flipped : -(h * B + l) = -(h.tmod d * B + l) + -(h.tdiv d * B) * d := by
    rw [split]
    ring
  cases roundDown
  · simp only [roundedDiv, Bool.false_eq_true, ↓reduceIte]
    rw [flipped, Int.add_mul_ediv_right _ _ positive.ne']
    ring
  · simp only [roundedDiv, ↓reduceIte]
    rw [split, Int.add_mul_ediv_right _ _ positive.ne']
    ring

end Rounding

section Schoolbook

theorem mul_div_sq_of_parts {B : ℕ} (positive : 0 < B) (xh xl nh nl : ℕ) :
    (B * xh + xl) * (B * nh + nl) / (B * B) =
      xh * nh + xl * nh / B + xh * nl / B + (xl * nl / B + xl * nh % B + xh * nl % B) / B := by
  have ad := Nat.div_add_mod (xh * nl) B
  have bc := Nat.div_add_mod (xl * nh) B
  have bd := Nat.div_add_mod (xl * nl) B
  have mid := Nat.div_add_mod (xl * nl / B + xl * nh % B + xh * nl % B) B
  have midLow := Nat.mod_lt (xl * nl / B + xl * nh % B + xh * nl % B) positive
  have bdLow := Nat.mod_lt (xl * nl) positive
  -- the names of the column parts, so that the product is a polynomial in them
  generalize xh * nl / B = adh at *
  generalize xl * nh / B = bch at *
  generalize xl * nl / B = bdh at *
  generalize xh * nl % B = adl at *
  generalize xl * nh % B = bcl at *
  generalize xl * nl % B = bdl at *
  generalize (bdh + bcl + adl) / B = mh at *
  generalize (bdh + bcl + adl) % B = ml at *
  have low : B * ml + bdl < B * B :=
    calc B * ml + bdl < B * ml + B := by omega
      _ = B * (ml + 1) := by ring
      _ ≤ B * B := Nat.mul_le_mul_left _ midLow
  have split : (B * xh + xl) * (B * nh + nl) = B * B * (xh * nh + bch + adh + mh) + (B * ml + bdl) := by
    linear_combination B * ad.symm + B * bc.symm + bd.symm + B * mid.symm
  rw [split, Nat.mul_add_div (Nat.mul_pos positive positive), Nat.div_eq_of_lt low, Nat.add_zero]

end Schoolbook

end WideDivision
