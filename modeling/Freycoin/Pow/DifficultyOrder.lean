import Freycoin.Pow.Miner
import Mathlib.Analysis.Complex.ExponentialBounds

/-! How the difficulty of a gap orders gaps from one start. -/

namespace Freycoin.Pow

/-- The merit before `mpz_get_uint64`: `floor(gap * 2^96 / L)` as `mpz_fdiv_q` computes it. -/
def exactMerit (lnFixed : Int → Nat → Int) (mpzStart mpzEnd : Nat) : Int :=
  (((mpzEnd : Int) - mpzStart) * 2 ^ 96).fdiv (lnFixed mpzStart 48)

/-- The modulus `floor(2^97 / L)` of the random term before `mpz_get_uint64`. -/
def exactModulus (lnFixed : Int → Nat → Int) (mpzStart : Nat) : Int :=
  (2 * 2 ^ 96 : Int).fdiv (lnFixed mpzStart 48)

theorem add_ediv_le_ediv_add {a b c : Int} (positive : 0 < c) : a / c + b / c ≤ (a + b) / c := by
  have first := Int.ediv_mul_le a (Int.ne_of_gt positive)
  have second := Int.ediv_mul_le b (Int.ne_of_gt positive)
  exact (Int.le_ediv_iff_mul_le positive).mpr (by rw [Int.add_mul]; omega)

theorem mpzGetUint64_of_wide {value : Int} (wide : 2 ^ 64 ≤ value) : mpzGetUint64 value = 0 := by
  have outside : ¬ (0 ≤ value ∧ value < 2 ^ 64) := fun inside => absurd inside.2 (by omega)
  have large : ¬ value.natAbs < 2 ^ 64 := by omega
  rw [mpzGetUint64, if_neg outside, if_neg large]

theorem calculateMerit_eq (lnFixed : Int → Nat → Int) (mpzStart mpzEnd : Nat) :
    calculateMerit lnFixed mpzStart mpzEnd = mpzGetUint64 (exactMerit lnFixed mpzStart mpzEnd) := rfl

theorem calculateMerit_of_wide {lnFixed : Int → Nat → Int} {mpzStart mpzEnd : Nat}
    (wide : 2 ^ 64 ≤ exactMerit lnFixed mpzStart mpzEnd) :
    calculateMerit lnFixed mpzStart mpzEnd = 0 := by
  rw [calculateMerit_eq, mpzGetUint64_of_wide wide]

theorem toNat_ofNat_toNat {value : Int} (fits : value < 2 ^ 64) :
    (UInt64.ofNat value.toNat).toNat = value.toNat := by
  rw [UInt64.toNat_ofNat', Nat.mod_eq_of_lt (by omega)]

section Start

variable {lnFixed : Int → Nat → Int} {mpzStart : Nat} (logPositive : 0 < lnFixed mpzStart 48)
include logPositive

theorem exactMerit_nonneg {mpzEnd : Nat} (ordered : mpzStart ≤ mpzEnd) :
    0 ≤ exactMerit lnFixed mpzStart mpzEnd := by
  have gap : (0 : Int) ≤ ((mpzEnd : Int) - mpzStart) * 2 ^ 96 := by
    have : (mpzStart : Int) ≤ mpzEnd := by exact_mod_cast ordered
    positivity
  exact Int.fdiv_nonneg gap logPositive.le

theorem exactMerit_mul_bounds (mpzEnd : Nat) :
    exactMerit lnFixed mpzStart mpzEnd * lnFixed mpzStart 48 ≤ ((mpzEnd : Int) - mpzStart) * 2 ^ 96 ∧
      ((mpzEnd : Int) - mpzStart) * 2 ^ 96 <
        (exactMerit lnFixed mpzStart mpzEnd + 1) * lnFixed mpzStart 48 := by
  unfold exactMerit
  rw [Int.fdiv_eq_ediv_of_nonneg _ logPositive.le]
  exact ⟨Int.ediv_mul_le _ (Int.ne_of_gt logPositive), Int.lt_ediv_add_one_mul_self _ logPositive⟩

theorem exactModulus_mul_bounds :
    exactModulus lnFixed mpzStart * lnFixed mpzStart 48 ≤ 2 * 2 ^ 96 ∧
      2 * 2 ^ 96 < (exactModulus lnFixed mpzStart + 1) * lnFixed mpzStart 48 := by
  unfold exactModulus
  rw [Int.fdiv_eq_ediv_of_nonneg _ logPositive.le]
  exact ⟨Int.ediv_mul_le _ (Int.ne_of_gt logPositive), Int.lt_ediv_add_one_mul_self _ logPositive⟩

theorem one_le_exactModulus (logSmall : lnFixed mpzStart 48 ≤ 2 ^ 97) :
    1 ≤ exactModulus lnFixed mpzStart := by
  rw [exactModulus, Int.fdiv_eq_ediv_of_nonneg _ logPositive.le]
  exact (Int.le_ediv_iff_mul_le logPositive).mpr (by omega)

theorem exactMerit_add_exactModulus_le {first second : Nat} (apart : first + 2 ≤ second) :
    exactMerit lnFixed mpzStart first + exactModulus lnFixed mpzStart ≤
      exactMerit lnFixed mpzStart second := by
  unfold exactMerit exactModulus
  rw [Int.fdiv_eq_ediv_of_nonneg _ logPositive.le, Int.fdiv_eq_ediv_of_nonneg _ logPositive.le,
    Int.fdiv_eq_ediv_of_nonneg _ logPositive.le]
  have numerators : ((first : Int) - mpzStart) * 2 ^ 96 + 2 * 2 ^ 96 ≤
      ((second : Int) - mpzStart) * 2 ^ 96 := by
    have : (first : Int) + 2 ≤ second := by exact_mod_cast apart
    nlinarith
  calc ((first : Int) - mpzStart) * 2 ^ 96 / lnFixed mpzStart 48 +
        2 * 2 ^ 96 / lnFixed mpzStart 48
      ≤ (((first : Int) - mpzStart) * 2 ^ 96 + 2 * 2 ^ 96) / lnFixed mpzStart 48 :=
        add_ediv_le_ediv_add logPositive
    _ ≤ ((second : Int) - mpzStart) * 2 ^ 96 / lnFixed mpzStart 48 :=
        Int.ediv_le_ediv logPositive numerators

theorem calculateMerit_of_fits {mpzEnd : Nat} (ordered : mpzStart ≤ mpzEnd)
    (fits : exactMerit lnFixed mpzStart mpzEnd < 2 ^ 64) :
    (calculateMerit lnFixed mpzStart mpzEnd).toNat = (exactMerit lnFixed mpzStart mpzEnd).toNat := by
  have nonneg := exactMerit_nonneg logPositive ordered
  rw [calculateMerit_eq, mpzGetUint64_of_fits nonneg fits, toNat_ofNat_toNat fits]

theorem minGapDistanceMerit_of_fits (logSmall : lnFixed mpzStart 48 ≤ 2 ^ 97)
    (fits : exactModulus lnFixed mpzStart < 2 ^ 64) :
    (if mpzGetUint64 ((2 * 2 ^ 96 : Int).fdiv (lnFixed mpzStart 48)) = 0 then 1
      else mpzGetUint64 ((2 * 2 ^ 96 : Int).fdiv (lnFixed mpzStart 48))) =
      UInt64.ofNat (exactModulus lnFixed mpzStart).toNat := by
  have atLeastOne := one_le_exactModulus logPositive logSmall
  have converted : mpzGetUint64 ((2 * 2 ^ 96 : Int).fdiv (lnFixed mpzStart 48)) =
      UInt64.ofNat (exactModulus lnFixed mpzStart).toNat :=
    mpzGetUint64_of_fits (by rw [← exactModulus]; omega) fits
  have nonzero : UInt64.ofNat (exactModulus lnFixed mpzStart).toNat ≠ 0 := by
    intro zero
    have read := congrArg UInt64.toNat zero
    rw [toNat_ofNat_toNat fits, UInt64.toNat_zero] at read
    omega
  rw [converted, if_neg nonzero]

theorem calculateDifficulty_toNat (sha256 : List UInt8 → Vector UInt8 32) {mpzEnd : Nat}
    (logSmall : lnFixed mpzStart 48 ≤ 2 ^ 97) (ordered : mpzStart ≤ mpzEnd)
    (fits : exactMerit lnFixed mpzStart mpzEnd + exactModulus lnFixed mpzStart < 2 ^ 64) :
    (calculateDifficulty sha256 lnFixed mpzStart mpzEnd).toNat =
      (exactMerit lnFixed mpzStart mpzEnd).toNat +
        (gapRandom sha256 mpzStart mpzEnd).toNat % (exactModulus lnFixed mpzStart).toNat := by
  have atLeastOne := one_le_exactModulus logPositive logSmall
  have nonneg := exactMerit_nonneg logPositive ordered
  have merit := calculateMerit_of_fits logPositive ordered (by omega)
  have modulus := toNat_ofNat_toNat (show exactModulus lnFixed mpzStart < 2 ^ 64 by omega)
  have below := Nat.mod_lt (gapRandom sha256 mpzStart mpzEnd).toNat
    (show 0 < (exactModulus lnFixed mpzStart).toNat by omega)
  unfold calculateDifficulty
  simp only [minGapDistanceMerit_of_fits logPositive logSmall (by omega)]
  rw [UInt64.toNat_add, UInt64.toNat_mod, merit, modulus, Nat.mod_eq_of_lt (by omega)]

theorem calculateDifficulty_of_wide (sha256 : List UInt8 → Vector UInt8 32) {mpzEnd : Nat}
    (logSmall : lnFixed mpzStart 48 ≤ 2 ^ 97) (fits : exactModulus lnFixed mpzStart < 2 ^ 64)
    (wide : 2 ^ 64 ≤ exactMerit lnFixed mpzStart mpzEnd) :
    (calculateDifficulty sha256 lnFixed mpzStart mpzEnd).toNat <
      (exactModulus lnFixed mpzStart).toNat := by
  have atLeastOne := one_le_exactModulus logPositive logSmall
  have modulus := toNat_ofNat_toNat fits
  unfold calculateDifficulty
  simp only [minGapDistanceMerit_of_fits logPositive logSmall fits,
    calculateMerit_of_wide wide]
  rw [UInt64.zero_add, UInt64.toNat_mod, modulus]
  exact Nat.mod_lt _ (by omega)

end Start

/-- Longer gaps from one start score higher, for the consensus difficulty and the miner's,
as long as the exact merit of the longer gap and the modulus fit in 64 bits together. -/
theorem calculateDifficulty_lt_of_longer_gap (sha256 : List UInt8 → Vector UInt8 32)
    {lnFixed : Int → Nat → Int} {s e1 e2 : Nat} (start : 2 ≤ s) (shorter : s < e1)
    (apart : e1 + 2 ≤ e2) (logPositive : 0 < lnFixed s 48) (logSmall : lnFixed s 48 ≤ 2 ^ 97)
    (fits : exactMerit lnFixed s e2 + exactModulus lnFixed s < 2 ^ 64) :
    calculateDifficulty sha256 lnFixed s e1 < calculateDifficulty sha256 lnFixed s e2 ∧
      PoWUtils.difficulty sha256 lnFixed s e1 < PoWUtils.difficulty sha256 lnFixed s e2 := by
  have atLeastOne := one_le_exactModulus logPositive logSmall
  have room := exactMerit_add_exactModulus_le logPositive apart
  have nonneg := exactMerit_nonneg logPositive shorter.le
  have first := calculateDifficulty_toNat logPositive sha256 logSmall shorter.le (by omega)
  have second := calculateDifficulty_toNat logPositive sha256 logSmall (by omega) fits
  -- the random term of the shorter gap stays below the modulus the longer gap's merit covers
  have below := Nat.mod_lt (gapRandom sha256 s e1).toNat
    (show 0 < (exactModulus lnFixed s).toNat by omega)
  have ordered : calculateDifficulty sha256 lnFixed s e1 < calculateDifficulty sha256 lnFixed s e2 := by
    rw [UInt64.lt_iff_toNat_lt, first, second]
    omega
  refine ⟨ordered, ?_⟩
  rw [difficulty_eq_calculateDifficulty sha256 logPositive logSmall (by omega) shorter,
    difficulty_eq_calculateDifficulty sha256 logPositive logSmall (by omega) (by omega)]
  exact ordered

section LogTwo

/-! At the start 2 the correctly rounded logarithm is `0.693 * 2^48`; all that the gaps below
read of it is that it lies between `2^47` and `3 * 2^46`. -/

theorem lnFixedReference_two_bounds :
    2 ^ 47 ≤ lnFixedReference 2 48 ∧ lnFixedReference 2 48 ≤ 3 * 2 ^ 46 := by
  have above := Real.log_two_gt_d9
  have below := Real.log_two_lt_d9
  unfold lnFixedReference
  rw [round_eq]
  constructor
  · apply Int.le_floor.mpr
    push_cast
    linarith
  · apply Int.floor_le_iff.mpr
    push_cast
    linarith

variable {lnFixed : Int → Nat → Int} (low : 2 ^ 47 ≤ lnFixed 2 48) (high : lnFixed 2 48 ≤ 3 * 2 ^ 46)
include low high

theorem exactModulus_two_le : exactModulus lnFixed 2 ≤ 2 ^ 50 := by
  have positive : 0 < lnFixed ((2 : Nat) : Int) 48 := by push_cast; omega
  obtain ⟨below, -⟩ := exactModulus_mul_bounds positive
  push_cast at below
  nlinarith

theorem exactMerit_two_bounds :
    2 ^ 63 ≤ exactMerit lnFixed 2 30002 ∧ exactMerit lnFixed 2 30002 + 2 ^ 51 ≤ 2 ^ 64 ∧
      2 ^ 64 ≤ exactMerit lnFixed 2 50002 := by
  have positive : 0 < lnFixed ((2 : Nat) : Int) 48 := by push_cast; omega
  obtain ⟨shortBelow, shortAbove⟩ := exactMerit_mul_bounds positive 30002
  obtain ⟨-, longAbove⟩ := exactMerit_mul_bounds positive 50002
  push_cast at shortBelow shortAbove longAbove
  refine ⟨by nlinarith, by nlinarith, by nlinarith⟩

theorem calculateDifficulty_two_inverted (sha256 : List UInt8 → Vector UInt8 32) :
    calculateMerit lnFixed 2 50002 = 0 ∧
      calculateDifficulty sha256 lnFixed 2 50002 < calculateDifficulty sha256 lnFixed 2 30002 ∧
      PoWUtils.difficulty sha256 lnFixed 2 50002 < PoWUtils.difficulty sha256 lnFixed 2 30002 := by
  -- the lemmas above read the logarithm at the start `((2 : Nat) : Int)`
  have positive : 0 < lnFixed ((2 : Nat) : Int) 48 := by push_cast; omega
  have small : lnFixed ((2 : Nat) : Int) 48 ≤ 2 ^ 97 := by push_cast; omega
  have modulus := exactModulus_two_le low high
  have atLeastOne := one_le_exactModulus positive small
  obtain ⟨shortLow, shortHigh, wide⟩ := exactMerit_two_bounds low high
  have longer := calculateDifficulty_of_wide positive sha256 small (by omega) wide
  have shorter := calculateDifficulty_toNat positive sha256 small (show 2 ≤ 30002 by decide)
    (by omega)
  have inverted : calculateDifficulty sha256 lnFixed 2 50002 <
      calculateDifficulty sha256 lnFixed 2 30002 := by
    rw [UInt64.lt_iff_toNat_lt, shorter]
    omega
  refine ⟨calculateMerit_of_wide wide, inverted, ?_⟩
  rw [difficulty_eq_calculateDifficulty sha256 positive small (by omega) (by omega),
    difficulty_eq_calculateDifficulty sha256 positive small (by omega) (by omega)]
  exact inverted

end LogTwo

/-- With the correctly rounded logarithm, from the start 2 the gap to 50002 scores below the
gap to 30002, though the merit `CalculateMerit` returns for it is 0;
`calculateDifficulty_two_inverted` gives the same for every hash function. -/
theorem longer_gap_scores_lower :
    0 < lnFixedReference 2 48 ∧ (calculateMerit lnFixedReference 2 50002).toNat + 2 ^ 49 < 2 ^ 64 ∧
      calculateDifficulty Crypto.sha256 lnFixedReference 2 50002 <
        calculateDifficulty Crypto.sha256 lnFixedReference 2 30002 ∧
      PoWUtils.difficulty Crypto.sha256 lnFixedReference 2 50002 <
        PoWUtils.difficulty Crypto.sha256 lnFixedReference 2 30002 := by
  obtain ⟨low, high⟩ := lnFixedReference_two_bounds
  obtain ⟨truncated, inverted, invertedMiner⟩ :=
    calculateDifficulty_two_inverted low high Crypto.sha256
  refine ⟨by omega, ?_, inverted, invertedMiner⟩
  rw [truncated]
  decide

theorem lnFixedReference_two_pos : 0 < lnFixedReference ((2 : Nat) : Int) 48 := by
  obtain ⟨low, -⟩ := lnFixedReference_two_bounds
  push_cast
  omega

theorem exactMerit_add_exactModulus_two_five :
    exactMerit lnFixedReference 2 5 + exactModulus lnFixedReference 2 < 2 ^ 64 := by
  obtain ⟨low, high⟩ := lnFixedReference_two_bounds
  have modulus := exactModulus_two_le low high
  obtain ⟨merit, -⟩ := exactMerit_mul_bounds lnFixedReference_two_pos 5
  push_cast at merit
  nlinarith

/-- Gaps of one and three from the start 2 are ordered at the correctly rounded logarithm. -/
theorem calculateDifficulty_ordered_at_two :
    calculateDifficulty Crypto.sha256 lnFixedReference 2 3 <
        calculateDifficulty Crypto.sha256 lnFixedReference 2 5 ∧
      PoWUtils.difficulty Crypto.sha256 lnFixedReference 2 3 <
        PoWUtils.difficulty Crypto.sha256 lnFixedReference 2 5 := by
  obtain ⟨-, high⟩ := lnFixedReference_two_bounds
  exact calculateDifficulty_lt_of_longer_gap _ le_rfl (by decide) le_rfl lnFixedReference_two_pos
    (by push_cast; omega) exactMerit_add_exactModulus_two_five

end Freycoin.Pow
