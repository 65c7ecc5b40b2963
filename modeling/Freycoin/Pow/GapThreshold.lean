import Freycoin.Pow.DifficultyOrder

/-! The gap threshold of the miner, `MiningEngine::parallel_worker` of
`pow/mining_engine.cpp`: `PoWUtils::target_size` of the interval's base `hash << shift`,
rounded up to even, below which a gap is not built into a `PoW` at all. -/

namespace Freycoin.Pow

namespace PoWUtils

/-- `target_size`: `floor(difficulty * L / 2^96)` by `mpz_fdiv_q_2exp`, 0 when it does not
fit. -/
def targetSize (lnFixed : Int → Nat → Int) (mpzStart : Nat) (difficulty : UInt64) : UInt64 :=
  let mpzResult := ((difficulty.toNat : Int) * lnFixed mpzStart 48) / 2 ^ 96
  if mpzFitsUi64 mpzResult then UInt64.ofNat mpzResult.toNat else 0

end PoWUtils

/-- The threshold `min_gap` of an interval: `target_size` at its base, made even. -/
def minGap (lnFixed : Int → Nat → Int) (mpzStart : Nat) (targetDifficulty : UInt64) : UInt64 :=
  let minGap := PoWUtils.targetSize lnFixed mpzStart targetDifficulty
  if minGap &&& 1 ≠ 0 then minGap + 1 else minGap

theorem minGap_toNat_le (lnFixed : Int → Nat → Int) (mpzStart : Nat) (targetDifficulty : UInt64) :
    (minGap lnFixed mpzStart targetDifficulty).toNat ≤
      (PoWUtils.targetSize lnFixed mpzStart targetDifficulty).toNat + 1 := by
  unfold minGap
  dsimp only
  by_cases odd : PoWUtils.targetSize lnFixed mpzStart targetDifficulty &&& 1 ≠ 0
  · rw [if_pos odd, UInt64.toNat_add, UInt64.toNat_one]
    exact (Nat.mod_le _ _)
  · rw [if_neg odd]
    omega

theorem targetSize_toNat_le (lnFixed : Int → Nat → Int) (mpzStart : Nat) (difficulty : UInt64) :
    ((PoWUtils.targetSize lnFixed mpzStart difficulty).toNat : Int) ≤
      max 0 (((difficulty.toNat : Int) * lnFixed mpzStart 48) / 2 ^ 96) := by
  unfold PoWUtils.targetSize mpzFitsUi64
  dsimp only
  by_cases fits : 0 ≤ ((difficulty.toNat : Int) * lnFixed mpzStart 48) / 2 ^ 96 ∧
      ((difficulty.toNat : Int) * lnFixed mpzStart 48) / 2 ^ 96 < 2 ^ 64
  · rw [if_pos (decide_eq_true fits), toNat_ofNat_toNat fits.2]
    omega
  · rw [if_neg (by simpa using fits), UInt64.toNat_zero]
    omega

section Valid

variable (sha256 : List UInt8 → Vector UInt8 32) {lnFixed : Int → Nat → Int}
  {mpzBase mpzStart mpzEnd : Nat} {targetDifficulty : UInt64}
  (logPositive : 0 < lnFixed mpzStart 48) (logSmall : lnFixed mpzStart 48 ≤ 2 ^ 97)
  (ordered : mpzStart ≤ mpzEnd)
  (fits : exactMerit lnFixed mpzStart mpzEnd + exactModulus lnFixed mpzStart < 2 ^ 64)
  (valid : calculateDifficulty sha256 lnFixed mpzStart mpzEnd ≥ targetDifficulty)
include logPositive logSmall ordered fits valid

theorem target_mul_log_lt :
    (targetDifficulty.toNat : Int) * lnFixed mpzStart 48 < ((mpzEnd : Int) - mpzStart + 2) * 2 ^ 96 := by
  have difficulty := calculateDifficulty_toNat logPositive sha256 logSmall ordered fits
  have reached := UInt64.le_iff_toNat_le.mp valid
  have atLeastOne := one_le_exactModulus logPositive logSmall
  have nonneg := exactMerit_nonneg logPositive ordered
  have below := Nat.mod_lt (gapRandom sha256 mpzStart mpzEnd).toNat
    (show 0 < (exactModulus lnFixed mpzStart).toNat by omega)
  obtain ⟨merit, -⟩ := exactMerit_mul_bounds logPositive mpzEnd
  obtain ⟨modulus, -⟩ := exactModulus_mul_bounds logPositive
  -- `T <= M + (r % m) < M + m`, and `M * L`, `m * L` are at most the gap and two units of it
  have target : (targetDifficulty.toNat : Int) <
      exactMerit lnFixed mpzStart mpzEnd + exactModulus lnFixed mpzStart := by
    omega
  calc (targetDifficulty.toNat : Int) * lnFixed mpzStart 48
      < (exactMerit lnFixed mpzStart mpzEnd + exactModulus lnFixed mpzStart) * lnFixed mpzStart 48 :=
        Int.mul_lt_mul_of_pos_right target logPositive
    _ ≤ ((mpzEnd : Int) - mpzStart + 2) * 2 ^ 96 := by
        rw [Int.add_mul]
        linarith

/-- A valid gap is at most two short of the miner's threshold, taken at a base whose
logarithm is at most the start's. -/
theorem minGap_le_gap_add_two (logBase : lnFixed mpzBase 48 ≤ lnFixed mpzStart 48) :
    (minGap lnFixed mpzBase targetDifficulty).toNat ≤ mpzEnd - mpzStart + 2 := by
  have reach := target_mul_log_lt sha256 logPositive logSmall ordered fits valid
  have truncated := targetSize_toNat_le lnFixed mpzBase targetDifficulty
  have rounded := minGap_toNat_le lnFixed mpzBase targetDifficulty
  -- the base's logarithm is at most the start's, so `T * L(base) < (gap + 2) * 2^96`
  have atBase : (targetDifficulty.toNat : Int) * lnFixed mpzBase 48 <
      ((mpzEnd : Int) - mpzStart + 2) * 2 ^ 96 :=
    lt_of_le_of_lt (Int.mul_le_mul_of_nonneg_left logBase (by omega)) reach
  have quotient : ((targetDifficulty.toNat : Int) * lnFixed mpzBase 48) / 2 ^ 96 <
      (mpzEnd : Int) - mpzStart + 2 :=
    (Int.ediv_lt_iff_lt_mul (by norm_num)).mpr atBase
  omega

end Valid

theorem minGap_le_gap_add_two_at_two : (minGap lnFixedReference 2 0).toNat ≤ 5 - 2 + 2 := by
  obtain ⟨-, high⟩ := lnFixedReference_two_bounds
  exact minGap_le_gap_add_two Crypto.sha256 lnFixedReference_two_pos (by push_cast; omega)
    (by decide)
    exactMerit_add_exactModulus_two_five (UInt64.le_iff_toNat_le.mpr (Nat.zero_le _)) le_rfl

end Freycoin.Pow
