import Freycoin.Pow.RetargetOrder

/-! The miner's copy of the retarget, `PoWUtils::next_difficulty` of `pow/pow_utils.cpp`. -/

namespace Freycoin.Pow

/-- The helper `mpz_get_ui64` of `pow_common.h` with a 64-bit `unsigned long`: `mpz_get_ui`,
the low 64 bits of the absolute value. -/
def mpzGetUi64 (value : Int) : UInt64 := UInt64.ofNat value.natAbs

namespace PoWUtils

def log15048Computed : UInt64 := 1410368452711334

def nextDifficulty (lnFixed : Int → Nat → Int) (difficulty actualTimespan : UInt64)
    (_testnet : Bool) : UInt64 :=
  let logTarget := log15048Computed
  let logActual := mpzGetUi64 (lnFixed actualTimespan.toNat 48)
  let shift : UInt64 := if logActual > logTarget then 6 else 8
  -- Apply adjustment
  let next :=
    if logTarget ≥ logActual then difficulty + ((logTarget - logActual) >>> shift)
    else if difficulty ≥ (logActual - logTarget) >>> shift then
      difficulty - ((logActual - logTarget) >>> shift)
    else minDifficulty
  -- Clamp change to +/-1.0 merit per block
  let next := if next > difficulty + twoPow48 then difficulty + twoPow48 else next
  let next :=
    if next < difficulty - twoPow48 ∧ difficulty ≥ twoPow48 then difficulty - twoPow48 else next
  -- Enforce minimum
  if next < minDifficulty then minDifficulty else next

end PoWUtils

theorem log15048Computed_eq : PoWUtils.log15048Computed = logTargetSpacing48 := rfl

theorem mpzGetUi64_of_fits {value : Int} (nonneg : 0 ≤ value) (fits : value < 2 ^ 64) :
    mpzGetUi64 value = mpzGetUint64 value := by
  rw [mpzGetUi64, mpzGetUint64_of_fits nonneg fits]
  congr 1
  omega

theorem nextDifficulty_eq_settle (lnFixed : Int → Nat → Int) (difficulty actualTimespan : UInt64)
    (testnet : Bool) :
    PoWUtils.nextDifficulty lnFixed difficulty actualTimespan testnet =
      enforceMinimum minDifficulty (clampChange difficulty
        (applyAdjustment minDifficulty difficulty
          (mpzGetUi64 (lnFixed actualTimespan.toNat 48)))) := by
  rfl

theorem calculateNextWorkRequired_within_eq {lnFixed : Int → Nat → Int} {params : Params}
    (spacing : params.nPowTargetSpacing = 150) (nDifficulty : UInt64) {t : Int64}
    (low : 1 ≤ t.toInt) (high : t.toInt ≤ 1800) :
    calculateNextWorkRequired lnFixed nDifficulty t params =
      enforceMinimum params.nDifficultyMin (clampChange nDifficulty
        (applyAdjustment params.nDifficultyMin nDifficulty (mpzGetUint64 (lnFixed t.toInt 48)))) := by
  unfold calculateNextWorkRequired
  rw [clampTimespan_of_within spacing low high]

theorem nextDifficulty_eq_calculateNextWorkRequired {lnFixed : Int → Nat → Int}
    (onTimespans : LnFixedOnTimespans lnFixed) {params : Params}
    (minimum : params.nDifficultyMin = minDifficulty) (spacing : params.nPowTargetSpacing = 150)
    (difficulty : UInt64) (t : Nat) (low : 1 ≤ t) (high : t ≤ 12 * 150) (testnet : Bool) :
    PoWUtils.nextDifficulty lnFixed difficulty (UInt64.ofNat t) testnet =
      calculateNextWorkRequired lnFixed difficulty (Int64.ofNat t) params := by
  have unsigned : (UInt64.ofNat t).toNat = t := UInt64.toNat_ofNat_of_lt' (high.trans_lt (by decide))
  have signed : (Int64.ofNat t).toInt = t := Int64.toInt_ofNat_of_lt (by omega)
  obtain ⟨nonneg, fits⟩ :=
    onTimespans.bounds (show (1 : Int) ≤ t by omega) (show (t : Int) ≤ 1800 by omega)
  rw [nextDifficulty_eq_settle, calculateNextWorkRequired_within_eq spacing _ (by omega) (by omega),
    unsigned, signed, mpzGetUi64_of_fits nonneg fits, minimum]

/-- With the correctly rounded logarithm, the miner's estimate at the target spacing is the
mainnet retarget. -/
theorem nextDifficulty_at_target_spacing :
    PoWUtils.nextDifficulty lnFixedReference minDifficulty (UInt64.ofNat 150) true =
      calculateNextWorkRequired lnFixedReference minDifficulty (Int64.ofNat 150) mainParams :=
  nextDifficulty_eq_calculateNextWorkRequired lnFixedReference_onTimespans rfl rfl minDifficulty 150
    (by decide) (by decide) true

end Freycoin.Pow
