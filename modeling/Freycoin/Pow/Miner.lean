import Freycoin.Pow.CheckProofOfWork
import Freycoin.Pow.Logarithm
import Freycoin.Pow.NextPrime
import Freycoin.Crypto.Sha256

/-! The miner's side of the proof of work: the `PoW` class of `pow/pow.cpp`, the
re-implementations `PoWUtils::merit`, `rand` and `difficulty` of `pow/pow_utils.cpp`, and the
two processors that copy a found proof into the block (`DaemonMiningProcessor` of `init.cpp`
and `BlockMiningProcessor` of `rpc/mining.cpp`). -/

namespace Freycoin.Pow

open LittleEndian

/-- The fields a `PoW` object holds: the hash and adder as integers, the shift, the target
difficulty and the nonce. -/
structure PoW where
  mpzHash : Nat
  shift : UInt16
  mpzAdder : Nat
  targetDifficulty : UInt64
  nonce : UInt32
  deriving Repr, DecidableEq

/-- The helper `mpz_to_ary`: the minimal little-endian bytes, and one zero byte for zero. -/
def mpzToAry (value : Nat) : List UInt8 :=
  if value = 0 then [0] else minimalBytes value

/-- The helper `mpz_fits_ui64` with a 64-bit `unsigned long`. -/
def mpzFitsUi64 (value : Int) : Bool := decide (0 ≤ value ∧ value < 2 ^ 64)

namespace PoWUtils

def merit (lnFixed : Int → Nat → Int) (mpzStart mpzEnd : Nat) : UInt64 :=
  let mpzGap : Int := (mpzEnd : Int) - mpzStart
  let mpzMerit := (mpzGap * 2 ^ 96).fdiv (lnFixed mpzStart 48)
  if mpzFitsUi64 mpzMerit then UInt64.ofNat mpzMerit.toNat else 0

def rand (sha256 : List UInt8 → Vector UInt8 32) (mpzStart mpzEnd : Nat) : UInt64 :=
  xorFold (sha256d sha256 (mpzToAry mpzStart ++ mpzToAry mpzEnd))

/-- The source divides by `min_gap_distance_merit` even when it fits as zero, which C++
leaves undefined; Lean's `%` by zero returns the dividend. The proofs below never reach
that case. -/
def difficulty (sha256 : List UInt8 → Vector UInt8 32) (lnFixed : Int → Nat → Int)
    (mpzStart mpzEnd : Nat) : UInt64 :=
  let mpzNum := (2 * 2 ^ 96 : Int).fdiv (lnFixed mpzStart 48)
  let minGapDistanceMerit : UInt64 := if mpzFitsUi64 mpzNum then UInt64.ofNat mpzNum.toNat else 1
  merit lnFixed mpzStart mpzEnd + rand sha256 mpzStart mpzEnd % minGapDistanceMerit

end PoWUtils

def PoW.getEndPoints (oracles : PowOracles) (pow : PoW) : Option (Nat × Nat) :=
  if pow.shift < minShift ∨ pow.shift > maxShift then none
  else if sizeInBase2 pow.mpzHash < 200 then none
  else if sizeInBase2 pow.mpzAdder > pow.shift.toNat then none
  else
    let mpzStart := pow.mpzHash * 2 ^ pow.shift.toNat + pow.mpzAdder
    if oracles.freycoinIsPrime mpzStart = 0 then none
    else some (mpzStart, oracles.freycoinNextprime mpzStart)

def PoW.difficulty (oracles : PowOracles) (pow : PoW) : UInt64 :=
  match pow.getEndPoints oracles with
  | some (mpzStart, mpzEnd) => PoWUtils.difficulty oracles.sha256 oracles.lnFixed mpzStart mpzEnd
  | none => 0

def PoW.valid (oracles : PowOracles) (pow : PoW) : Bool :=
  decide (pow.difficulty oracles ≥ pow.targetDifficulty)

/-- The `PoW` that `parallel_worker` builds for a gap found at `adder` with `nonce`. -/
def minedPoW (sha256 : List UInt8 → Vector UInt8 32) (headerTemplate : List UInt8)
    (shift : UInt16) (adder : Nat) (targetDifficulty : UInt64) (nonce : UInt32) : PoW :=
  ⟨minedHash sha256 headerTemplate nonce, shift, adder, targetDifficulty, nonce⟩

/-- The adder as `DaemonMiningProcessor::process` stores it: `mpz_export` into a zeroed
32-byte buffer, then copied whole into `nAdd`. -/
def daemonMiningProcess (block : CBlockHeader) (pow : PoW) : CBlockHeader :=
  { block with
    nNonce := pow.nonce
    nShift := pow.shift
    nAdd := Vector.ofFn fun i => (minimalBytes pow.mpzAdder).getD i 0 }

/-- The adder as `BlockMiningProcessor::process` and `GenerateBlock` store it: `mpz_to_ary`,
then at most 32 bytes copied over a null `uint256`. -/
def blockMiningProcess (block : CBlockHeader) (pow : PoW) : CBlockHeader :=
  { block with
    nNonce := pow.nonce
    nShift := pow.shift
    nAdd := Vector.ofFn fun i => (mpzToAry pow.mpzAdder).getD i 0 }

theorem mpzToAry_of_pos {value : Nat} (positive : 0 < value) : mpzToAry value = minimalBytes value := by
  simp [mpzToAry, Nat.pos_iff_ne_zero.mp positive]

theorem leValue_mpzToAry (value : Nat) : leValue (mpzToAry value) = value := by
  unfold mpzToAry
  split_ifs with zero
  · simp [zero, leValue_cons]
  · exact leValue_minimalBytes value

theorem mpzGetUint64_of_nonneg {value : Int} (nonneg : 0 ≤ value) :
    mpzGetUint64 value = if mpzFitsUi64 value then UInt64.ofNat value.toNat else 0 := by
  unfold mpzGetUint64 mpzFitsUi64
  simp only [decide_eq_true_eq]
  by_cases fits : value < 2 ^ 64
  · rw [if_pos ⟨nonneg, fits⟩, if_pos ⟨nonneg, fits⟩]
  · have wide : ¬ value.natAbs < 2 ^ 64 := by omega
    have outside : ¬ (0 ≤ value ∧ value < 2 ^ 64) := fun inside => fits inside.2
    rw [if_neg outside, if_neg wide, if_neg outside]

theorem rand_eq_gapRandom (sha256 : List UInt8 → Vector UInt8 32) {mpzStart mpzEnd : Nat}
    (startPositive : 0 < mpzStart) (endPositive : 0 < mpzEnd) :
    PoWUtils.rand sha256 mpzStart mpzEnd = gapRandom sha256 mpzStart mpzEnd := by
  rw [PoWUtils.rand, gapRandom, mpzToAry_of_pos startPositive, mpzToAry_of_pos endPositive]

theorem merit_eq_calculateMerit {lnFixed : Int → Nat → Int} {mpzStart mpzEnd : Nat}
    (logPositive : 0 < lnFixed mpzStart 48) (ordered : mpzStart ≤ mpzEnd) :
    PoWUtils.merit lnFixed mpzStart mpzEnd = calculateMerit lnFixed mpzStart mpzEnd := by
  have gap : (0 : Int) ≤ ((mpzEnd : Int) - mpzStart) * 2 ^ 96 := by
    have : (mpzStart : Int) ≤ mpzEnd := by exact_mod_cast ordered
    positivity
  rw [PoWUtils.merit, calculateMerit, mpzGetUint64_of_nonneg (Int.fdiv_nonneg gap logPositive.le)]

theorem minGapDistanceMerit_eq {logStart : Int} (logPositive : 0 < logStart)
    (logSmall : logStart ≤ 2 ^ 97) :
    (if mpzGetUint64 ((2 * 2 ^ 96 : Int).fdiv logStart) = 0 then 1
      else mpzGetUint64 ((2 * 2 ^ 96 : Int).fdiv logStart)) =
    (if mpzFitsUi64 ((2 * 2 ^ 96 : Int).fdiv logStart)
      then UInt64.ofNat ((2 * 2 ^ 96 : Int).fdiv logStart).toNat else 1) := by
  have atLeastOne : 1 ≤ (2 * 2 ^ 96 : Int).fdiv logStart := by
    rw [Int.fdiv_eq_ediv_of_nonneg _ logPositive.le]
    exact (Int.le_ediv_iff_mul_le logPositive).mpr (by omega)
  rw [mpzGetUint64_of_nonneg (by omega)]
  by_cases fits : mpzFitsUi64 ((2 * 2 ^ 96 : Int).fdiv logStart)
  · have nonzero : UInt64.ofNat ((2 * 2 ^ 96 : Int).fdiv logStart).toNat ≠ 0 := by
      simp only [mpzFitsUi64, decide_eq_true_eq] at fits
      intro zero
      have := congrArg UInt64.toNat zero
      rw [UInt64.toNat_ofNat', UInt64.toNat_zero, Nat.mod_eq_of_lt (by omega)] at this
      omega
    rw [if_pos fits, if_neg nonzero, if_pos fits]
  · rw [if_neg fits, if_pos rfl, if_neg fits]

theorem difficulty_eq_calculateDifficulty (sha256 : List UInt8 → Vector UInt8 32)
    {lnFixed : Int → Nat → Int} {mpzStart mpzEnd : Nat} (logPositive : 0 < lnFixed mpzStart 48)
    (logSmall : lnFixed mpzStart 48 ≤ 2 ^ 97) (startPositive : 0 < mpzStart)
    (ordered : mpzStart < mpzEnd) :
    PoWUtils.difficulty sha256 lnFixed mpzStart mpzEnd =
      calculateDifficulty sha256 lnFixed mpzStart mpzEnd := by
  rw [PoWUtils.difficulty, calculateDifficulty, merit_eq_calculateMerit logPositive ordered.le,
    rand_eq_gapRandom sha256 startPositive (by omega), minGapDistanceMerit_eq logPositive logSmall]

theorem uint256ToMpz_padded {bytes : List UInt8} (fits : bytes.length ≤ 32) :
    uint256ToMpz (Vector.ofFn fun i => bytes.getD i 0) = leValue bytes := by
  rw [uint256ToMpz, Vector.toList_ofFn, leValue_ofFn_getD fits]

theorem uint256ToMpz_lt (value : Vector UInt8 32) : uint256ToMpz value < 2 ^ 256 := by
  simpa [uint256ToMpz] using leValue_lt value.toList

theorem daemonMiningProcess_nAdd {adder : Nat} (small : adder < 2 ^ 256) (block : CBlockHeader)
    (pow : PoW) (stored : pow.mpzAdder = adder) :
    uint256ToMpz (daemonMiningProcess block pow).nAdd = adder := by
  have fits : (minimalBytes adder).length ≤ 32 := length_minimalBytes_le (by simpa using small)
  rw [daemonMiningProcess, stored, uint256ToMpz_padded fits, leValue_minimalBytes]

theorem blockMiningProcess_nAdd {adder : Nat} (small : adder < 2 ^ 256) (block : CBlockHeader)
    (pow : PoW) (stored : pow.mpzAdder = adder) :
    uint256ToMpz (blockMiningProcess block pow).nAdd = adder := by
  have fits : (mpzToAry adder).length ≤ 32 := by
    unfold mpzToAry
    split_ifs
    · simp
    · exact length_minimalBytes_le (by simpa using small)
  rw [blockMiningProcess, stored, uint256ToMpz_padded fits, leValue_mpzToAry]

theorem minedHash_eq_getHash (sha256 : List UInt8 → Vector UInt8 32) (block : CBlockHeader)
    (nonce : UInt32) (nShift : UInt16) (nAdd : Vector UInt8 32) :
    minedHash sha256 (headerTemplate block) nonce =
      uint256ToMpz ({ block with nNonce := nonce, nShift, nAdd }.getHash sha256) := by
  rw [minedHash, writeNonce_headerTemplate]
  rfl

theorem PoW.getEndPoints_eq_some {oracles : PowOracles} {pow : PoW} {mpzStart mpzEnd : Nat}
    (found : pow.getEndPoints oracles = some (mpzStart, mpzEnd)) :
    2 ^ 199 ≤ pow.mpzHash ∧ mpzStart = pow.mpzHash * 2 ^ pow.shift.toNat + pow.mpzAdder ∧
      mpzEnd = oracles.freycoinNextprime mpzStart := by
  unfold PoW.getEndPoints at found
  dsimp only at found
  split_ifs at found with range hashBits adderBits prime
  simp only [Option.some.injEq, Prod.mk.injEq] at found
  obtain ⟨rfl, rfl⟩ := found
  rw [sizeInBase2_lt_iff (by decide)] at hashBits
  exact ⟨by omega, rfl, rfl⟩

theorem start_bounds {mpzHash mpzAdder : Nat} {shift : UInt16} (hashLow : 2 ^ 199 ≤ mpzHash)
    (hashHigh : mpzHash < 2 ^ 256) (shiftLow : minShift ≤ shift) (shiftHigh : shift ≤ maxShift)
    (adderBound : mpzAdder < 2 ^ shift.toNat) :
    2 ^ 213 ≤ mpzHash * 2 ^ shift.toNat + mpzAdder ∧
      mpzHash * 2 ^ shift.toNat + mpzAdder < 2 ^ 512 := by
  rw [UInt16.le_iff_toNat_le] at shiftLow shiftHigh
  have low : 14 ≤ shift.toNat := shiftLow
  have high : shift.toNat ≤ 256 := shiftHigh
  constructor
  · calc
      2 ^ 213 = 2 ^ 199 * 2 ^ 14 := by norm_num
      _ ≤ mpzHash * 2 ^ shift.toNat :=
        Nat.mul_le_mul hashLow (Nat.pow_le_pow_right (by decide) low)
      _ ≤ _ := Nat.le_add_right _ _
  · calc
      mpzHash * 2 ^ shift.toNat + mpzAdder < (mpzHash + 1) * 2 ^ shift.toNat := by
        rw [Nat.add_mul, Nat.one_mul]
        omega
      _ ≤ 2 ^ 256 * 2 ^ 256 :=
        Nat.mul_le_mul hashHigh (Nat.pow_le_pow_right (by decide) high)
      _ = 2 ^ 512 := by rw [← pow_add]

theorem checkProofOfWork_eq_getEndPoints (oracles : PowOracles) (params : Params)
    {header : CBlockHeader} {pow : PoW} (minimum : params.nDifficultyMin ≤ header.nDifficulty)
    (shiftLow : minShift ≤ pow.shift) (shiftHigh : pow.shift ≤ maxShift)
    (hash : uint256ToMpz (header.getHash oracles.sha256) = pow.mpzHash)
    (shift : header.nShift = pow.shift) (adder : uint256ToMpz header.nAdd = pow.mpzAdder) :
    checkProofOfWork oracles header params =
      match pow.getEndPoints oracles with
      | some (mpzStart, mpzEnd) =>
        decide (calculateDifficulty oracles.sha256 oracles.lnFixed mpzStart mpzEnd ≥
          header.nDifficulty)
      | none => false := by
  have notBelow : ¬ pow.shift < minShift := UInt16.not_lt.mpr shiftLow
  have notAbove : ¬ pow.shift > maxShift := UInt16.not_lt.mpr shiftHigh
  have inRange : ¬ (pow.shift < minShift ∨ pow.shift > maxShift) := not_or.mpr ⟨notBelow, notAbove⟩
  have notLow : ¬ header.nDifficulty < params.nDifficultyMin := UInt64.not_lt.mpr minimum
  unfold checkProofOfWork PoW.getEndPoints
  rw [shift, hash, adder]
  simp only [if_neg notBelow, if_neg notAbove, if_neg notLow, if_neg inRange]
  split_ifs <;> rfl

theorem valid_eq_checkProofOfWork (oracles : PowOracles) (params : Params)
    (header : CBlockHeader) (pow : PoW) (logarithm : LnFixedSpec oracles.lnFixed)
    (nextprime : ∀ n, n < oracles.freycoinNextprime n) (positive : 0 < params.nDifficultyMin)
    (minimum : params.nDifficultyMin ≤ header.nDifficulty) (shiftLow : minShift ≤ pow.shift)
    (shiftHigh : pow.shift ≤ maxShift) (adderBound : pow.mpzAdder < 2 ^ pow.shift.toNat)
    (hash : uint256ToMpz (header.getHash oracles.sha256) = pow.mpzHash)
    (shift : header.nShift = pow.shift) (adder : uint256ToMpz header.nAdd = pow.mpzAdder)
    (target : pow.targetDifficulty = header.nDifficulty) :
    pow.valid oracles = checkProofOfWork oracles header params := by
  rw [checkProofOfWork_eq_getEndPoints oracles params minimum shiftLow shiftHigh hash shift adder,
    PoW.valid, PoW.difficulty, target]
  cases found : pow.getEndPoints oracles with
  | none =>
      -- the miner reports difficulty 0, below every target at the minimum or above
      have reached : ¬ (0 : UInt64) ≥ header.nDifficulty :=
        UInt64.not_le.mpr (UInt64.lt_of_lt_of_le positive minimum)
      simp only [reached, decide_false]
  | some points =>
      obtain ⟨mpzStart, mpzEnd⟩ := points
      obtain ⟨hashLow, rfl, rfl⟩ := PoW.getEndPoints_eq_some found
      have hashHigh : pow.mpzHash < 2 ^ 256 := hash ▸ uint256ToMpz_lt _
      obtain ⟨startLow, startHigh⟩ := start_bounds hashLow hashHigh shiftLow shiftHigh adderBound
      obtain ⟨logPositive, logSmall⟩ := lnFixed_bounds logarithm startLow startHigh
      have startPositive : 0 < pow.mpzHash * 2 ^ pow.shift.toNat + pow.mpzAdder :=
        lt_of_lt_of_le (Nat.two_pow_pos 213) startLow
      dsimp only
      simp only [difficulty_eq_calculateDifficulty _ logPositive logSmall startPositive (nextprime _)]

theorem minedPoW_valid_iff_checkProofOfWork (oracles : PowOracles) (params : Params)
    (block : CBlockHeader) (nonce : UInt32) (shift : UInt16) (adder : Nat)
    (logarithm : LnFixedSpec oracles.lnFixed) (nextprime : ∀ n, n < oracles.freycoinNextprime n)
    (positive : 0 < params.nDifficultyMin) (minimum : params.nDifficultyMin ≤ block.nDifficulty)
    (shiftLow : minShift ≤ shift) (shiftHigh : shift ≤ maxShift)
    (adderBound : adder < 2 ^ shift.toNat) :
    let pow := minedPoW oracles.sha256 (headerTemplate block) shift adder block.nDifficulty nonce
    pow.mpzHash = uint256ToMpz ({ block with nNonce := nonce }.getHash oracles.sha256) ∧
      (pow.valid oracles = true ↔
        checkProofOfWork oracles (daemonMiningProcess block pow) params = true) ∧
      (pow.valid oracles = true ↔
        checkProofOfWork oracles (blockMiningProcess block pow) params = true) := by
  intro pow
  have fits : adder < 2 ^ 256 := by
    have : shift.toNat ≤ 256 := UInt16.le_iff_toNat_le.mp shiftHigh
    exact lt_of_lt_of_le adderBound (Nat.pow_le_pow_right (by decide) this)
  have daemonHash : uint256ToMpz ((daemonMiningProcess block pow).getHash oracles.sha256) =
      pow.mpzHash :=
    (minedHash_eq_getHash oracles.sha256 block nonce shift _).symm
  have blockHash : uint256ToMpz ((blockMiningProcess block pow).getHash oracles.sha256) =
      pow.mpzHash :=
    (minedHash_eq_getHash oracles.sha256 block nonce shift _).symm
  refine ⟨minedHash_eq_getHash oracles.sha256 block nonce block.nShift block.nAdd, ?_, ?_⟩
  · rw [valid_eq_checkProofOfWork oracles params (daemonMiningProcess block pow) pow logarithm
      nextprime positive minimum shiftLow shiftHigh adderBound daemonHash rfl
      (daemonMiningProcess_nAdd fits block pow rfl) rfl]
  · rw [valid_eq_checkProofOfWork oracles params (blockMiningProcess block pow) pow logarithm
      nextprime positive minimum shiftLow shiftHigh adderBound blockHash rfl
      (blockMiningProcess_nAdd fits block pow rfl) rfl]

/-- The routines the proof of work calls, as this development models them: SHA-256 of
`CSHA256`, the correctly rounded logarithm, `freycoin_is_prime`, and the least odd number above
the start that `freycoin_is_prime` accepts, which `freycoin_nextprime` returns. -/
noncomputable def referenceOracles : PowOracles where
  sha256 := Crypto.sha256
  lnFixed := lnFixedReference
  freycoinIsPrime := freycoinIsPrime
  freycoinNextprime := consensusNextprime

theorem mainnet_mined_proof_agrees :
    let block : CBlockHeader := ⟨1, Vector.replicate 32 0, Vector.replicate 32 0, 0, minDifficulty,
      0, 0, Vector.replicate 32 0, 0⟩
    let pow := minedPoW referenceOracles.sha256 (headerTemplate block) 14 0 minDifficulty 7
    pow.mpzHash = uint256ToMpz ({ block with nNonce := 7 }.getHash referenceOracles.sha256) ∧
      (pow.valid referenceOracles = true ↔
        checkProofOfWork referenceOracles (daemonMiningProcess block pow) mainParams = true) ∧
      (pow.valid referenceOracles = true ↔
        checkProofOfWork referenceOracles (blockMiningProcess block pow) mainParams = true) :=
  minedPoW_valid_iff_checkProofOfWork referenceOracles mainParams
    ⟨1, Vector.replicate 32 0, Vector.replicate 32 0, 0, minDifficulty, 0, 0,
      Vector.replicate 32 0, 0⟩ 7 14 0 lnFixedReference_spec lt_consensusNextprime (by decide)
    (UInt64.le_refl _) (by decide) (by decide) (by decide)

end Freycoin.Pow
