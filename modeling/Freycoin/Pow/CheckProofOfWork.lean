import Freycoin.Pow.Header
import Freycoin.Pow.Retarget

/-! The consensus check of the prime-gap proof of work in `pow.cpp`: `CalculateMerit`,
`GapRandom`, `CalculateDifficulty` and `CheckProofOfWork`.

SHA-256, the MPFR logarithm, `freycoin_is_prime` and `freycoin_nextprime` are the fields of
`PowOracles`. -/

namespace Freycoin.Pow

open LittleEndian

structure PowOracles where
  sha256 : List UInt8 → Vector UInt8 32
  lnFixed : Int → Nat → Int
  freycoinIsPrime : Nat → Int
  freycoinNextprime : Nat → Nat

def minShift : UInt16 := 14

def maxShift : UInt16 := 256

/-- The helper `uint256_to_mpz`: the 32 bytes read little-endian. -/
def uint256ToMpz (value : Vector UInt8 32) : Nat := leValue value.toList

/-- XOR of the four little-endian 64-bit words of a hash, as both `GapRandom` and
`PoWUtils::rand` fold it. -/
def xorFold (hash : Vector UInt8 32) : UInt64 :=
  let word (i : Nat) := UInt64.ofNat (leValue ((hash.toList.drop (8 * i)).take 8))
  word 0 ^^^ word 1 ^^^ word 2 ^^^ word 3

def calculateMerit (lnFixed : Int → Nat → Int) (mpzStart mpzEnd : Nat) : UInt64 :=
  let gap : Int := (mpzEnd : Int) - mpzStart
  mpzGetUint64 ((gap * 2 ^ 96).fdiv (lnFixed mpzStart 48))

/-- Each end goes in as the `actual_len` bytes that `mpz_export` writes. -/
def gapRandom (sha256 : List UInt8 → Vector UInt8 32) (mpzStart mpzEnd : Nat) : UInt64 :=
  xorFold (sha256d sha256 (minimalBytes mpzStart ++ minimalBytes mpzEnd))

def calculateDifficulty (sha256 : List UInt8 → Vector UInt8 32) (lnFixed : Int → Nat → Int)
    (mpzStart mpzEnd : Nat) : UInt64 :=
  let minGapDistanceMerit := mpzGetUint64 ((2 * 2 ^ 96 : Int).fdiv (lnFixed mpzStart 48))
  let minGapDistanceMerit := if minGapDistanceMerit = 0 then 1 else minGapDistanceMerit
  calculateMerit lnFixed mpzStart mpzEnd + gapRandom sha256 mpzStart mpzEnd % minGapDistanceMerit

def checkProofOfWork (oracles : PowOracles) (block : CBlockHeader) (params : Params) : Bool :=
  if block.nShift < minShift then false
  else if block.nShift > maxShift then false
  else if block.nDifficulty < params.nDifficultyMin then false
  else
    let mpzHash := uint256ToMpz (block.getHash oracles.sha256)
    if sizeInBase2 mpzHash < 200 then false
    else
      let mpzAdder := uint256ToMpz block.nAdd
      if sizeInBase2 mpzAdder > block.nShift.toNat then false
      else
        let mpzStart := mpzHash * 2 ^ block.nShift.toNat + mpzAdder
        if oracles.freycoinIsPrime mpzStart = 0 then false
        else
          let mpzEnd := oracles.freycoinNextprime mpzStart
          decide (calculateDifficulty oracles.sha256 oracles.lnFixed mpzStart mpzEnd ≥
            block.nDifficulty)

end Freycoin.Pow
