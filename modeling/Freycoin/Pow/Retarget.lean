import Mathlib.Tactic.Ring

/-! Difficulty retargeting of `pow.cpp`.

The MPFR logarithm is the parameter `lnFixed`; nothing below depends on its value. -/

namespace Freycoin.Pow

/-- The fields of `Consensus::Params` that the proof-of-work code reads. -/
structure Params where
  nDifficultyMin : UInt64
  fPowNoRetargeting : Bool
  nPowTargetSpacing : Int64
  nDifficultyWindow : Int32
  deriving Repr, DecidableEq

def twoPow48 : UInt64 := (1 : UInt64) <<< 48

/-- The constant `MIN_DIFFICULTY` of `pow.h`, merit 16. -/
def minDifficulty : UInt64 := (16 : UInt64) <<< 48

def logTargetSpacing48 : UInt64 := 1410368452711334

/-- The helper `mpz_get_uint64` of `pow.cpp` with a 64-bit `unsigned long`: a value that fits is
returned, a negative one of at most 64 bits is reassembled from the absolute values of
its two halves, anything wider gives 0. -/
def mpzGetUint64 (value : Int) : UInt64 :=
  if 0 ≤ value ∧ value < 2 ^ 64 then UInt64.ofNat value.toNat
  else if value.natAbs < 2 ^ 64 then
    (UInt64.ofNat (value / 2 ^ 32).natAbs <<< 32) ||| UInt64.ofNat value.natAbs
  else 0

/-- The step under "Apply adjustment": `1/256` of the log distance up, `1/64` down, and a jump to the
minimum when the step down would pass zero. -/
def applyAdjustment (nDifficultyMin nDifficulty logActual : UInt64) : UInt64 :=
  let logTarget := logTargetSpacing48
  let shift : UInt64 := if logActual > logTarget then 6 else 8
  if logTarget ≥ logActual then nDifficulty + ((logTarget - logActual) >>> shift)
  else if nDifficulty ≥ (logActual - logTarget) >>> shift then
    nDifficulty - ((logActual - logTarget) >>> shift)
  else nDifficultyMin

/-- The clamp of the change to one merit (`2^48`) either way, in the wrapping arithmetic of
`uint64_t`: first from above, then from below. -/
def clampAbove (nDifficulty next : UInt64) : UInt64 :=
  if next > nDifficulty + twoPow48 then nDifficulty + twoPow48 else next

def clampBelow (nDifficulty next : UInt64) : UInt64 :=
  if next < nDifficulty - twoPow48 ∧ nDifficulty ≥ twoPow48 then nDifficulty - twoPow48
  else next

def clampChange (nDifficulty next : UInt64) : UInt64 :=
  clampBelow nDifficulty (clampAbove nDifficulty next)

def enforceMinimum (nDifficultyMin next : UInt64) : UInt64 :=
  if next < nDifficultyMin then nDifficultyMin else next

/-- The clamp of a timespan to `[1, 12 * nPowTargetSpacing]`, written the same way in
`GetNextWorkRequired` and `CalculateNextWorkRequired`. -/
def clampTimespan (params : Params) (timespan : Int64) : Int64 :=
  let timespan := if timespan < 1 then 1 else timespan
  if timespan > 12 * params.nPowTargetSpacing then 12 * params.nPowTargetSpacing else timespan

def calculateNextWorkRequired (lnFixed : Int → Nat → Int) (nDifficulty : UInt64)
    (nActualTimespan : Int64) (params : Params) : UInt64 :=
  let nActualTimespan := clampTimespan params nActualTimespan
  let logActual := mpzGetUint64 (lnFixed nActualTimespan.toInt 48)
  enforceMinimum params.nDifficultyMin
    (clampChange nDifficulty (applyAdjustment params.nDifficultyMin nDifficulty logActual))

/-- The mainnet values of `chainparams.cpp`. -/
def mainParams : Params where
  nDifficultyMin := minDifficulty
  fPowNoRetargeting := false
  nPowTargetSpacing := 150
  nDifficultyWindow := 174

/-- The fields of `CBlockIndex` that retargeting reads. -/
structure BlockIndex where
  nHeight : Int32
  nTime : UInt32
  nDifficulty : UInt64
  deriving Repr, DecidableEq

def BlockIndex.getBlockTime (pindex : BlockIndex) : Int64 := pindex.nTime.toUInt64.toInt64

/-- The loop of `GetNextWorkRequired`. A chain is a list of index entries from a block back
towards genesis, so `pprev` is the next element; `i` counts iterations and the pair is
`(weighted_sum, weight_total)`. -/
def weightedSums (params : Params) : Nat → List BlockIndex → Int64 × Int64 → Int64 × Int64
  | i, pindex :: pprevs@(pprev :: _), (weightedSum, weightTotal) =>
    if (i : Int) < params.nDifficultyWindow.toInt then
      let timespan := clampTimespan params (pindex.getBlockTime - pprev.getBlockTime)
      let weight := Int64.ofInt (params.nDifficultyWindow.toInt - i)
      weightedSums params (i + 1) pprevs (weightedSum + weight * timespan, weightTotal + weight)
    else (weightedSum, weightTotal)
  | _, _, sums => sums

/-- The call `GetNextWorkRequired(pindexLast, params)`, where `pprevs` is the chain below
`pindexLast`. -/
def getNextWorkRequired (lnFixed : Int → Nat → Int) (pindexLast : BlockIndex)
    (pprevs : List BlockIndex) (params : Params) : UInt64 :=
  if pindexLast.nHeight = 0 then pindexLast.nDifficulty
  else if params.fPowNoRetargeting then pindexLast.nDifficulty
  else match pprevs with
    | [] => pindexLast.nDifficulty
    | _ :: _ =>
      let (weightedSum, weightTotal) := weightedSums params 0 (pindexLast :: pprevs) (0, 0)
      let nWeightedTimespan :=
        if weightTotal > 0 then weightedSum / weightTotal else params.nPowTargetSpacing
      calculateNextWorkRequired lnFixed pindexLast.nDifficulty nWeightedTimespan params

@[simp] theorem twoPow48_toNat : twoPow48.toNat = 2 ^ 48 := rfl

theorem mpzGetUint64_of_fits {value : Int} (nonneg : 0 ≤ value) (fits : value < 2 ^ 64) :
    mpzGetUint64 value = UInt64.ofNat value.toNat := by
  rw [mpzGetUint64, if_pos ⟨nonneg, fits⟩]

theorem sub_twoPow48_toNat {nDifficulty : UInt64} (large : twoPow48 ≤ nDifficulty) :
    (nDifficulty - twoPow48).toNat = nDifficulty.toNat - 2 ^ 48 := by
  rw [UInt64.toNat_sub_of_le _ _ large, twoPow48_toNat]

theorem clampAbove_le (nDifficulty next : UInt64) :
    (clampAbove nDifficulty next).toNat ≤ nDifficulty.toNat + 2 ^ 48 := by
  have wrapped : (nDifficulty + twoPow48).toNat ≤ nDifficulty.toNat + 2 ^ 48 := by
    rw [UInt64.toNat_add, twoPow48_toNat]
    exact Nat.mod_le _ _
  unfold clampAbove
  split_ifs with above
  · exact wrapped
  · rw [UInt64.not_lt, UInt64.le_iff_toNat_le] at above
    omega

theorem clampChange_le (nDifficulty next : UInt64) :
    (clampChange nDifficulty next).toNat ≤ nDifficulty.toNat + 2 ^ 48 := by
  have upper := clampAbove_le nDifficulty next
  unfold clampChange clampBelow
  split_ifs with lower
  · rw [sub_twoPow48_toNat lower.2]
    omega
  · exact upper

theorem clampChange_ge (nDifficulty next : UInt64) :
    nDifficulty.toNat ≤ (clampChange nDifficulty next).toNat + 2 ^ 48 := by
  unfold clampChange clampBelow
  split_ifs with lower
  · rw [sub_twoPow48_toNat lower.2]
    omega
  · by_cases large : twoPow48 ≤ nDifficulty
    · have above := UInt64.not_lt.mp fun below => lower ⟨below, large⟩
      rw [UInt64.le_iff_toNat_le, sub_twoPow48_toNat large] at above
      omega
    · rw [UInt64.le_iff_toNat_le, twoPow48_toNat] at large
      omega

theorem le_enforceMinimum (nDifficultyMin next : UInt64) :
    nDifficultyMin ≤ enforceMinimum nDifficultyMin next := by
  unfold enforceMinimum
  split_ifs with below
  · exact UInt64.le_refl _
  · exact UInt64.not_lt.mp below

theorem enforceMinimum_le {nDifficultyMin next bound : UInt64} (minimum : nDifficultyMin ≤ bound)
    (below : next ≤ bound) : enforceMinimum nDifficultyMin next ≤ bound := by
  unfold enforceMinimum
  split_ifs
  · exact minimum
  · exact below

theorem le_enforceMinimum_self (nDifficultyMin next : UInt64) :
    next ≤ enforceMinimum nDifficultyMin next := by
  unfold enforceMinimum
  split_ifs with below
  · exact UInt64.le_of_lt below
  · exact UInt64.le_refl _

/-- The three bounds of the retarget for one previous difficulty `d`. -/
def WithinOneMerit (nDifficultyMin d next : UInt64) : Prop :=
  nDifficultyMin ≤ next ∧ next.toNat ≤ d.toNat + 2 ^ 48 ∧ d.toNat ≤ next.toNat + 2 ^ 48

theorem enforceMinimum_clampChange_within {nDifficultyMin nDifficulty : UInt64} (next : UInt64)
    (minimum : nDifficultyMin ≤ nDifficulty) :
    WithinOneMerit nDifficultyMin nDifficulty
      (enforceMinimum nDifficultyMin (clampChange nDifficulty next)) := by
  have upper := clampChange_le nDifficulty next
  have lower := clampChange_ge nDifficulty next
  have raised := le_enforceMinimum_self nDifficultyMin (clampChange nDifficulty next)
  rw [UInt64.le_iff_toNat_le] at raised minimum
  refine ⟨le_enforceMinimum _ _, ?_, by omega⟩
  unfold enforceMinimum
  split_ifs
  · omega
  · exact upper

theorem calculateNextWorkRequired_within (lnFixed : Int → Nat → Int) (params : Params)
    (nDifficulty : UInt64) (nActualTimespan : Int64) (minimum : params.nDifficultyMin ≤ nDifficulty) :
    WithinOneMerit params.nDifficultyMin nDifficulty
      (calculateNextWorkRequired lnFixed nDifficulty nActualTimespan params) :=
  enforceMinimum_clampChange_within _ minimum

theorem withinOneMerit_self {nDifficultyMin nDifficulty : UInt64}
    (minimum : nDifficultyMin ≤ nDifficulty) :
    WithinOneMerit nDifficultyMin nDifficulty nDifficulty :=
  ⟨minimum, by omega, by omega⟩

theorem getNextWorkRequired_within (lnFixed : Int → Nat → Int) (params : Params)
    (pindexLast : BlockIndex) (pprevs : List BlockIndex)
    (minimum : params.nDifficultyMin ≤ pindexLast.nDifficulty) :
    WithinOneMerit params.nDifficultyMin pindexLast.nDifficulty
      (getNextWorkRequired lnFixed pindexLast pprevs params) := by
  unfold getNextWorkRequired
  split_ifs
  · exact withinOneMerit_self minimum
  · exact withinOneMerit_self minimum
  · split
    · exact withinOneMerit_self minimum
    · exact calculateNextWorkRequired_within lnFixed params _ _ minimum

/-- A chain, tip first, each of whose headers passed the `bad-difficulty` check of
`ContextualCheckBlockHeader` against the entry below it. -/
def DifficultyChecked (lnFixed : Int → Nat → Int) (params : Params) : List BlockIndex → Prop
  | header :: pindexPrev :: pprevs =>
    header.nDifficulty = getNextWorkRequired lnFixed pindexPrev pprevs params ∧
      DifficultyChecked lnFixed params (pindexPrev :: pprevs)
  | _ => True

/-- Every entry is at the minimum or above and moves by at most one merit from the entry
below it. -/
def DifficultyBounded (nDifficultyMin : UInt64) : List BlockIndex → Prop
  | header :: pindexPrev :: pprevs =>
    WithinOneMerit nDifficultyMin pindexPrev.nDifficulty header.nDifficulty ∧
      DifficultyBounded nDifficultyMin (pindexPrev :: pprevs)
  | [genesis] => nDifficultyMin ≤ genesis.nDifficulty
  | [] => True

theorem DifficultyBounded.head_le {nDifficultyMin : UInt64} {header : BlockIndex}
    {pprevs : List BlockIndex} (bounded : DifficultyBounded nDifficultyMin (header :: pprevs)) :
    nDifficultyMin ≤ header.nDifficulty := by
  cases pprevs with
  | nil => exact bounded
  | cons pindexPrev pprevs => exact bounded.1.1

theorem difficultyBounded_extend (lnFixed : Int → Nat → Int) (params : Params)
    {header pindexPrev : BlockIndex} {pprevs : List BlockIndex}
    (bounded : DifficultyBounded params.nDifficultyMin (pindexPrev :: pprevs))
    (checked : header.nDifficulty = getNextWorkRequired lnFixed pindexPrev pprevs params) :
    DifficultyBounded params.nDifficultyMin (header :: pindexPrev :: pprevs) := by
  refine ⟨?_, bounded⟩
  rw [checked]
  exact getNextWorkRequired_within lnFixed params pindexPrev pprevs bounded.head_le

theorem difficultyBounded_of_checked (lnFixed : Int → Nat → Int) (params : Params)
    (genesis : BlockIndex) (minimum : params.nDifficultyMin ≤ genesis.nDifficulty) :
    ∀ headers : List BlockIndex, DifficultyChecked lnFixed params (headers ++ [genesis]) →
      DifficultyBounded params.nDifficultyMin (headers ++ [genesis])
  | [], _ => minimum
  | [_], checked => difficultyBounded_extend lnFixed params minimum checked.1
  | _ :: pindexPrev :: pprevs, checked =>
    difficultyBounded_extend lnFixed params
      (difficultyBounded_of_checked lnFixed params genesis minimum (pindexPrev :: pprevs) checked.2)
      checked.1

theorem getNextWorkRequired_bounded_on_every_chain (lnFixed : Int → Nat → Int) (params : Params) :
    (∀ (pindexLast : BlockIndex) (pprevs : List BlockIndex),
      params.nDifficultyMin ≤ pindexLast.nDifficulty →
        WithinOneMerit params.nDifficultyMin pindexLast.nDifficulty
          (getNextWorkRequired lnFixed pindexLast pprevs params)) ∧
    (∀ (genesis : BlockIndex) (headers : List BlockIndex),
      params.nDifficultyMin ≤ genesis.nDifficulty →
        DifficultyChecked lnFixed params (headers ++ [genesis]) →
          DifficultyBounded params.nDifficultyMin (headers ++ [genesis])) :=
  ⟨fun pindexLast pprevs minimum => getNextWorkRequired_within lnFixed params pindexLast pprevs minimum,
    fun genesis headers minimum => difficultyBounded_of_checked lnFixed params genesis minimum headers⟩

/-- The MPFR value at the one timespan the example below reaches: the hardcoded
`ln(150) * 2^48`. -/
def lnFixedAt150 (x : Int) (precision : Nat) : Int :=
  if x = 150 ∧ precision = 48 then 1410368452711334 else 0

/-- A mainnet chain of a genesis entry and one header 150 seconds later. -/
theorem mainnet_retarget_within_one_merit :
    WithinOneMerit minDifficulty minDifficulty
        (getNextWorkRequired lnFixedAt150 ⟨1, 150, minDifficulty⟩ [⟨0, 0, minDifficulty⟩]
          mainParams) ∧
      DifficultyBounded minDifficulty [⟨1, 150, minDifficulty⟩, ⟨0, 0, minDifficulty⟩] :=
  ⟨(getNextWorkRequired_bounded_on_every_chain lnFixedAt150 mainParams).1 ⟨1, 150, minDifficulty⟩
      [⟨0, 0, minDifficulty⟩] (UInt64.le_refl _),
    (getNextWorkRequired_bounded_on_every_chain lnFixedAt150 mainParams).2 ⟨0, 0, minDifficulty⟩
      [⟨1, 150, minDifficulty⟩] (UInt64.le_refl _) ⟨by decide, trivial⟩⟩

end Freycoin.Pow
