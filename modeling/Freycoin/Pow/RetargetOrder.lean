import Freycoin.Pow.Retarget
import Freycoin.Pow.Logarithm

/-! The retarget is antitone in block times and fixed on target. -/

namespace Freycoin.Pow

section Settle

theorem clampAbove_mono (nDifficulty : UInt64) {x y : UInt64} (le : x ≤ y) :
    clampAbove nDifficulty x ≤ clampAbove nDifficulty y := by
  unfold clampAbove
  by_cases first : x > nDifficulty + twoPow48 <;> by_cases second : y > nDifficulty + twoPow48 <;>
    simp only [first, second, if_true, if_false] <;>
    simp only [UInt64.lt_iff_toNat_lt, UInt64.le_iff_toNat_le] at first second le ⊢ <;> omega

theorem clampBelow_mono (nDifficulty : UInt64) {x y : UInt64} (le : x ≤ y) :
    clampBelow nDifficulty x ≤ clampBelow nDifficulty y := by
  unfold clampBelow
  by_cases large : nDifficulty ≥ twoPow48
  · by_cases first : x < nDifficulty - twoPow48 <;> by_cases second : y < nDifficulty - twoPow48 <;>
      simp only [first, second, large, and_self, and_true, if_true, if_false] <;>
      simp only [UInt64.lt_iff_toNat_lt, UInt64.le_iff_toNat_le] at first second le ⊢ <;> omega
  · simp only [large, and_false, if_false]
    exact le

theorem enforceMinimum_mono (nDifficultyMin : UInt64) {x y : UInt64} (le : x ≤ y) :
    enforceMinimum nDifficultyMin x ≤ enforceMinimum nDifficultyMin y := by
  unfold enforceMinimum
  by_cases first : x < nDifficultyMin <;> by_cases second : y < nDifficultyMin <;>
    simp only [first, second, if_true, if_false] <;>
    simp only [UInt64.lt_iff_toNat_lt, UInt64.le_iff_toNat_le] at first second le ⊢ <;> omega

theorem settle_mono (nDifficultyMin nDifficulty : UInt64) {x y : UInt64} (le : x ≤ y) :
    enforceMinimum nDifficultyMin (clampChange nDifficulty x) ≤
      enforceMinimum nDifficultyMin (clampChange nDifficulty y) :=
  enforceMinimum_mono _ (clampBelow_mono _ (clampAbove_mono _ le))

theorem sub_twoPow48_le_clampBelow {nDifficulty : UInt64} (large : twoPow48 ≤ nDifficulty)
    (next : UInt64) : nDifficulty - twoPow48 ≤ clampBelow nDifficulty next := by
  unfold clampBelow
  split_ifs with below
  · exact UInt64.le_refl _
  · exact UInt64.not_lt.mp fun smaller => below ⟨smaller, large⟩

theorem settle_minimum_le (nDifficultyMin nDifficulty next : UInt64) :
    enforceMinimum nDifficultyMin (clampChange nDifficulty nDifficultyMin) ≤
      enforceMinimum nDifficultyMin (clampChange nDifficulty next) := by
  have capped : clampAbove nDifficulty nDifficultyMin ≤ nDifficultyMin := by
    unfold clampAbove
    split_ifs with above
    · exact UInt64.le_of_lt above
    · exact UInt64.le_refl _
  have floor := le_enforceMinimum nDifficultyMin (clampChange nDifficulty next)
  unfold clampChange
  by_cases dropped : clampBelow nDifficulty (clampAbove nDifficulty nDifficultyMin) ≤ nDifficultyMin
  · refine UInt64.le_trans ?_ floor
    exact enforceMinimum_le (UInt64.le_refl _) dropped
  · -- the lower clamp fired: the value is one merit below, and so is every other
    have fired : twoPow48 ≤ nDifficulty ∧
        clampBelow nDifficulty (clampAbove nDifficulty nDifficultyMin) = nDifficulty - twoPow48 := by
      unfold clampBelow at dropped ⊢
      split_ifs at dropped ⊢ with below
      · exact ⟨below.2, rfl⟩
      · exact absurd capped dropped
    rw [fired.2]
    apply enforceMinimum_le floor
    exact UInt64.le_trans (sub_twoPow48_le_clampBelow fired.1 _) (le_enforceMinimum_self _ _)

end Settle

section Step

/-- The step jumps to the minimum when the logarithm is above the target and the damped
distance exceeds the difficulty. -/
def Jumps (nDifficulty logActual : UInt64) : Prop :=
  logActual > logTargetSpacing48 ∧ nDifficulty < (logActual - logTargetSpacing48) >>> 6

theorem applyAdjustment_of_jumps {nDifficultyMin nDifficulty logActual : UInt64}
    (jumps : Jumps nDifficulty logActual) :
    applyAdjustment nDifficultyMin nDifficulty logActual = nDifficultyMin := by
  unfold applyAdjustment
  have notUp : ¬ logTargetSpacing48 ≥ logActual := UInt64.not_le.mpr jumps.1
  simp only [if_pos jumps.1, if_neg notUp, if_neg (UInt64.not_le.mpr jumps.2)]

theorem shiftRight_toNat (x : UInt64) (bits : UInt64) (small : bits.toNat < 64) :
    (x >>> bits).toNat = x.toNat / 2 ^ bits.toNat := by
  rw [UInt64.toNat_shiftRight, Nat.mod_eq_of_lt small, Nat.shiftRight_eq_div_pow]

@[simp] theorem logTargetSpacing48_toNat : logTargetSpacing48.toNat = 1410368452711334 := rfl

theorem applyAdjustment_up_toNat {nDifficultyMin nDifficulty logActual : UInt64}
    (bounded : nDifficulty.toNat + 2 ^ 48 < 2 ^ 64) (up : logActual ≤ logTargetSpacing48) :
    (applyAdjustment nDifficultyMin nDifficulty logActual).toNat =
      nDifficulty.toNat + (1410368452711334 - logActual.toNat) / 256 := by
  have notAbove : ¬ logActual > logTargetSpacing48 := UInt64.not_lt.mpr up
  unfold applyAdjustment
  simp only [if_neg notAbove, if_pos up]
  have distance := UInt64.toNat_sub_of_le _ _ up
  rw [logTargetSpacing48_toNat] at distance
  rw [UInt64.toNat_add, shiftRight_toNat _ 8 (by decide), distance]
  have small : (1410368452711334 - logActual.toNat) / 2 ^ (8 : UInt64).toNat < 2 ^ 48 := by
    simp only [UInt64.reduceToNat]
    omega
  rw [Nat.mod_eq_of_lt (by omega)]
  rfl

theorem applyAdjustment_down_toNat {nDifficultyMin nDifficulty logActual : UInt64}
    (down : logActual > logTargetSpacing48) (stays : ¬ Jumps nDifficulty logActual) :
    (applyAdjustment nDifficultyMin nDifficulty logActual).toNat =
      nDifficulty.toNat - (logActual.toNat - 1410368452711334) / 64 := by
  have notUp : ¬ logTargetSpacing48 ≥ logActual := UInt64.not_le.mpr down
  have covered : (logActual - logTargetSpacing48) >>> 6 ≤ nDifficulty :=
    UInt64.not_lt.mp fun below => stays ⟨down, below⟩
  unfold applyAdjustment
  simp only [if_pos down, if_neg notUp, if_pos covered]
  have distance := UInt64.toNat_sub_of_le _ _ (UInt64.le_of_lt down)
  rw [logTargetSpacing48_toNat] at distance
  rw [UInt64.toNat_sub_of_le _ _ covered, shiftRight_toNat _ 6 (by decide), distance]
  rfl

theorem jumps_mono {nDifficulty first second : UInt64} (le : first ≤ second)
    (jumps : Jumps nDifficulty first) : Jumps nDifficulty second := by
  obtain ⟨above, below⟩ := jumps
  have above' : second > logTargetSpacing48 := UInt64.lt_of_lt_of_le above le
  refine ⟨above', ?_⟩
  rw [UInt64.lt_iff_toNat_lt, shiftRight_toNat _ 6 (by decide),
    UInt64.toNat_sub_of_le _ _ (UInt64.le_of_lt above)] at below
  rw [UInt64.lt_iff_toNat_lt, shiftRight_toNat _ 6 (by decide),
    UInt64.toNat_sub_of_le _ _ (UInt64.le_of_lt above')]
  rw [UInt64.le_iff_toNat_le] at le
  have : (first.toNat - logTargetSpacing48.toNat) / 2 ^ (6 : UInt64).toNat ≤
      (second.toNat - logTargetSpacing48.toNat) / 2 ^ (6 : UInt64).toNat :=
    Nat.div_le_div_right (by omega)
  omega

theorem applyAdjustment_antitone {nDifficultyMin nDifficulty first second : UInt64}
    (bounded : nDifficulty.toNat + 2 ^ 48 < 2 ^ 64) (le : first ≤ second)
    (stays : ¬ Jumps nDifficulty second) :
    applyAdjustment nDifficultyMin nDifficulty second ≤
      applyAdjustment nDifficultyMin nDifficulty first := by
  have staysFirst : ¬ Jumps nDifficulty first := fun jumps => stays (jumps_mono le jumps)
  have ordered := UInt64.le_iff_toNat_le.mp le
  rw [UInt64.le_iff_toNat_le]
  by_cases secondUp : second ≤ logTargetSpacing48
  · have firstUp := UInt64.le_trans le secondUp
    rw [applyAdjustment_up_toNat bounded secondUp, applyAdjustment_up_toNat bounded firstUp]
    exact Nat.add_le_add_left (Nat.div_le_div_right (by omega)) _
  · have secondDown : second > logTargetSpacing48 := UInt64.not_le.mp secondUp
    rw [applyAdjustment_down_toNat secondDown stays]
    by_cases firstUp : first ≤ logTargetSpacing48
    · rw [applyAdjustment_up_toNat bounded firstUp]
      omega
    · rw [applyAdjustment_down_toNat (UInt64.not_le.mp firstUp) staysFirst]
      have : (first.toNat - 1410368452711334) / 64 ≤ (second.toNat - 1410368452711334) / 64 :=
        Nat.div_le_div_right (by omega)
      omega

theorem settle_applyAdjustment_antitone {nDifficultyMin nDifficulty first second : UInt64}
    (bounded : nDifficulty.toNat + 2 ^ 48 < 2 ^ 64) (le : first ≤ second) :
    enforceMinimum nDifficultyMin
        (clampChange nDifficulty (applyAdjustment nDifficultyMin nDifficulty second)) ≤
      enforceMinimum nDifficultyMin
        (clampChange nDifficulty (applyAdjustment nDifficultyMin nDifficulty first)) := by
  by_cases jumps : Jumps nDifficulty second
  · rw [applyAdjustment_of_jumps jumps]
    exact settle_minimum_le _ _ _
  · exact settle_mono _ _ (applyAdjustment_antitone bounded le jumps)

end Step

theorem toInt_1800 : (1800 : Int64).toInt = 1800 := rfl

section Timespan

variable {params : Params} (spacing : params.nPowTargetSpacing = 150)
include spacing

theorem clampTimespan_eq (t : Int64) :
    clampTimespan params t =
      if (if t < 1 then 1 else t) > 1800 then 1800 else if t < 1 then 1 else t := by
  rw [clampTimespan, spacing]
  rfl

theorem clampTimespan_toInt (t : Int64) :
    (clampTimespan params t).toInt = min 1800 (max 1 t.toInt) := by
  rw [clampTimespan_eq spacing]
  by_cases low : t < 1
  · have notHigh : ¬ (1 : Int64) > 1800 := by decide
    rw [if_pos low, if_neg notHigh, Int64.toInt_one]
    rw [Int64.lt_iff_toInt_lt, Int64.toInt_one] at low
    omega
  · rw [if_neg low]
    rw [Int64.lt_iff_toInt_lt, Int64.toInt_one] at low
    by_cases high : t > 1800
    · rw [if_pos high, toInt_1800]
      rw [gt_iff_lt, Int64.lt_iff_toInt_lt, toInt_1800] at high
      omega
    · rw [if_neg high]
      rw [gt_iff_lt, Int64.lt_iff_toInt_lt, toInt_1800] at high
      omega

theorem clampTimespan_bounds (t : Int64) :
    1 ≤ (clampTimespan params t).toInt ∧ (clampTimespan params t).toInt ≤ 1800 := by
  rw [clampTimespan_toInt spacing]
  omega

theorem clampTimespan_mono {s t : Int64} (le : s ≤ t) :
    clampTimespan params s ≤ clampTimespan params t := by
  rw [Int64.le_iff_toInt_le] at le ⊢
  rw [clampTimespan_toInt spacing, clampTimespan_toInt spacing]
  omega

theorem clampTimespan_of_within {t : Int64} (low : 1 ≤ t.toInt) (high : t.toInt ≤ 1800) :
    clampTimespan params t = t := by
  apply Int64.toInt_inj.mp
  rw [clampTimespan_toInt spacing]
  omega

end Timespan

section Logarithm

variable {lnFixed : Int → Nat → Int} (onTimespans : LnFixedOnTimespans lnFixed)
include onTimespans

theorem logActual_mono {s t : Int} (low : 1 ≤ s) (le : s ≤ t) (high : t ≤ 1800) :
    mpzGetUint64 (lnFixed s 48) ≤ mpzGetUint64 (lnFixed t 48) := by
  obtain ⟨nonnegS, fitsS⟩ := onTimespans.bounds low (le.trans high)
  obtain ⟨nonnegT, fitsT⟩ := onTimespans.bounds (low.trans le) high
  have ordered := onTimespans.monotone s t low le high
  rw [mpzGetUint64_of_fits nonnegS fitsS, mpzGetUint64_of_fits nonnegT fitsT,
    UInt64.le_iff_toNat_le, UInt64.toNat_ofNat', UInt64.toNat_ofNat',
    Nat.mod_eq_of_lt (by omega), Nat.mod_eq_of_lt (by omega)]
  omega

theorem calculateNextWorkRequired_antitone {params : Params}
    (spacing : params.nPowTargetSpacing = 150) {nDifficulty : UInt64}
    (bounded : nDifficulty.toNat + 2 ^ 48 < 2 ^ 64) {s t : Int64} (le : s ≤ t) :
    calculateNextWorkRequired lnFixed nDifficulty t params ≤
      calculateNextWorkRequired lnFixed nDifficulty s params := by
  obtain ⟨lowS, highS⟩ := clampTimespan_bounds spacing s
  obtain ⟨lowT, highT⟩ := clampTimespan_bounds spacing t
  have clamped := Int64.le_iff_toInt_le.mp (clampTimespan_mono spacing le)
  exact settle_applyAdjustment_antitone bounded (logActual_mono onTimespans lowS clamped highT)

end Logarithm

section Window

/-- The clamped timespans the loop of `GetNextWorkRequired` reads from iteration `i` on,
most recent first. -/
def windowTimespans (params : Params) : Nat → List BlockIndex → List Int64
  | i, pindex :: pprevs@(pprev :: _) =>
    if (i : Int) < params.nDifficultyWindow.toInt then
      clampTimespan params (pindex.getBlockTime - pprev.getBlockTime) ::
        windowTimespans params (i + 1) pprevs
    else []
  | _, _ => []

/-- The loop of `GetNextWorkRequired` over the timespans it reads. -/
def weighTimespans (params : Params) : Nat → List Int64 → Int64 × Int64 → Int64 × Int64
  | i, timespan :: rest, (weightedSum, weightTotal) =>
    let weight := Int64.ofInt (params.nDifficultyWindow.toInt - i)
    weighTimespans params (i + 1) rest (weightedSum + weight * timespan, weightTotal + weight)
  | _, [], sums => sums

theorem weighTimespans_nil (params : Params) (i : Nat) (sums : Int64 × Int64) :
    weighTimespans params i [] sums = sums := by
  cases sums
  rfl

theorem windowTimespans_nil (params : Params) (i : Nat) : windowTimespans params i [] = [] := by
  simp [windowTimespans]

theorem windowTimespans_singleton (params : Params) (i : Nat) (pindex : BlockIndex) :
    windowTimespans params i [pindex] = [] := by
  simp [windowTimespans]

theorem weightedSums_eq (params : Params) (i : Nat) (chain : List BlockIndex)
    (sums : Int64 × Int64) :
    weightedSums params i chain sums = weighTimespans params i (windowTimespans params i chain) sums := by
  fun_induction weightedSums params i chain sums with
  | case1 i pindex pprev rest weightedSum weightTotal inside timespan weight ih =>
    rw [windowTimespans, if_pos inside, weighTimespans, ih]
  | case2 i pindex pprev rest weightedSum weightTotal outside =>
    rw [windowTimespans, if_neg outside, weighTimespans]
  | case3 i chain sums short =>
    match chain, short with
    | [], _ => rw [windowTimespans_nil, weighTimespans_nil]
    | [pindex], _ => rw [windowTimespans_singleton, weighTimespans_nil]
    | pindex :: pprev :: tail, short => exact (short pindex pprev tail sums.1 sums.2 rfl rfl).elim

/-- The loop's sums as integers: the `k`-th timespan of the list weighs `W - i - k`. -/
def exactSums (W : Int) : Nat → List Int → Int × Int
  | _, [] => (0, 0)
  | i, t :: ts => ((W - i) * t + (exactSums W (i + 1) ts).1, (W - i) + (exactSums W (i + 1) ts).2)

theorem int64_toInt_add {a b : Int64} (low : -2 ^ 63 ≤ a.toInt + b.toInt)
    (high : a.toInt + b.toInt < 2 ^ 63) : (a + b).toInt = a.toInt + b.toInt := by
  rw [Int64.toInt_add, Int.bmod_eq_of_le] <;> omega

theorem int64_toInt_mul {a b : Int64} (low : -2 ^ 63 ≤ a.toInt * b.toInt)
    (high : a.toInt * b.toInt < 2 ^ 63) : (a * b).toInt = a.toInt * b.toInt := by
  rw [Int64.toInt_mul, Int.bmod_eq_of_le] <;> omega

theorem weighTimespans_toInt {params : Params} (window : params.nDifficultyWindow.toInt ≤ 2 ^ 20)
    (ts : List Int64) (i : Nat) (weightedSum weightTotal : Int64)
    (clamped : ∀ t ∈ ts, 1 ≤ t.toInt ∧ t.toInt ≤ 1800)
    (inside : (i : Int) + ts.length ≤ params.nDifficultyWindow.toInt)
    (sumLow : 0 ≤ weightedSum.toInt) (sumHigh : weightedSum.toInt ≤ i * 2 ^ 20 * 1800)
    (totalLow : 0 ≤ weightTotal.toInt) (totalHigh : weightTotal.toInt ≤ i * 2 ^ 20) :
    (weighTimespans params i ts (weightedSum, weightTotal)).1.toInt =
        weightedSum.toInt + (exactSums params.nDifficultyWindow.toInt i (ts.map Int64.toInt)).1 ∧
      (weighTimespans params i ts (weightedSum, weightTotal)).2.toInt =
        weightTotal.toInt + (exactSums params.nDifficultyWindow.toInt i (ts.map Int64.toInt)).2 := by
  induction ts generalizing i weightedSum weightTotal with
  | nil => simp [weighTimespans_nil, exactSums]
  | cons t ts ih =>
    obtain ⟨low, high⟩ := clamped t (List.mem_cons_self)
    simp only [List.length_cons, Nat.cast_add, Nat.cast_one] at inside
    -- the weight `W - i` of this iteration is between 1 and `2^20`
    have weight : (Int64.ofInt (params.nDifficultyWindow.toInt - i)).toInt =
        params.nDifficultyWindow.toInt - i := Int64.toInt_ofInt_of_le (by omega) (by omega)
    have weightLow : 1 ≤ params.nDifficultyWindow.toInt - i := by omega
    have product := Int.mul_le_mul (show params.nDifficultyWindow.toInt - i ≤ 2 ^ 20 by omega) high
      (by omega) (by norm_num)
    have productLow : 1 ≤ (params.nDifficultyWindow.toInt - i) * t.toInt := by nlinarith
    have term : (Int64.ofInt (params.nDifficultyWindow.toInt - i) * t).toInt =
        (params.nDifficultyWindow.toInt - i) * t.toInt := by
      rw [int64_toInt_mul, weight] <;> rw [weight] <;> omega
    have sum : (weightedSum + Int64.ofInt (params.nDifficultyWindow.toInt - i) * t).toInt =
        weightedSum.toInt + (params.nDifficultyWindow.toInt - i) * t.toInt := by
      rw [int64_toInt_add, term] <;> rw [term] <;> omega
    have total : (weightTotal + Int64.ofInt (params.nDifficultyWindow.toInt - i)).toInt =
        weightTotal.toInt + (params.nDifficultyWindow.toInt - i) := by
      rw [int64_toInt_add, weight] <;> rw [weight] <;> omega
    have rest := ih (i + 1) _ _ (fun t' mem => clamped t' (List.mem_cons_of_mem _ mem))
      (by push_cast; omega) (by rw [sum]; omega) (by rw [sum]; push_cast; omega)
      (by rw [total]; omega) (by rw [total]; push_cast; omega)
    rw [sum, total] at rest
    simp only [weighTimespans, List.map_cons, exactSums]
    constructor <;> omega

theorem exactSums_snd_congr {W : Int} {xs ys : List Int} (same : xs.length = ys.length) (i : Nat) :
    (exactSums W i xs).2 = (exactSums W i ys).2 := by
  induction xs generalizing ys i with
  | nil =>
    rw [List.eq_nil_of_length_eq_zero same.symm]
  | cons x xs ih =>
    obtain ⟨y, ys, rfl⟩ := List.exists_cons_of_length_eq_add_one same.symm
    simp only [exactSums, ih (Nat.succ.inj same) (i + 1)]

theorem exactSums_fst_le {W : Int} {xs ys : List Int} (le : List.Forall₂ (· ≤ ·) xs ys) (i : Nat)
    (inside : (i : Int) + xs.length ≤ W) : (exactSums W i xs).1 ≤ (exactSums W i ys).1 := by
  induction le generalizing i with
  | nil => exact le_rfl
  | @cons x y xs ys head _ ih =>
    simp only [List.length_cons, Nat.cast_add, Nat.cast_one] at inside
    have weighted : (W - i) * x ≤ (W - i) * y := Int.mul_le_mul_of_nonneg_left head (by omega)
    have rest := ih (i + 1) (by push_cast; omega)
    simp only [exactSums]
    omega

theorem exactSums_fst_of_const {W c : Int} {xs : List Int} (const : ∀ x ∈ xs, x = c) (i : Nat) :
    (exactSums W i xs).1 = c * (exactSums W i xs).2 := by
  induction xs generalizing i with
  | nil => simp [exactSums]
  | cons x xs ih =>
    simp only [exactSums, const x List.mem_cons_self,
      ih (fun y mem => const y (List.mem_cons_of_mem _ mem)) (i + 1)]
    ring

theorem exactSums_snd_pos {W : Int} {xs : List Int} (nonempty : xs ≠ []) (i : Nat)
    (inside : (i : Int) + xs.length ≤ W) : 0 < (exactSums W i xs).2 := by
  induction xs generalizing i with
  | nil => contradiction
  | cons x xs ih =>
    simp only [List.length_cons, Nat.cast_add, Nat.cast_one] at inside
    simp only [exactSums]
    by_cases empty : xs = []
    · subst empty
      simp only [exactSums]
      omega
    · have rest := ih empty (i + 1) (by push_cast; omega)
      omega

theorem exactSums_fst_nonneg {W : Int} {xs : List Int} (nonneg : ∀ x ∈ xs, 0 ≤ x) (i : Nat)
    (inside : (i : Int) + xs.length ≤ W) : 0 ≤ (exactSums W i xs).1 := by
  induction xs generalizing i with
  | nil => simp [exactSums]
  | cons x xs ih =>
    simp only [List.length_cons, Nat.cast_add, Nat.cast_one] at inside
    have weighted : 0 ≤ (W - i) * x :=
      Int.mul_nonneg (by omega) (nonneg x List.mem_cons_self)
    have rest := ih (fun y mem => nonneg y (List.mem_cons_of_mem _ mem)) (i + 1) (by push_cast; omega)
    simp only [exactSums]
    omega

section Spacing

variable {params : Params} (spacing : params.nPowTargetSpacing = 150)
include spacing

theorem windowTimespans_clamped (i : Nat) (chain : List BlockIndex) :
    ∀ t ∈ windowTimespans params i chain, 1 ≤ t.toInt ∧ t.toInt ≤ 1800 := by
  fun_induction windowTimespans params i chain with
  | case1 i pindex pprev rest inside ih =>
    intro t mem
    rcases List.mem_cons.mp mem with rfl | later
    · exact clampTimespan_bounds spacing _
    · exact ih t later
  | case2 => simp
  | case3 => simp

end Spacing

theorem windowTimespans_inside (params : Params) (i : Nat) (chain : List BlockIndex)
    (nonempty : windowTimespans params i chain ≠ []) :
    (i : Int) + (windowTimespans params i chain).length ≤ params.nDifficultyWindow.toInt := by
  fun_induction windowTimespans params i chain with
  | case1 i pindex pprev rest inside ih =>
    simp only [List.length_cons, Nat.cast_add, Nat.cast_one]
    by_cases empty : windowTimespans params (i + 1) (pprev :: rest) = []
    · rw [empty]
      simp only [List.length_nil, Nat.cast_zero]
      omega
    · have later := ih empty
      push_cast at later
      omega
  | case2 => contradiction
  | case3 => contradiction

end Window

theorem div_toInt {sum total : Int64} (nonneg : 0 ≤ sum.toInt) (positive : 0 < total.toInt) :
    (sum / total).toInt = sum.toInt / total.toInt := by
  have notMinusOne : total ≠ -1 := by
    rintro rfl
    exact absurd positive (by decide)
  rw [Int64.toInt_div_of_ne_right _ _ notMinusOne, Int.tdiv_eq_ediv_of_nonneg nonneg]

section Average

variable {params : Params} (window : params.nDifficultyWindow.toInt ≤ 2 ^ 20)
include window

theorem weighTimespans_exact {ts : List Int64} (clamped : ∀ t ∈ ts, 1 ≤ t.toInt ∧ t.toInt ≤ 1800)
    (inside : ((0 : Nat) : Int) + ts.length ≤ params.nDifficultyWindow.toInt) :
    (weighTimespans params 0 ts (0, 0)).1.toInt =
        (exactSums params.nDifficultyWindow.toInt 0 (ts.map Int64.toInt)).1 ∧
      (weighTimespans params 0 ts (0, 0)).2.toInt =
        (exactSums params.nDifficultyWindow.toInt 0 (ts.map Int64.toInt)).2 := by
  have exact := weighTimespans_toInt window ts 0 0 0 clamped inside (by decide) (by decide)
    (by decide) (by decide)
  simpa using exact

/-- The average timespan `nWeightedSum / nWeightTotal` of the loop, or the target spacing
when the window is empty. -/
def averageTimespan (params : Params) (ts : List Int64) : Int64 :=
  let sums := weighTimespans params 0 ts (0, 0)
  if sums.2 > 0 then sums.1 / sums.2 else params.nPowTargetSpacing

theorem averageTimespan_mono {tsA tsB : List Int64} (le : List.Forall₂ (· ≤ ·) tsA tsB)
    (clampedA : ∀ t ∈ tsA, 1 ≤ t.toInt ∧ t.toInt ≤ 1800)
    (clampedB : ∀ t ∈ tsB, 1 ≤ t.toInt ∧ t.toInt ≤ 1800)
    (inside : tsA ≠ [] → ((0 : Nat) : Int) + tsA.length ≤ params.nDifficultyWindow.toInt) :
    averageTimespan params tsA ≤ averageTimespan params tsB := by
  by_cases empty : tsA = []
  · subst empty
    rw [List.forall₂_nil_left_iff.mp le]
    exact Int64.le_refl _
  have lengths := le.length_eq
  have insideA := inside empty
  have insideB : ((0 : Nat) : Int) + tsB.length ≤ params.nDifficultyWindow.toInt := by
    rw [← lengths]
    exact insideA
  obtain ⟨sumA, totalA⟩ := weighTimespans_exact window clampedA insideA
  obtain ⟨sumB, totalB⟩ := weighTimespans_exact window clampedB insideB
  -- the integer sums: the weights agree and the weighted sums are ordered
  have mapped : List.Forall₂ (· ≤ ·) (tsA.map Int64.toInt) (tsB.map Int64.toInt) :=
    List.forall₂_map_left_iff.mpr (List.forall₂_map_right_iff.mpr
      (le.imp fun _ _ below => Int64.le_iff_toInt_le.mp below))
  have sameTotal : (exactSums params.nDifficultyWindow.toInt 0 (tsA.map Int64.toInt)).2 =
      (exactSums params.nDifficultyWindow.toInt 0 (tsB.map Int64.toInt)).2 :=
    exactSums_snd_congr mapped.length_eq 0
  have sums := exactSums_fst_le mapped 0 (by simpa using insideA)
  have nonemptyA : tsA.map Int64.toInt ≠ [] := by simpa using empty
  have positive : 0 < (exactSums params.nDifficultyWindow.toInt 0 (tsA.map Int64.toInt)).2 :=
    exactSums_snd_pos nonemptyA 0 (by simpa using insideA)
  have nonnegA : ∀ x ∈ tsA.map Int64.toInt, 0 ≤ x := by
    simp only [List.mem_map]
    rintro _ ⟨t, mem, rfl⟩
    have low := (clampedA t mem).1
    omega
  have nonneg : 0 ≤ (exactSums params.nDifficultyWindow.toInt 0 (tsA.map Int64.toInt)).1 :=
    exactSums_fst_nonneg nonnegA 0 (by simpa using insideA)
  have aboveA : (weighTimespans params 0 tsA (0, 0)).2 > 0 := by
    rw [gt_iff_lt, Int64.lt_iff_toInt_lt, totalA]
    exact positive
  have aboveB : (weighTimespans params 0 tsB (0, 0)).2 > 0 := by
    rw [gt_iff_lt, Int64.lt_iff_toInt_lt, totalB, ← sameTotal]
    exact positive
  simp only [averageTimespan, if_pos aboveA, if_pos aboveB]
  rw [Int64.le_iff_toInt_le, div_toInt (by rw [sumA]; exact nonneg) (by rw [totalA]; exact positive),
    div_toInt (by rw [sumB]; omega) (by rw [totalB, ← sameTotal]; exact positive),
    sumA, sumB, totalA, totalB, ← sameTotal]
  exact Int.ediv_le_ediv positive sums

theorem averageTimespan_of_target (spacing : params.nPowTargetSpacing = 150) {ts : List Int64}
    (target : ∀ t ∈ ts, t.toInt = 150)
    (inside : ts ≠ [] → ((0 : Nat) : Int) + ts.length ≤ params.nDifficultyWindow.toInt) :
    averageTimespan params ts = 150 := by
  by_cases empty : ts = []
  · subst empty
    simp [averageTimespan, weighTimespans_nil, spacing]
  have clamped : ∀ t ∈ ts, 1 ≤ t.toInt ∧ t.toInt ≤ 1800 := by
    intro t mem
    rw [target t mem]
    decide
  obtain ⟨sum, total⟩ := weighTimespans_exact window clamped (inside empty)
  have nonempty : ts.map Int64.toInt ≠ [] := by simpa using empty
  have positive : 0 < (exactSums params.nDifficultyWindow.toInt 0 (ts.map Int64.toInt)).2 :=
    exactSums_snd_pos nonempty 0 (by simpa using inside empty)
  have const : ∀ x ∈ ts.map Int64.toInt, x = 150 := by
    simp only [List.mem_map]
    rintro _ ⟨t, mem, rfl⟩
    exact target t mem
  have multiple : (exactSums params.nDifficultyWindow.toInt 0 (ts.map Int64.toInt)).1 =
      150 * (exactSums params.nDifficultyWindow.toInt 0 (ts.map Int64.toInt)).2 :=
    exactSums_fst_of_const const 0
  have above : (weighTimespans params 0 ts (0, 0)).2 > 0 := by
    rw [gt_iff_lt, Int64.lt_iff_toInt_lt, total]
    exact positive
  simp only [averageTimespan, if_pos above]
  apply Int64.toInt_inj.mp
  rw [div_toInt (by rw [sum, multiple]; positivity) (by rw [total]; exact positive), sum, total,
    multiple, Int.mul_ediv_cancel _ (Int.ne_of_gt positive)]
  rfl

end Average

theorem getNextWorkRequired_eq (lnFixed : Int → Nat → Int) (params : Params) (pindexLast : BlockIndex)
    (pprevs : List BlockIndex) :
    getNextWorkRequired lnFixed pindexLast pprevs params =
      if pindexLast.nHeight = 0 ∨ params.fPowNoRetargeting = true ∨ pprevs = [] then
        pindexLast.nDifficulty
      else calculateNextWorkRequired lnFixed pindexLast.nDifficulty
        (averageTimespan params (windowTimespans params 0 (pindexLast :: pprevs))) params := by
  unfold getNextWorkRequired
  by_cases genesis : pindexLast.nHeight = 0
  · simp [genesis]
  by_cases fixed : params.fPowNoRetargeting = true
  · simp [fixed]
  cases pprevs with
  | nil => simp
  | cons pprev pprevs =>
    simp only [genesis, fixed, if_false, reduceCtorEq, or_self, weightedSums_eq]
    rfl

section Target

theorem applyAdjustment_near_target (nDifficultyMin nDifficulty : UInt64) {logActual : UInt64}
    (low : 1410368452711334 ≤ logActual.toNat + 63) (high : logActual.toNat ≤ 1410368452711334 + 63) :
    applyAdjustment nDifficultyMin nDifficulty logActual = nDifficulty := by
  unfold applyAdjustment
  by_cases up : logTargetSpacing48 ≥ logActual
  · have notAbove : ¬ logActual > logTargetSpacing48 := UInt64.not_lt.mpr up
    have damped : (logTargetSpacing48 - logActual) >>> 8 = 0 := by
      apply UInt64.toNat_inj.mp
      rw [shiftRight_toNat _ 8 (by decide), UInt64.toNat_sub_of_le _ _ up, logTargetSpacing48_toNat]
      simp only [UInt64.reduceToNat, UInt64.toNat_zero]
      omega
    simp only [if_neg notAbove, if_pos up, damped, UInt64.add_zero]
  · have above : logActual > logTargetSpacing48 := UInt64.not_le.mp up
    have damped : (logActual - logTargetSpacing48) >>> 6 = 0 := by
      apply UInt64.toNat_inj.mp
      rw [shiftRight_toNat _ 6 (by decide), UInt64.toNat_sub_of_le _ _ (UInt64.le_of_lt above),
        logTargetSpacing48_toNat]
      simp only [UInt64.reduceToNat, UInt64.toNat_zero]
      omega
    simp only [if_pos above, if_neg up, damped, UInt64.zero_le, if_true, UInt64.sub_zero]

theorem clampChange_self {nDifficulty : UInt64} (bounded : nDifficulty.toNat + 2 ^ 48 < 2 ^ 64) :
    clampChange nDifficulty nDifficulty = nDifficulty := by
  have noWrap : (nDifficulty + twoPow48).toNat = nDifficulty.toNat + 2 ^ 48 := by
    rw [UInt64.toNat_add, twoPow48_toNat, Nat.mod_eq_of_lt bounded]
  have notAbove : ¬ nDifficulty > nDifficulty + twoPow48 := by
    rw [gt_iff_lt, UInt64.lt_iff_toNat_lt, noWrap]
    omega
  have notBelow : ¬ (nDifficulty < nDifficulty - twoPow48 ∧ nDifficulty ≥ twoPow48) := by
    rintro ⟨below, large⟩
    rw [UInt64.lt_iff_toNat_lt, sub_twoPow48_toNat large] at below
    omega
  unfold clampChange clampAbove clampBelow
  rw [if_neg notAbove, if_neg notBelow]

theorem enforceMinimum_of_le {nDifficultyMin next : UInt64} (minimum : nDifficultyMin ≤ next) :
    enforceMinimum nDifficultyMin next = next := by
  unfold enforceMinimum
  rw [if_neg (UInt64.not_lt.mpr minimum)]

/-- The logarithm at the target spacing is within 63 of `LOG_TARGET_SPACING_48`. The constant is
`ln(150) * 2^48 = 1410368452711334.56` rounded down, so MPFR's correctly rounded value is one
above it; the damping shift absorbs either. -/
def NearTarget (lnFixed : Int → Nat → Int) : Prop :=
  1410368452711334 ≤ lnFixed 150 48 + 63 ∧ lnFixed 150 48 ≤ 1410368452711334 + 63

variable {lnFixed : Int → Nat → Int} {params : Params} (spacing : params.nPowTargetSpacing = 150)
  (atTarget : NearTarget lnFixed)
include spacing atTarget

theorem calculateNextWorkRequired_at_target {nDifficulty : UInt64}
    (minimum : params.nDifficultyMin ≤ nDifficulty) (bounded : nDifficulty.toNat + 2 ^ 48 < 2 ^ 64) :
    calculateNextWorkRequired lnFixed nDifficulty 150 params = nDifficulty := by
  obtain ⟨low, high⟩ := atTarget
  have kept : clampTimespan params 150 = 150 := clampTimespan_of_within spacing (by decide) (by decide)
  have logActual : (mpzGetUint64 (lnFixed (150 : Int64).toInt 48)).toNat =
      (lnFixed 150 48).toNat := by
    rw [show (150 : Int64).toInt = 150 from rfl, mpzGetUint64_of_fits (by omega) (by omega),
      UInt64.toNat_ofNat', Nat.mod_eq_of_lt (by omega)]
  unfold calculateNextWorkRequired
  dsimp only
  rw [kept, applyAdjustment_near_target _ _ (by omega) (by omega), clampChange_self bounded,
    enforceMinimum_of_le minimum]

end Target

section Chain

variable {lnFixed : Int → Nat → Int} {params : Params} (spacing : params.nPowTargetSpacing = 150)
  (window : params.nDifficultyWindow.toInt ≤ 2 ^ 20)
include spacing window

theorem averageTimespan_window_mono {chainA chainB : List BlockIndex}
    (le : List.Forall₂ (· ≤ ·) (windowTimespans params 0 chainA) (windowTimespans params 0 chainB)) :
    averageTimespan params (windowTimespans params 0 chainA) ≤
      averageTimespan params (windowTimespans params 0 chainB) :=
  averageTimespan_mono window le (windowTimespans_clamped spacing 0 chainA)
    (windowTimespans_clamped spacing 0 chainB) (windowTimespans_inside params 0 chainA)

theorem getNextWorkRequired_antitone (onTimespans : LnFixedOnTimespans lnFixed)
    {lastA lastB : BlockIndex} {pprevsA pprevsB : List BlockIndex}
    (same : List.Forall₂ (fun a b : BlockIndex => a.nHeight = b.nHeight ∧ a.nDifficulty = b.nDifficulty)
      (lastA :: pprevsA) (lastB :: pprevsB))
    (bounded : lastA.nDifficulty.toNat + 2 ^ 48 < 2 ^ 64)
    (le : List.Forall₂ (· ≤ ·) (windowTimespans params 0 (lastA :: pprevsA))
      (windowTimespans params 0 (lastB :: pprevsB))) :
    getNextWorkRequired lnFixed lastB pprevsB params ≤
      getNextWorkRequired lnFixed lastA pprevsA params := by
  obtain ⟨⟨height, difficulty⟩, rest⟩ := List.forall₂_cons.mp same
  have empty : pprevsA = [] ↔ pprevsB = [] := by
    rw [← List.length_eq_zero_iff, ← List.length_eq_zero_iff, rest.length_eq]
  rw [getNextWorkRequired_eq, getNextWorkRequired_eq, height, difficulty]
  rw [difficulty] at bounded
  -- the tip's height, the network and the chain length decide for both chains alike
  by_cases kept : lastB.nHeight = 0 ∨ params.fPowNoRetargeting = true ∨ pprevsB = []
  · have keptA : lastB.nHeight = 0 ∨ params.fPowNoRetargeting = true ∨ pprevsA = [] := by
      rwa [empty]
    rw [if_pos kept, if_pos keptA]
    exact UInt64.le_refl _
  · have keptA : ¬ (lastB.nHeight = 0 ∨ params.fPowNoRetargeting = true ∨ pprevsA = []) := by
      rwa [empty]
    rw [if_neg kept, if_neg keptA]
    exact calculateNextWorkRequired_antitone onTimespans spacing bounded
      (averageTimespan_window_mono spacing window le)

theorem getNextWorkRequired_on_target (atTarget : NearTarget lnFixed)
    {pindexLast : BlockIndex} {pprevs : List BlockIndex}
    (minimum : params.nDifficultyMin ≤ pindexLast.nDifficulty)
    (bounded : pindexLast.nDifficulty.toNat + 2 ^ 48 < 2 ^ 64)
    (target : ∀ t ∈ windowTimespans params 0 (pindexLast :: pprevs), t = params.nPowTargetSpacing) :
    getNextWorkRequired lnFixed pindexLast pprevs params = pindexLast.nDifficulty := by
  have atSpacing : ∀ t ∈ windowTimespans params 0 (pindexLast :: pprevs), t.toInt = 150 := by
    intro t mem
    rw [target t mem, spacing]
    rfl
  rw [getNextWorkRequired_eq]
  by_cases kept : pindexLast.nHeight = 0 ∨ params.fPowNoRetargeting = true ∨ pprevs = []
  · rw [if_pos kept]
  · rw [if_neg kept, averageTimespan_of_target window spacing atSpacing
      (windowTimespans_inside params 0 _)]
    exact calculateNextWorkRequired_at_target spacing atTarget minimum bounded

end Chain

theorem retarget_antitone_and_fixed_on_target {lnFixed : Int → Nat → Int}
    (onTimespans : LnFixedOnTimespans lnFixed) {params : Params}
    (spacing : params.nPowTargetSpacing = 150) (window : params.nDifficultyWindow.toInt ≤ 2 ^ 20)
    {d : UInt64} (minimum : params.nDifficultyMin ≤ d) (bounded : d.toNat ≤ 2 ^ 64 - 1 - 2 ^ 48) :
    (∀ (lastA lastB : BlockIndex) (pprevsA pprevsB : List BlockIndex), lastA.nDifficulty = d →
      List.Forall₂ (fun a b : BlockIndex => a.nHeight = b.nHeight ∧ a.nDifficulty = b.nDifficulty)
        (lastA :: pprevsA) (lastB :: pprevsB) →
      List.Forall₂ (· ≤ ·) (windowTimespans params 0 (lastA :: pprevsA))
        (windowTimespans params 0 (lastB :: pprevsB)) →
      getNextWorkRequired lnFixed lastB pprevsB params ≤
        getNextWorkRequired lnFixed lastA pprevsA params) ∧
    (NearTarget lnFixed → ∀ (pindexLast : BlockIndex) (pprevs : List BlockIndex),
      pindexLast.nDifficulty = d →
      (∀ t ∈ windowTimespans params 0 (pindexLast :: pprevs), t = params.nPowTargetSpacing) →
      getNextWorkRequired lnFixed pindexLast pprevs params = d) := by
  have fits : d.toNat + 2 ^ 48 < 2 ^ 64 := by omega
  constructor
  · rintro lastA lastB pprevsA pprevsB rfl same le
    exact getNextWorkRequired_antitone spacing window onTimespans same fits le
  · rintro atTarget pindexLast pprevs rfl target
    exact getNextWorkRequired_on_target spacing window atTarget minimum fits target

/-- A logarithm that steps at the target spacing, where it takes MPFR's value. -/
def lnFixedStep (x : Int) (_precision : Nat) : Int :=
  if x < 150 then 0 else if x = 150 then 1410368452711335 else 1410368452711336

theorem lnFixedStep_onTimespans : LnFixedOnTimespans lnFixedStep where
  one := by decide
  monotone x y _ le _ := by
    unfold lnFixedStep
    split_ifs <;> omega
  fits := by decide

/-- On mainnet a tip mined 300 seconds after its parent retargets no higher than one mined
after 150 seconds, which keeps the difficulty. -/
theorem mainnet_retarget_slower_and_on_target :
    getNextWorkRequired lnFixedStep ⟨1, 300, minDifficulty⟩ [⟨0, 0, minDifficulty⟩] mainParams ≤
        getNextWorkRequired lnFixedStep ⟨1, 150, minDifficulty⟩ [⟨0, 0, minDifficulty⟩] mainParams ∧
      getNextWorkRequired lnFixedStep ⟨1, 150, minDifficulty⟩ [⟨0, 0, minDifficulty⟩] mainParams =
        minDifficulty := by
  obtain ⟨antitone, fixed⟩ := retarget_antitone_and_fixed_on_target lnFixedStep_onTimespans
    (show mainParams.nPowTargetSpacing = 150 from rfl) (by decide) (UInt64.le_refl minDifficulty)
    (by decide)
  have inside : ((0 : Nat) : Int) < mainParams.nDifficultyWindow.toInt := by decide
  -- both chains have one timespan in the window, the clamped time of the tip
  have window : ∀ time : UInt32,
      windowTimespans mainParams 0 [⟨1, time, minDifficulty⟩, ⟨0, 0, minDifficulty⟩] =
        [clampTimespan mainParams (BlockIndex.getBlockTime ⟨1, time, minDifficulty⟩ -
          BlockIndex.getBlockTime ⟨0, 0, minDifficulty⟩)] := by
    intro time
    rw [windowTimespans, if_pos inside, windowTimespans_singleton]
  have slower : List.Forall₂ (· ≤ ·)
      (windowTimespans mainParams 0 [⟨1, 150, minDifficulty⟩, ⟨0, 0, minDifficulty⟩])
      (windowTimespans mainParams 0 [⟨1, 300, minDifficulty⟩, ⟨0, 0, minDifficulty⟩]) := by
    rw [window, window]
    decide
  have target : ∀ t ∈ windowTimespans mainParams 0 [⟨1, 150, minDifficulty⟩, ⟨0, 0, minDifficulty⟩],
      t = mainParams.nPowTargetSpacing := by
    rw [window]
    intro t mem
    rw [List.mem_singleton] at mem
    subst mem
    decide
  exact ⟨antitone _ _ _ _ rfl (by decide) slower, fixed ⟨by decide, by decide⟩ _ _ rfl target⟩

end Freycoin.Pow
