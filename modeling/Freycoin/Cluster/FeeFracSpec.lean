import Freycoin.Cluster.FeeFrac
import Freycoin.Library.MachineInt
import Freycoin.Library.WideDivision

/-! The portable `FeeFrac` arithmetic is exact. -/

namespace Freycoin.Cluster.FeeFrac

open MachineInt WideDivision

section Mul

theorem lowWord_toInt (a : Int64) :
    a.toUInt64.toUInt32.toUInt64.toInt64.toInt = a.toInt % 2 ^ 32 := by
  have small := a.toUInt64.toUInt32.toNat_lt
  rw [toInt_toInt64_of_lt (by rw [UInt32.toNat_toUInt64]; omega), UInt32.toNat_toUInt64,
    toNat_toUInt32_of_int64]

theorem mul_bounds_of_low {x y : ℤ} (low : 0 ≤ x ∧ x < 2 ^ 32) (word : -2 ^ 31 ≤ y ∧ y < 2 ^ 31) :
    -2 ^ 63 ≤ x * y ∧ x * y < 2 ^ 63 := by
  constructor <;> nlinarith

theorem mulFallback_words (a : Int64) (b : Int32) :
    (mulFallback a b).1.toInt = mul a b / 2 ^ 32 ∧
      ((mulFallback a b).2.toNat : ℤ) = mul a b % 2 ^ 32 := by
  obtain ⟨low, lowDef⟩ : ∃ low, a.toInt % 2 ^ 32 * b.toInt = low := ⟨_, rfl⟩
  have bWord : b.toInt64.toInt = b.toInt := Int32.toInt_toInt64 b
  have lowBounds := mul_bounds_of_low (x := a.toInt % 2 ^ 32) (y := b.toInt)
    ⟨Int.emod_nonneg _ (by norm_num), Int.emod_lt_of_pos _ (by norm_num)⟩
    ⟨Int32.le_toInt b, Int32.toInt_lt b⟩
  have highA : -2 ^ 31 ≤ a.toInt / 2 ^ 32 ∧ a.toInt / 2 ^ 32 < 2 ^ 31 := by
    have := Int64.le_toInt a
    have := Int64.toInt_lt a
    omega
  have highBounds : -2 ^ 62 ≤ a.toInt / 2 ^ 32 * b.toInt ∧ a.toInt / 2 ^ 32 * b.toInt ≤ 2 ^ 62 := by
    have := Int32.le_toInt b
    have := Int32.toInt_lt b
    constructor <;> nlinarith
  -- the two partial products of the source, each exact
  have lowWord : (a.toUInt64.toUInt32.toUInt64.toInt64 * b.toInt64).toInt = low :=
    lowDef ▸ toInt_mul_eq (lowWord_toInt a) bWord lowBounds.1 lowBounds.2
  have highWord : (a >>> 32 * b.toInt64).toInt = a.toInt / 2 ^ 32 * b.toInt :=
    toInt_mul_eq (toInt_shiftRight_32 a) bWord (by omega) (by omega)
  rw [lowDef] at lowBounds
  have first : (mulFallback a b).1.toInt = a.toInt / 2 ^ 32 * b.toInt + low / 2 ^ 32 :=
    toInt_add_eq highWord (by rw [toInt_shiftRight_32, lowWord]) (by omega) (by omega)
  have second : ((mulFallback a b).2.toNat : ℤ) = low % 2 ^ 32 := by
    show ((a.toUInt64.toUInt32.toUInt64.toInt64 * b.toInt64).toUInt64.toUInt32.toNat : ℤ) = _
    rw [toNat_toUInt32_of_int64, lowWord]
  -- the product, split at `2 ^ 32` through the low word of `a`
  have product : mul a b = (a.toInt / 2 ^ 32 * b.toInt + low / 2 ^ 32) * 2 ^ 32 + low % 2 ^ 32 := by
    have splitA := Int.mul_ediv_add_emod a.toInt (2 ^ 32)
    have splitLow := Int.mul_ediv_add_emod low (2 ^ 32)
    calc mul a b = (2 ^ 32 * (a.toInt / 2 ^ 32) + a.toInt % 2 ^ 32) * b.toInt := by
          rw [splitA]; rfl
      _ = a.toInt / 2 ^ 32 * b.toInt * 2 ^ 32 + (2 ^ 32 * (low / 2 ^ 32) + low % 2 ^ 32) := by
          rw [splitLow, ← lowDef]; ring
      _ = _ := by ring
  obtain ⟨high, rest⟩ := (Int.ediv_emod_unique (a := mul a b)
    (q := a.toInt / 2 ^ 32 * b.toInt + low / 2 ^ 32) (r := low % 2 ^ 32)
    (show (0 : ℤ) < 2 ^ 32 by norm_num)).mpr
    ⟨by rw [product]; ring, Int.emod_nonneg low (by norm_num), Int.emod_lt_of_pos low (by norm_num)⟩
  exact ⟨first.trans high.symm, second.trans rest.symm⟩

theorem mulFallback_spec (a : Int64) (b : Int32) :
    (mulFallback a b).1.toInt * 2 ^ 32 + (mulFallback a b).2.toNat = mul a b := by
  obtain ⟨high, low⟩ := mulFallback_words a b
  rw [high, low]
  exact Int.ediv_mul_add_emod (mul a b) (2 ^ 32)

theorem comparePair_mulFallback (a c : Int64) (b d : Int32) :
    comparePair (mulFallback a b) (mulFallback c d) = compare (mul a b) (mul c d) := by
  have low : 0 ≤ ((mulFallback a b).2.toNat : ℤ) ∧ ((mulFallback a b).2.toNat : ℤ) < 2 ^ 32 := by
    have := (mulFallback a b).2.toNat_lt
    omega
  have low' : 0 ≤ ((mulFallback c d).2.toNat : ℤ) ∧ ((mulFallback c d).2.toNat : ℤ) < 2 ^ 32 := by
    have := (mulFallback c d).2.toNat_lt
    omega
  rw [comparePair, compare_toInt, compare_toNat, ← mulFallback_spec a b, ← mulFallback_spec c d,
    compare_mul_add (by norm_num) low low']

theorem mulFallback_eq_iff (a c : Int64) (b d : Int32) :
    mulFallback a b = mulFallback c d ↔ mul a b = mul c d := by
  constructor
  · intro same
    rw [← mulFallback_spec a b, ← mulFallback_spec c d, same]
  · intro same
    obtain ⟨high, low⟩ := mulFallback_words a b
    obtain ⟨high', low'⟩ := mulFallback_words c d
    refine Prod.ext (Int64.toInt_inj.mp ?_) (UInt32.toNat_inj.mp ?_)
    · rw [high, high', same]
    · exact_mod_cast (low.trans (same ▸ low'.symm))

end Mul

section Compare

variable (x y : FeeFrac)

theorem feeRateCompare_fallback : feeRateCompare fallback x y = feeRateCompare int128 x y :=
  comparePair_mulFallback x.fee y.fee y.size x.size

theorem lowerFeerate_fallback : lowerFeerate fallback x y = lowerFeerate int128 x y := by
  simp only [lowerFeerate]
  rw [show fallback.cmp (fallback.mul x.fee y.size) (fallback.mul y.fee x.size) =
    int128.cmp (int128.mul x.fee y.size) (int128.mul y.fee x.size) from feeRateCompare_fallback x y]

theorem higherFeerate_fallback : higherFeerate fallback x y = higherFeerate int128 x y := by
  simp only [higherFeerate]
  rw [show fallback.cmp (fallback.mul x.fee y.size) (fallback.mul y.fee x.size) =
    int128.cmp (int128.mul x.fee y.size) (int128.mul y.fee x.size) from feeRateCompare_fallback x y]

theorem threeWayCompare_fallback : threeWayCompare fallback x y = threeWayCompare int128 x y := by
  simp only [threeWayCompare]
  rw [show fallback.cmp (fallback.mul x.fee y.size) (fallback.mul y.fee x.size) =
      int128.cmp (int128.mul x.fee y.size) (int128.mul y.fee x.size) from feeRateCompare_fallback x y]
  exact if_congr (mulFallback_eq_iff x.fee y.fee y.size x.size) rfl rfl

end Compare

section Div

theorem roundingCorrection_toInt (m : Int32) (roundDown : Bool) :
    (roundingCorrection m roundDown).toInt =
      (if 0 < m.toInt then 1 else 0) - (if m.toInt ≠ 0 ∧ roundDown = true then 1 else 0) := by
  simp only [roundingCorrection, Int32.lt_iff_toInt_lt, ne_eq, ← Int32.toInt_inj, Int32.toInt_zero]
  split_ifs <;> rfl

variable {d : Int32}

theorem quotient_toInt (x : Int64) (positive : 0 < d.toInt) (roundDown : Bool) :
    (x / d.toInt64 + roundingCorrection (x % d.toInt64).toInt32 roundDown).toInt =
      roundedDiv x.toInt d.toInt roundDown := by
  have low := Int64.le_toInt x
  have high := Int64.toInt_lt x
  have divisor : d.toInt64.toInt = d.toInt := Int32.toInt_toInt64 d
  have truncated := tdiv_between_self x.toInt positive
  have quotient : (x / d.toInt64).toInt = x.toInt.tdiv d.toInt :=
    toInt_div_eq rfl divisor (by omega) (by omega)
  have remainder : (x % d.toInt64).toInt32.toInt = x.toInt.tmod d.toInt := by
    have above := Int.lt_tmod_of_pos x.toInt positive
    have below := Int.tmod_lt_of_pos x.toInt positive
    have small := Int32.toInt_lt d
    rw [Int64.toInt_toInt32, Int64.toInt_mod, divisor, Int.bmod_eq_of_le] <;> omega
  have rounded := roundedDiv_between (n := x.toInt) positive roundDown
  have sum := tdiv_add_correction x.toInt positive roundDown
  rw [← sum] at rounded ⊢
  exact toInt_add_eq quotient (by rw [roundingCorrection_toInt, remainder]) (by omega) (by omega)

theorem divFallback_eq (n : Int64 × UInt32) (positive : 0 < d.toInt) (roundDown : Bool)
    (low : -2 ^ 63 ≤ roundedDiv (n.1.toInt * 2 ^ 32 + n.2.toNat) d.toInt roundDown)
    (high : roundedDiv (n.1.toInt * 2 ^ 32 + n.2.toNat) d.toInt roundDown < 2 ^ 63) :
    (divFallback n d roundDown).toInt =
      roundedDiv (n.1.toInt * 2 ^ 32 + n.2.toNat) d.toInt roundDown := by
  obtain ⟨h, l⟩ := n
  dsimp only at low high ⊢
  have divisor : d.toInt64.toInt = d.toInt := Int32.toInt_toInt64 d
  have small := Int32.toInt_lt d
  have word := l.toNat_lt
  have lowWord : l.toUInt64.toInt64.toInt = l.toNat := by
    rw [toInt_toInt64_of_lt (by rw [UInt32.toNat_toUInt64]; omega), UInt32.toNat_toUInt64]
  have above := Int.lt_tmod_of_pos h.toInt positive
  have below := Int.tmod_lt_of_pos h.toInt positive
  -- `n_low`: what is left of the high word, shifted, with the low word
  have rest : ((h % d.toInt64) <<< 32 + l.toUInt64.toInt64).toInt =
      h.toInt.tmod d.toInt * 2 ^ 32 + l.toNat :=
    toInt_add_eq (toInt_shiftLeft_32_eq (by rw [Int64.toInt_mod, divisor]) (by omega) (by omega))
      lowWord (by omega) (by omega)
  have quotLow := quotient_toInt ((h % d.toInt64) <<< 32 + l.toUInt64.toInt64) positive roundDown
  rw [rest] at quotLow
  have truncated := tdiv_between_self h.toInt positive
  have quotHigh : (h / d.toInt64).toInt = h.toInt.tdiv d.toInt :=
    toInt_div_eq rfl divisor (by have := Int64.le_toInt h; omega) (by have := Int64.toInt_lt h; omega)
  have split := roundedDiv_mul_add positive h.toInt (2 ^ 32) l.toNat roundDown
  have rounded := roundedDiv_between (n := h.toInt.tmod d.toInt * 2 ^ 32 + l.toNat) positive roundDown
  -- `quot_high << 32` does not wrap: the remainder has the sign of the high word
  have shifted : -2 ^ 31 ≤ h.toInt.tdiv d.toInt ∧ h.toInt.tdiv d.toInt < 2 ^ 31 := by
    rcases le_total 0 h.toInt with nonneg | nonpos
    · have := Int.tmod_nonneg d.toInt nonneg
      omega
    · have := tmod_nonpos (d := d.toInt) h.toInt nonpos
      omega
  rw [split]
  exact toInt_add_eq (toInt_shiftLeft_32_eq quotHigh shifted.1 shifted.2) quotLow (by omega)
    (by omega)

theorem div_eq (N : ℤ) (positive : 0 < d.toInt) (roundDown : Bool)
    (low : -2 ^ 63 ≤ roundedDiv N d.toInt roundDown) (high : roundedDiv N d.toInt roundDown < 2 ^ 63) :
    (div N d roundDown).toInt = roundedDiv N d.toInt roundDown := by
  have truncated := tdiv_between N positive roundDown
  have small := Int32.toInt_lt d
  have quot : (Int64.ofInt (N.tdiv d.toInt)).toInt = N.tdiv d.toInt := by
    rw [Int64.toInt_ofInt, Int.bmod_eq_of_le] <;> simp only [Int64.size] <;> omega
  have mod : (Int32.ofInt (N.tmod d.toInt)).toInt = N.tmod d.toInt := by
    have above := Int.lt_tmod_of_pos N positive
    have below := Int.tmod_lt_of_pos N positive
    rw [Int32.toInt_ofInt, Int.bmod_eq_of_le] <;> simp only [Int32.size] <;> omega
  have sum := tdiv_add_correction N positive roundDown
  rw [← sum] at low high ⊢
  exact toInt_add_eq quot (by rw [roundingCorrection_toInt, mod]) (by omega) (by omega)

end Div

section Evaluate

variable {f : FeeFrac} {atSize : Int32}

theorem evaluateFeeFast_eq (roundDown : Bool) (nonneg : 0 ≤ f.fee.toInt)
    (small : f.fee.toInt < 2 ^ 33) (positive : 0 < f.size.toInt) (atNonneg : 0 ≤ atSize.toInt)
    (high : roundedDiv (f.fee.toInt * atSize.toInt) f.size.toInt roundDown < 2 ^ 63) :
    (evaluateFeeFast f roundDown atSize).toInt =
      roundedDiv (f.fee.toInt * atSize.toInt) f.size.toInt roundDown := by
  -- the three operands as natural numbers
  obtain ⟨fee, feeDef⟩ : ∃ fee : ℕ, f.fee.toUInt64.toNat = fee := ⟨_, rfl⟩
  obtain ⟨at', atDef⟩ : ∃ at' : ℕ, atSize.toInt64.toUInt64.toNat = at' := ⟨_, rfl⟩
  obtain ⟨size, sizeDef⟩ : ∃ size : ℕ, f.size.toUInt32.toUInt64.toNat = size := ⟨_, rfl⟩
  have feeValue : (fee : ℤ) = f.fee.toInt := by
    rw [← feeDef, toNat_toUInt64, Int.emod_eq_of_lt nonneg (by omega)]
  have atValue : (at' : ℤ) = atSize.toInt := by
    have := Int32.toInt_lt atSize
    rw [← atDef, toNat_toUInt64, Int32.toInt_toInt64, Int.emod_eq_of_lt atNonneg (by omega)]
  have sizeValue : (size : ℤ) = f.size.toInt := by
    have := Int32.toInt_lt f.size
    rw [← sizeDef, UInt32.toNat_toUInt64, toNat_toUInt32, Int.emod_eq_of_lt positive.le (by omega)]
  have sizeValue' : (f.size.toInt64.toUInt64.toNat : ℤ) = f.size.toInt := by
    have := Int32.toInt_lt f.size
    rw [toNat_toUInt64, Int32.toInt_toInt64, Int.emod_eq_of_lt positive.le (by omega)]
  have product : fee * at' ≤ (2 ^ 33 - 1) * (2 ^ 31 - 1) := by
    have := Int32.toInt_lt atSize
    exact Nat.mul_le_mul (by omega) (by omega)
  have productWord : (f.fee.toUInt64 * atSize.toInt64.toUInt64).toNat = fee * at' := by
    rw [UInt64.toNat_mul, feeDef, atDef, Nat.mod_eq_of_lt (by omega)]
  have sizePositive : 0 < size := by omega
  rw [← feeValue, ← atValue, ← sizeValue, ← Int.natCast_mul,
    roundedDiv_natCast _ sizePositive] at high ⊢
  cases roundDown
  · -- `fee * at_size + size - 1` stays below `2 ^ 64`
    have sizeWord : f.size.toInt64.toUInt64.toNat = size := by exact_mod_cast sizeValue'.trans sizeValue.symm
    have sizeSmall := Int32.toInt_lt f.size
    have bound : fee * at' + size < 2 ^ 64 := by omega
    have sumWord : (f.fee.toUInt64 * atSize.toInt64.toUInt64 + f.size.toInt64.toUInt64).toNat =
        fee * at' + size := by
      rw [UInt64.toNat_add, productWord, sizeWord, Nat.mod_eq_of_lt bound]
    have roundedWord : (f.fee.toUInt64 * atSize.toInt64.toUInt64 + f.size.toInt64.toUInt64 - 1).toNat =
        fee * at' + size - 1 := by
      rw [UInt64.toNat_sub_of_le _ _ (by rw [UInt64.le_iff_toNat_le, sumWord, UInt64.toNat_one]; omega),
        sumWord, UInt64.toNat_one]
    have quotientWord : ((f.fee.toUInt64 * atSize.toInt64.toUInt64 + f.size.toInt64.toUInt64 - 1) /
        f.size.toUInt32.toUInt64).toNat = (fee * at' + size - 1) / size := by
      rw [UInt64.toNat_div, roundedWord, sizeDef]
    simp only [Bool.false_eq_true, ↓reduceIte] at high ⊢
    have fits : ((f.fee.toUInt64 * atSize.toInt64.toUInt64 + f.size.toInt64.toUInt64 - 1) /
        f.size.toUInt32.toUInt64).toNat < 2 ^ 63 := by
      rw [quotientWord]
      omega
    rw [evaluateFeeFast, if_neg Bool.false_ne_true, toInt_toInt64_of_lt fits, quotientWord]
  · have quotientWord : (f.fee.toUInt64 * atSize.toInt64.toUInt64 / f.size.toUInt32.toUInt64).toNat =
        fee * at' / size := by
      rw [UInt64.toNat_div, productWord, sizeDef]
    simp only [↓reduceIte] at high ⊢
    have fits : (f.fee.toUInt64 * atSize.toInt64.toUInt64 / f.size.toUInt32.toUInt64).toNat < 2 ^ 63 := by
      rw [quotientWord]
      omega
    rw [evaluateFeeFast, if_pos rfl, toInt_toInt64_of_lt fits, quotientWord]

theorem fast_bounds (branch : 0 ≤ f.fee ∧ f.fee < 0x200000000) :
    0 ≤ f.fee.toInt ∧ f.fee.toInt < 2 ^ 33 :=
  ⟨Int64.le_iff_toInt_le.mp branch.1, Int64.lt_iff_toInt_lt.mp branch.2⟩

variable (roundDown : Bool) (positive : 0 < f.size.toInt) (atNonneg : 0 ≤ atSize.toInt)
  (low : -2 ^ 63 ≤ roundedDiv (f.fee.toInt * atSize.toInt) f.size.toInt roundDown)
  (high : roundedDiv (f.fee.toInt * atSize.toInt) f.size.toInt roundDown < 2 ^ 63)
include positive atNonneg low high

theorem evaluateFee_int128 :
    (evaluateFee int128 f roundDown atSize).toInt =
      roundedDiv (f.fee.toInt * atSize.toInt) f.size.toInt roundDown := by
  unfold evaluateFee
  split_ifs with branch
  · obtain ⟨nonneg, small⟩ := fast_bounds branch
    exact evaluateFeeFast_eq roundDown nonneg small positive atNonneg high
  · exact div_eq (mul f.fee atSize) positive roundDown low high

omit atNonneg in
theorem divFallback_mulFallback_eq :
    (divFallback (mulFallback f.fee atSize) f.size roundDown).toInt =
      roundedDiv (f.fee.toInt * atSize.toInt) f.size.toInt roundDown := by
  have value : (mulFallback f.fee atSize).1.toInt * 2 ^ 32 + (mulFallback f.fee atSize).2.toNat =
      f.fee.toInt * atSize.toInt := mulFallback_spec f.fee atSize
  rw [← value] at low high ⊢
  exact divFallback_eq (mulFallback f.fee atSize) positive roundDown low high

theorem evaluateFee_fallback :
    (evaluateFee fallback f roundDown atSize).toInt =
      roundedDiv (f.fee.toInt * atSize.toInt) f.size.toInt roundDown := by
  unfold evaluateFee
  split_ifs with branch
  · obtain ⟨nonneg, small⟩ := fast_bounds branch
    exact evaluateFeeFast_eq roundDown nonneg small positive atNonneg high
  · exact divFallback_mulFallback_eq roundDown positive low high

end Evaluate

section Exactness

theorem feeFrac_portable_arithmetic_exact :
    (∀ (a : Int64) (b : Int32),
      (mulFallback a b).1.toInt * 2 ^ 32 + (mulFallback a b).2.toNat = a.toInt * b.toInt ∧
        (mulFallback a b).2.toNat < 2 ^ 32) ∧
    (∀ (a c : Int64) (b d : Int32), comparePair (mulFallback a b) (mulFallback c d) =
      compare (a.toInt * b.toInt) (c.toInt * d.toInt)) ∧
    (∀ x y : FeeFrac, feeRateCompare fallback x y = feeRateCompare int128 x y ∧
      lowerFeerate fallback x y = lowerFeerate int128 x y ∧
      higherFeerate fallback x y = higherFeerate int128 x y ∧
      threeWayCompare fallback x y = threeWayCompare int128 x y) ∧
    (∀ (n : Int64 × UInt32) (d : Int32) (roundDown : Bool), 0 < d.toInt →
      -2 ^ 63 ≤ roundedDiv (n.1.toInt * 2 ^ 32 + n.2.toNat) d.toInt roundDown →
      roundedDiv (n.1.toInt * 2 ^ 32 + n.2.toNat) d.toInt roundDown < 2 ^ 63 →
      (divFallback n d roundDown).toInt =
          roundedDiv (n.1.toInt * 2 ^ 32 + n.2.toNat) d.toInt roundDown ∧
        (div (n.1.toInt * 2 ^ 32 + n.2.toNat) d roundDown).toInt =
          roundedDiv (n.1.toInt * 2 ^ 32 + n.2.toNat) d.toInt roundDown) ∧
    (∀ (f : FeeFrac) (atSize : Int32) (roundDown : Bool), 0 < f.size.toInt → 0 ≤ atSize.toInt →
      -2 ^ 63 ≤ roundedDiv (f.fee.toInt * atSize.toInt) f.size.toInt roundDown →
      roundedDiv (f.fee.toInt * atSize.toInt) f.size.toInt roundDown < 2 ^ 63 →
      (evaluateFee fallback f roundDown atSize).toInt =
          roundedDiv (f.fee.toInt * atSize.toInt) f.size.toInt roundDown ∧
        (evaluateFee int128 f roundDown atSize).toInt =
          roundedDiv (f.fee.toInt * atSize.toInt) f.size.toInt roundDown ∧
        (0 ≤ f.fee → f.fee < 0x200000000 →
          evaluateFeeFast f roundDown atSize = fallback.div (fallback.mul f.fee atSize) f.size roundDown ∧
          evaluateFeeFast f roundDown atSize = int128.div (int128.mul f.fee atSize) f.size roundDown)) ∧
    (∀ n d : ℤ, 0 < d → roundedDiv n d true = ⌊(n : ℚ) / d⌋ ∧ roundedDiv n d false = ⌈(n : ℚ) / d⌉) := by
  refine ⟨fun a b => ⟨mulFallback_spec a b, (mulFallback a b).2.toNat_lt⟩, comparePair_mulFallback,
    fun x y => ⟨feeRateCompare_fallback x y, lowerFeerate_fallback x y, higherFeerate_fallback x y,
      threeWayCompare_fallback x y⟩, ?_, ?_, fun n d positive =>
      ⟨roundedDiv_true_eq_floor n positive, roundedDiv_false_eq_ceil n positive⟩⟩
  · intro n d roundDown positive low high
    exact ⟨divFallback_eq n positive roundDown low high, div_eq _ positive roundDown low high⟩
  · intro f atSize roundDown positive atNonneg low high
    have int128Value := evaluateFee_int128 roundDown positive atNonneg low high
    refine ⟨evaluateFee_fallback roundDown positive atNonneg low high, int128Value,
      fun nonneg small => ?_⟩
    -- on its `uint64_t` path `EvaluateFee` is the fast division
    have fastValue := int128Value
    rw [evaluateFee, if_pos ⟨nonneg, small⟩] at fastValue
    refine ⟨Int64.toInt_inj.mp ?_, Int64.toInt_inj.mp ?_⟩
    · rw [fastValue]
      exact (divFallback_mulFallback_eq roundDown positive low high).symm
    · rw [fastValue]
      exact (div_eq (mul f.fee atSize) positive roundDown low high).symm

/-- A numerator of `-2 ^ 32 + 7` over `5`, and ten over three at size two on the `uint64_t`
path, rounded up. -/
theorem feeFrac_portable_arithmetic_at_samples :
    ((divFallback (-1, 7) 5 true).toInt =
        roundedDiv ((-1 : Int64).toInt * 2 ^ 32 + (7 : UInt32).toNat) (5 : Int32).toInt true ∧
      (div ((-1 : Int64).toInt * 2 ^ 32 + (7 : UInt32).toNat) 5 true).toInt =
        roundedDiv ((-1 : Int64).toInt * 2 ^ 32 + (7 : UInt32).toNat) (5 : Int32).toInt true) ∧
    (evaluateFeeFast ⟨10, 3⟩ false 2 = fallback.div (fallback.mul 10 2) 3 false ∧
      evaluateFeeFast ⟨10, 3⟩ false 2 = int128.div (int128.mul 10 2) 3 false) ∧
    roundedDiv 20 3 false = ⌈((20 : ℤ) : ℚ) / ((3 : ℤ) : ℚ)⌉ :=
  ⟨feeFrac_portable_arithmetic_exact.2.2.2.1 (-1, 7) 5 true (by decide) (by decide) (by decide),
    (feeFrac_portable_arithmetic_exact.2.2.2.2.1 ⟨10, 3⟩ 2 false (by decide) (by decide) (by decide)
      (by decide)).2.2 (by decide) (by decide),
    (feeFrac_portable_arithmetic_exact.2.2.2.2.2 20 3 (by decide)).2⟩

end Exactness

end Freycoin.Cluster.FeeFrac
