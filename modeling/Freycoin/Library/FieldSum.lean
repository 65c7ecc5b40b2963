import Mathlib.Algebra.BigOperators.Group.Finset.Basic
import Mathlib.Data.Nat.Bitwise
import Mathlib.Tactic.Ring

/-! Words as sums of fixed-width fields. -/

namespace FieldSum

/-- The word whose `m` fields of `w` bits are `f 0, …, f (m - 1)`, lowest first. -/
def pack (w : ℕ) : ℕ → (ℕ → ℕ) → ℕ
  | 0, _ => 0
  | m + 1, f => f 0 + 2 ^ w * pack w m (fun j => f (j + 1))

section Pack

variable {w m : ℕ} {f g : ℕ → ℕ}

@[simp] theorem pack_zero (w : ℕ) (f : ℕ → ℕ) : pack w 0 f = 0 := rfl

theorem pack_succ (w m : ℕ) (f : ℕ → ℕ) :
    pack w (m + 1) f = f 0 + 2 ^ w * pack w m (fun j => f (j + 1)) := rfl

theorem pack_congr (same : ∀ j < m, f j = g j) : pack w m f = pack w m g := by
  induction m generalizing f g with
  | zero => rfl
  | succ m ih =>
      rw [pack_succ, pack_succ, same 0 (by omega), ih fun j below => same (j + 1) (by omega)]

theorem pack_lt (fits : ∀ j < m, f j < 2 ^ w) : pack w m f < 2 ^ (w * m) := by
  induction m generalizing f with
  | zero => simp
  | succ m ih =>
      have low := fits 0 (by omega)
      have high := ih (f := fun j => f (j + 1)) fun j below => fits (j + 1) (by omega)
      have room : 2 ^ w * (pack w m (fun j => f (j + 1)) + 1) ≤ 2 ^ w * 2 ^ (w * m) :=
        Nat.mul_le_mul_left _ high
      rw [pack_succ, Nat.mul_succ, Nat.pow_add, Nat.mul_comm (2 ^ (w * m))]
      rw [Nat.mul_add, Nat.mul_one] at room
      omega

theorem pack_add (w m : ℕ) (f g : ℕ → ℕ) : pack w m f + pack w m g = pack w m (fun j => f j + g j) := by
  induction m generalizing f g with
  | zero => rfl
  | succ m ih =>
      rw [pack_succ, pack_succ, pack_succ, ← ih]
      ring

theorem pack_le (below : ∀ j < m, g j ≤ f j) : pack w m g ≤ pack w m f := by
  induction m generalizing f g with
  | zero => exact Nat.le_refl 0
  | succ m ih =>
      have low := below 0 (by omega)
      have high := ih (f := fun j => f (j + 1)) (g := fun j => g (j + 1))
        fun j lt => below (j + 1) (by omega)
      rw [pack_succ, pack_succ]
      exact Nat.add_le_add low (Nat.mul_le_mul_left _ high)

theorem pack_sub (below : ∀ j < m, g j ≤ f j) :
    pack w m f - pack w m g = pack w m (fun j => f j - g j) := by
  have sum : pack w m g + pack w m (fun j => f j - g j) = pack w m f := by
    rw [pack_add]
    exact pack_congr fun j lt => by have := below j lt; omega
  omega

theorem pack_div (low : f 0 < 2 ^ w) : pack w (m + 1) f / 2 ^ w = pack w m (fun j => f (j + 1)) := by
  rw [pack_succ, Nat.add_mul_div_left _ _ (Nat.two_pow_pos w), Nat.div_eq_of_lt low, Nat.zero_add]

theorem pack_succ_top (w m : ℕ) (f : ℕ → ℕ) : pack w (m + 1) f = pack w m f + 2 ^ (w * m) * f m := by
  induction m generalizing f with
  | zero => simp [pack]
  | succ m ih =>
      rw [pack_succ, ih, pack_succ, Nat.mul_succ, Nat.pow_add]
      ring

theorem pack_div_top (fits : ∀ j < m, f j < 2 ^ w) : pack w (m + 1) f / 2 ^ (w * m) = f m := by
  rw [pack_succ_top, Nat.add_mul_div_left _ _ (Nat.two_pow_pos _), Nat.div_eq_of_lt (pack_lt fits),
    Nat.zero_add]

theorem testBit_field {a b : ℕ} (w j : ℕ) (low : a < 2 ^ w) :
    (a + 2 ^ w * b).testBit j = if j < w then a.testBit j else b.testBit (j - w) := by
  rw [Nat.add_comm, Nat.testBit_two_pow_mul_add _ low]

theorem pack_and (fitsF : ∀ j < m, f j < 2 ^ w) (fitsG : ∀ j < m, g j < 2 ^ w) :
    pack w m f &&& pack w m g = pack w m (fun j => f j &&& g j) := by
  induction m generalizing f g with
  | zero => simp
  | succ m ih =>
      have lowF := fitsF 0 (by omega)
      have lowG := fitsG 0 (by omega)
      rw [pack_succ, pack_succ, pack_succ,
        ← ih (fun j lt => fitsF (j + 1) (by omega)) (fun j lt => fitsG (j + 1) (by omega))]
      apply Nat.eq_of_testBit_eq
      intro j
      rw [Nat.testBit_and, testBit_field w j lowF, testBit_field w j lowG,
        testBit_field w j (Nat.and_lt_two_pow _ lowG), Nat.testBit_and, Nat.testBit_and]
      split <;> rfl

theorem pack_regroup (w m : ℕ) (f : ℕ → ℕ) :
    pack w (2 * m) f = pack (2 * w) m (fun j => f (2 * j) + 2 ^ w * f (2 * j + 1)) := by
  induction m generalizing f with
  | zero => rfl
  | succ m ih =>
      have pairs : 2 * (m + 1) = 2 * m + 1 + 1 := by omega
      have next : ∀ j, 2 * j + 1 + 1 = 2 * (j + 1) := fun j => by omega
      rw [pairs, pack_succ, pack_succ, ih, pack_succ]
      simp only [next, Nat.mul_zero, Nat.zero_add, Nat.two_mul w, Nat.pow_add]
      ring

theorem pack_testBit {x : ℕ} (fits : x < 2 ^ m) : x = pack 1 m (fun i => (x.testBit i).toNat) := by
  induction m generalizing x with
  | zero => simp at fits; simp [fits]
  | succ m ih =>
      have half : x / 2 < 2 ^ m := by rw [Nat.pow_succ] at fits; omega
      have shifted : (fun j => (x.testBit (j + 1)).toNat) = fun j => ((x / 2).testBit j).toNat := by
        funext j
        rw [Nat.testBit_add_one]
      rw [pack_succ, shifted, ← ih half, Nat.toNat_testBit, Nat.pow_zero, Nat.div_one, Nat.pow_one]
      omega

end Pack

section Total

theorem sum_pairs (m : ℕ) (f : ℕ → ℕ) :
    ∑ j ∈ Finset.range m, (f (2 * j) + f (2 * j + 1)) = ∑ i ∈ Finset.range (2 * m), f i := by
  induction m with
  | zero => rfl
  | succ m ih =>
      rw [Finset.sum_range_succ, ih, show 2 * (m + 1) = 2 * m + 1 + 1 by omega, Finset.sum_range_succ,
        Finset.sum_range_succ, Nat.add_assoc]

end Total

/-! ### Counting bits in parallel -/

section Count

/-- The one bits among bits `2 j` and `2 j + 1` of `x`. -/
def pairCount (x j : ℕ) : ℕ := (x.testBit (2 * j)).toNat + (x.testBit (2 * j + 1)).toNat

/-- The one bits of nibble `i` of `x`. -/
def nibbleCount (x i : ℕ) : ℕ := pairCount x (2 * i) + pairCount x (2 * i + 1)

/-- The one bits of byte `k` of `x`. -/
def byteCount (x k : ℕ) : ℕ := nibbleCount x (2 * k) + nibbleCount x (2 * k + 1)

theorem pairCount_le (x j : ℕ) : pairCount x j ≤ 2 := by
  have := Bool.toNat_le (x.testBit (2 * j))
  have := Bool.toNat_le (x.testBit (2 * j + 1))
  rw [pairCount]
  omega

theorem nibbleCount_le (x i : ℕ) : nibbleCount x i ≤ 4 := by
  have := pairCount_le x (2 * i)
  have := pairCount_le x (2 * i + 1)
  rw [nibbleCount]
  omega

theorem byteCount_le (x k : ℕ) : byteCount x k ≤ 8 := by
  have := nibbleCount_le x (2 * k)
  have := nibbleCount_le x (2 * k + 1)
  rw [byteCount]
  omega

theorem pairCount_top {x n : ℕ} (fits : x < 2 ^ (8 * n)) : pairCount x (4 * n) = 0 := by
  rw [pairCount, Nat.testBit_lt_two_pow (fits.trans_le (Nat.pow_le_pow_right (by decide) (by omega))),
    Nat.testBit_lt_two_pow (fits.trans_le (Nat.pow_le_pow_right (by decide) (by omega)))]
  rfl

theorem nibbleCount_top {x n : ℕ} (fits : x < 2 ^ (8 * n)) : nibbleCount x (2 * n) = 0 := by
  have low := pairCount_top fits
  have high : pairCount x (2 * (2 * n) + 1) = 0 := by
    rw [pairCount, Nat.testBit_lt_two_pow (fits.trans_le (Nat.pow_le_pow_right (by decide) (by omega))),
      Nat.testBit_lt_two_pow (fits.trans_le (Nat.pow_le_pow_right (by decide) (by omega)))]
    rfl
  rw [nibbleCount, show 2 * (2 * n) = 4 * n by ring, low, ← show 2 * (2 * n) = 4 * n by ring, high]

theorem sum_byteCount (x n : ℕ) :
    ∑ k ∈ Finset.range n, byteCount x k = ∑ i ∈ Finset.range (8 * n), (x.testBit i).toNat := by
  rw [show 8 * n = 2 * (2 * (2 * n)) by ring, ← sum_pairs, ← sum_pairs, ← sum_pairs]
  rfl

theorem and_low {u v : ℕ} (w : ℕ) (low : u < 2 ^ w) : (u + 2 ^ w * v) &&& (2 ^ w - 1) = u := by
  rw [Nat.and_two_pow_sub_one_eq_mod, Nat.add_mul_mod_self_left, Nat.mod_eq_of_lt low]

theorem pack_shift {w m : ℕ} {f : ℕ → ℕ} (low : f 0 < 2 ^ w) (top : f m = 0) :
    pack w m f >>> w = pack w m (fun j => f (j + 1)) := by
  cases m with
  | zero => simp
  | succ m =>
      rw [Nat.shiftRight_eq_div_pow, pack_div low, pack_succ_top w m (fun j => f (j + 1)), top,
        Nat.mul_zero, Nat.add_zero]

theorem sub_pairs {x m : ℕ} (fits : x < 2 ^ (2 * m)) :
    x - (x >>> 1 &&& pack 2 m fun _ => 1) =
      pack 2 m fun j => (x.testBit (2 * j)).toNat + (x.testBit (2 * j + 1)).toNat := by
  set b : ℕ → ℕ := fun i => (x.testBit i).toNat with hb
  have bit : ∀ i, b i < 2 := fun i => Nat.lt_succ_of_le (Bool.toNat_le _)
  have above : b (2 * m) = 0 := by
    show (x.testBit (2 * m)).toNat = 0
    rw [Nat.testBit_lt_two_pow fits, Bool.toNat_false]
  have fields : x = pack 2 m fun j => b (2 * j) + 2 ^ 1 * b (2 * j + 1) := by
    have regroup := pack_regroup 1 m b
    rw [Nat.mul_one] at regroup
    rw [← regroup]
    exact pack_testBit fits
  have shifted : x >>> 1 = pack 2 m fun j => b (2 * j + 1) + 2 ^ 1 * b (2 * j + 1 + 1) := by
    have regroup := pack_regroup 1 m fun i => b (i + 1)
    rw [Nat.mul_one] at regroup
    rw [← regroup, pack_testBit fits, pack_shift (bit 0) above]
  have odd : (x >>> 1 &&& pack 2 m fun _ => 1) = pack 2 m fun j => b (2 * j + 1) := by
    rw [shifted, pack_and (fun j _ => by have := bit (2 * j + 1); have := bit (2 * j + 1 + 1); omega)
      (fun _ _ => by decide)]
    exact pack_congr fun j _ => and_low 1 (bit (2 * j + 1))
  rw [odd]
  conv_lhs => rw [fields]
  rw [pack_sub fun j _ => by omega]
  exact pack_congr fun j _ => by
    show b (2 * j) + 2 ^ 1 * b (2 * j + 1) - b (2 * j + 1) = b (2 * j) + b (2 * j + 1)
    omega

theorem add_nibbles {m : ℕ} {c : ℕ → ℕ} (small : ∀ j, c j ≤ 2) (top : c (2 * m) = 0) :
    (pack 2 (2 * m) c &&& pack 4 m fun _ => 3) + (pack 2 (2 * m) c >>> 2 &&& pack 4 m fun _ => 3) =
      pack 4 m fun i => c (2 * i) + c (2 * i + 1) := by
  have regroup := pack_regroup 2 m c
  have regroupNext := pack_regroup 2 m fun j => c (j + 1)
  rw [show 2 * 2 = 4 by rfl] at regroup regroupNext
  have mask : ∀ i < m, (3 : ℕ) < 2 ^ 4 := fun _ _ => by decide
  have fieldsFit : ∀ (f : ℕ → ℕ), (∀ j, f j ≤ 2) → ∀ i < m, f (2 * i) + 2 ^ 2 * f (2 * i + 1) < 2 ^ 4 :=
    fun f bound i _ => by have := bound (2 * i); have := bound (2 * i + 1); omega
  rw [pack_shift (by have := small 0; omega) top, regroup, regroupNext,
    pack_and (fieldsFit c small) mask, pack_and (fieldsFit _ fun j => small (j + 1)) mask, pack_add]
  exact pack_congr fun i _ => by
    rw [show (3 : ℕ) = 2 ^ 2 - 1 by rfl, and_low 2 (by have := small (2 * i); omega),
      and_low 2 (by have := small (2 * i + 1); omega)]

theorem add_bytes {m : ℕ} {d : ℕ → ℕ} (small : ∀ i, d i ≤ 4) (top : d (2 * m) = 0) :
    pack 4 (2 * m) d + pack 4 (2 * m) d >>> 4 < 2 ^ (8 * m) ∧
      (pack 4 (2 * m) d + pack 4 (2 * m) d >>> 4 &&& pack 8 m fun _ => 15) =
        pack 8 m fun k => d (2 * k) + d (2 * k + 1) := by
  have sum : pack 4 (2 * m) d + pack 4 (2 * m) d >>> 4 = pack 4 (2 * m) fun i => d i + d (i + 1) := by
    rw [pack_shift (by have := small 0; omega) top, pack_add]
  have regroup := pack_regroup 4 m fun i => d i + d (i + 1)
  rw [show 2 * 4 = 8 by rfl] at regroup
  refine ⟨?_, ?_⟩
  · rw [sum, show 8 * m = 4 * (2 * m) by ring]
    exact pack_lt fun i _ => by have := small i; have := small (i + 1); omega
  · rw [sum, regroup, pack_and (fun k _ => by
        have := small (2 * k); have := small (2 * k + 1); have := small (2 * k + 1 + 1); omega)
      (fun _ _ => by decide)]
    exact pack_congr fun k _ => by
      rw [show (15 : ℕ) = 2 ^ 4 - 1 by rfl,
        and_low 4 (by have := small (2 * k); have := small (2 * k + 1); omega)]

end Count

end FieldSum
