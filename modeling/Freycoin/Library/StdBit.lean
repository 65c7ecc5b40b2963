import Mathlib.Data.Nat.Bitwise

/-! The bit scans of `<bit>` on a word of `W` bits, and clearing the lowest one bit. -/

namespace StdBit

variable {W : ℕ}

/-- `std::countr_zero`: the zero bits below the lowest one bit, the width for zero. -/
def countrZero (v : BitVec W) : ℕ := ((List.range W).find? v.getLsbD).getD W

/-- `std::bit_width`: one more than the position of the highest one bit, zero for zero. -/
def bitWidth (v : BitVec W) : ℕ := if v = 0 then 0 else v.toNat.log2 + 1

/-- The positions of the one bits, from the bottom. -/
def setBits (v : BitVec W) : List ℕ := (List.range W).filter v.getLsbD

section Scan

@[simp] theorem mem_setBits {v : BitVec W} {i : ℕ} : i ∈ setBits v ↔ i < W ∧ v.getLsbD i = true := by
  rw [setBits, List.mem_filter, List.mem_range]

theorem setBits_sorted (v : BitVec W) : (setBits v).Pairwise (· < ·) := List.pairwise_lt_range.filter _

@[simp] theorem setBits_zero : setBits (0 : BitVec W) = [] := by
  rw [setBits, List.filter_eq_nil_iff]
  intro i _
  rw [show (0 : BitVec W) = 0#W from rfl, BitVec.getLsbD_zero]
  decide

theorem exists_getLsbD_of_ne_zero {v : BitVec W} (nonzero : v ≠ 0) : ∃ i < W, v.getLsbD i = true := by
  by_contra none
  apply nonzero
  apply BitVec.eq_of_getLsbD_eq
  intro i below
  have unset := fun set => none ⟨i, below, set⟩
  simpa using unset

theorem countrZero_spec {v : BitVec W} (nonzero : v ≠ 0) :
    countrZero v < W ∧ v.getLsbD (countrZero v) = true ∧ ∀ i < countrZero v, v.getLsbD i = false := by
  cases found : (List.range W).find? v.getLsbD with
  | none =>
      obtain ⟨i, below, set⟩ := exists_getLsbD_of_ne_zero nonzero
      have := List.find?_range_eq_none.mp found i below
      rw [set] at this
      exact absurd this (by decide)
  | some k =>
      obtain ⟨set, member, before⟩ := List.find?_range_eq_some.mp found
      rw [countrZero, found, Option.getD_some]
      exact ⟨List.mem_range.mp member, set, fun i lt => by simpa using before i lt⟩

theorem bitWidth_spec {v : BitVec W} (nonzero : v ≠ 0) :
    bitWidth v - 1 < W ∧ v.getLsbD (bitWidth v - 1) = true ∧
      ∀ i, bitWidth v - 1 < i → v.getLsbD i = false := by
  have positive : v.toNat ≠ 0 := fun zero => nonzero (BitVec.eq_of_toNat_eq zero)
  rw [bitWidth, if_neg nonzero, Nat.add_sub_cancel]
  refine ⟨(Nat.log2_lt positive).mpr v.isLt, ?_, ?_⟩
  · rw [← BitVec.testBit_toNat, Nat.testBit_log2 positive]
  · intro i above
    rw [← BitVec.testBit_toNat]
    apply Nat.testBit_lt_two_pow
    exact Nat.lt_of_lt_of_le Nat.lt_log2_self (Nat.pow_le_pow_right (by decide) above)

end Scan

section ClearLowest

theorem testBit_and_sub_one {x k : ℕ} (low : ∀ i < k, x.testBit i = false) (top : x.testBit k = true)
    (j : ℕ) : (x &&& (x - 1)).testBit j = (x.testBit j && j != k) := by
  -- `x` is `2 ^ k * u` with `u` odd, and `x - 1` is `2 ^ k * (u - 1) + (2 ^ k - 1)`
  have aligned : x % 2 ^ k = 0 := by
    apply Nat.eq_of_testBit_eq
    intro i
    rw [Nat.testBit_mod_two_pow, Nat.zero_testBit]
    by_cases below : i < k
    · rw [low i below, Bool.and_false]
    · rw [decide_eq_false below, Bool.false_and]
  obtain ⟨u, hu⟩ : ∃ u, u = x / 2 ^ k := ⟨_, rfl⟩
  have split : x = 2 ^ k * u := by
    have parts := Nat.div_add_mod x (2 ^ k)
    rw [← hu] at parts
    omega
  have odd : u % 2 = 1 := by
    have bit : u.testBit 0 = true := by rw [hu, Nat.testBit_div_two_pow, Nat.zero_add, top]
    rwa [Nat.testBit_zero, decide_eq_true_eq] at bit
  have positive : 1 ≤ u := by omega
  have pred : x - 1 = 2 ^ k * (u - 1) + (2 ^ k - 1) := by
    have power : 1 ≤ 2 ^ k := Nat.one_le_two_pow
    have expand : 2 ^ k * u = 2 ^ k * (u - 1) + 2 ^ k := by
      rw [← Nat.mul_add_one, Nat.sub_add_cancel positive]
    omega
  have evenBelow : (u - 1).testBit 0 = false := by
    rw [Nat.testBit_zero, decide_eq_false_iff_not]
    omega
  have evenAbove : ∀ t, (u - 1).testBit (t + 1) = u.testBit (t + 1) := by
    intro t
    rw [Nat.testBit_add_one, Nat.testBit_add_one]
    congr 1
    omega
  rw [Nat.testBit_and, pred, Nat.testBit_two_pow_mul_add _ (Nat.sub_one_lt (Nat.two_pow_pos k).ne'),
    split, ← Nat.add_zero (2 ^ k * u), Nat.testBit_two_pow_mul_add _ (Nat.two_pow_pos k)]
  by_cases below : j < k
  · rw [if_pos below, if_pos below, Nat.zero_testBit, Bool.false_and, Bool.false_and]
  · rw [if_neg below, if_neg below]
    obtain ⟨t, rfl⟩ : ∃ t, j = k + t := ⟨j - k, by omega⟩
    cases t with
    | zero => rw [Nat.add_zero, Nat.sub_self, evenBelow, Bool.and_false, bne_self_eq_false, Bool.and_false]
    | succ t =>
        rw [Nat.add_sub_cancel_left, evenAbove, Bool.and_self,
          bne_iff_ne.mpr (by omega : k + (t + 1) ≠ k), Bool.and_true]

theorem toNat_sub_one {v : BitVec W} (nonzero : v ≠ 0) : (v - 1).toNat = v.toNat - 1 := by
  have wide : 0 < W := Nat.lt_of_le_of_lt (Nat.zero_le _) (countrZero_spec nonzero).1
  have positive : v.toNat ≠ 0 := fun zero => nonzero (BitVec.eq_of_toNat_eq zero)
  have one : (1 : BitVec W).toNat = 1 := by
    show (BitVec.ofNat W 1).toNat = 1
    rw [BitVec.toNat_ofNat, Nat.mod_eq_of_lt (Nat.one_lt_two_pow wide.ne')]
  have wrap : 2 ^ W - 1 + v.toNat = 2 ^ W + (v.toNat - 1) := by
    have := Nat.one_le_two_pow (n := W)
    omega
  rw [BitVec.toNat_sub, one, wrap, Nat.add_mod_left, Nat.mod_eq_of_lt (by have := v.isLt; omega)]

theorem getLsbD_and_sub_one {v : BitVec W} (nonzero : v ≠ 0) (j : ℕ) :
    (v &&& (v - 1)).getLsbD j = (v.getLsbD j && j != countrZero v) := by
  obtain ⟨-, top, low⟩ := countrZero_spec nonzero
  rw [← BitVec.testBit_toNat, BitVec.toNat_and, toNat_sub_one nonzero,
    testBit_and_sub_one (k := countrZero v) (fun i lt => by rw [BitVec.testBit_toNat, low i lt])
      (by rw [BitVec.testBit_toNat, top]),
    BitVec.testBit_toNat]

theorem toNat_and_sub_one_lt {v : BitVec W} (nonzero : v ≠ 0) : (v &&& (v - 1)).toNat < v.toNat := by
  have positive : v.toNat ≠ 0 := fun zero => nonzero (BitVec.eq_of_toNat_eq zero)
  have below : (v &&& (v - 1)).toNat ≤ (v - 1).toNat := by
    rw [BitVec.toNat_and]
    exact Nat.and_le_right
  have pred : (v - 1).toNat < v.toNat := by
    rw [toNat_sub_one nonzero]
    omega
  omega

theorem setBits_eq_cons {v : BitVec W} (nonzero : v ≠ 0) :
    setBits v = countrZero v :: setBits (v &&& (v - 1)) := by
  obtain ⟨inside, top, low⟩ := countrZero_spec nonzero
  set k := countrZero v
  have split : List.range W = List.range k ++ k :: List.range' (k + 1) (W - (k + 1)) := by
    have parts := (List.range'_append : List.range' 0 k 1 ++ List.range' (0 + 1 * k) (W - (k + 1) + 1) 1 =
      List.range' 0 (k + (W - (k + 1) + 1)) 1)
    rw [List.range'_succ, Nat.zero_add, Nat.one_mul, show k + (W - (k + 1) + 1) = W by omega] at parts
    rw [List.range_eq_range', List.range_eq_range', ← parts]
  have cleared : ∀ j, (v &&& (v - 1)).getLsbD j = (v.getLsbD j && j != k) :=
    getLsbD_and_sub_one nonzero
  have noneBelow : ∀ (p : ℕ → Bool), (∀ i < k, p i = false) → (List.range k).filter p = [] := by
    intro p below
    rw [List.filter_eq_nil_iff]
    intro i member
    simp [below i (List.mem_range.mp member)]
  have above : (List.range' (k + 1) (W - (k + 1))).filter (v &&& (v - 1)).getLsbD =
      (List.range' (k + 1) (W - (k + 1))).filter v.getLsbD := by
    apply List.filter_congr
    intro i member
    rw [cleared, bne_iff_ne.mpr (by rw [List.mem_range'_1] at member; omega), Bool.and_true]
  rw [setBits, setBits, split, List.filter_append, List.filter_append, noneBelow _ low,
    noneBelow _ fun i lt => by rw [cleared, low i lt, Bool.false_and], List.filter_cons_of_pos top,
    List.filter_cons_of_neg (by rw [cleared, bne_self_eq_false, Bool.and_false]; decide), above,
    List.nil_append, List.nil_append]

end ClearLowest

end StdBit
