import Mathlib.Data.Nat.Bitwise
import Mathlib.Tactic.Ring

/-! Carries of a binary counter. -/

namespace BinaryCarry

theorem testBit_iff_odd (c k : ℕ) : c.testBit k = true ↔ c / 2 ^ k % 2 = 1 := by
  rw [Nat.testBit_eq_decide_div_mod_eq, decide_eq_true_iff]

theorem testBit_eq_false_iff_even (c k : ℕ) : c.testBit k = false ↔ c / 2 ^ k % 2 = 0 := by
  rw [Nat.testBit_eq_decide_div_mod_eq, decide_eq_false_iff_not]
  omega

theorem div_two_pow_succ (c k : ℕ) : c / 2 ^ (k + 1) = c / 2 ^ k / 2 := by
  rw [Nat.pow_succ, Nat.div_div_eq_div_mul]

theorem mod_two_pow_eq_zero {n l : ℕ} (clear : ∀ i < l, n.testBit i = false) : n % 2 ^ l = 0 := by
  apply Nat.eq_of_testBit_eq
  intro i
  rw [Nat.testBit_mod_two_pow, Nat.zero_testBit]
  by_cases below : i < l
  · simp [below, clear i below]
  · simp [below]

theorem carrying_of_odd_mul {w l : ℕ} (odd : w % 2 = 1) :
    w * 2 ^ l % 2 ^ (l + 1) = 2 ^ (l + 1) - 2 ^ l := by
  have split : w * 2 ^ l = 2 ^ l + w / 2 * 2 ^ (l + 1) := by
    have := Nat.div_add_mod w 2
    rw [Nat.pow_succ]
    calc w * 2 ^ l = (2 * (w / 2) + w % 2) * 2 ^ l := by rw [this]
      _ = 2 ^ l + w / 2 * (2 ^ l * 2) := by rw [odd]; ring
  rw [split, Nat.add_mul_mod_self_right, Nat.mod_eq_of_lt (Nat.pow_lt_pow_right (by decide)
    (Nat.lt_succ_self l)), Nat.pow_succ]
  omega

variable {c l k : ℕ}

theorem add_eq_of_carrying (carrying : c % 2 ^ k = 2 ^ k - 2 ^ l) (lk : l ≤ k) :
    c + 2 ^ l = (c / 2 ^ k + 1) * 2 ^ k := by
  have split := Nat.div_add_mod c (2 ^ k)
  have le : 2 ^ l ≤ 2 ^ k := Nat.pow_le_pow_right (by decide) lk
  rw [carrying] at split
  rw [Nat.add_mul, Nat.one_mul, Nat.mul_comm]
  omega

theorem add_div_of_carrying (carrying : c % 2 ^ k = 2 ^ k - 2 ^ l) (lk : l ≤ k) :
    (c + 2 ^ l) / 2 ^ k = c / 2 ^ k + 1 := by
  rw [add_eq_of_carrying carrying lk, Nat.mul_div_cancel _ (Nat.two_pow_pos k)]

theorem testBit_add_of_carrying (carrying : c % 2 ^ k = 2 ^ k - 2 ^ l) (lk : l ≤ k) :
    (c + 2 ^ l).testBit k = !c.testBit k := by
  rw [Nat.testBit_eq_decide_div_mod_eq, Nat.testBit_eq_decide_div_mod_eq,
    add_div_of_carrying carrying lk]
  rcases Nat.mod_two_eq_zero_or_one (c / 2 ^ k) with even | odd
  · simp [Nat.add_mod, even]
  · simp [Nat.add_mod, odd]

theorem testBit_add_of_lt (carrying : c % 2 ^ k = 2 ^ k - 2 ^ l) (lk : l ≤ k) {j : ℕ}
    (below : j < k) : (c + 2 ^ l).testBit j = false := by
  have multiple : (c + 2 ^ l) % 2 ^ k = 0 := by
    rw [add_eq_of_carrying carrying lk, Nat.mul_mod_left]
  have bit := Nat.testBit_mod_two_pow (c + 2 ^ l) k j
  rw [multiple, Nat.zero_testBit] at bit
  simpa [below] using bit.symm

theorem carrying_succ (carrying : c % 2 ^ k = 2 ^ k - 2 ^ l) (lk : l ≤ k)
    (set : c.testBit k = true) : c % 2 ^ (k + 1) = 2 ^ (k + 1) - 2 ^ l := by
  have le : 2 ^ l ≤ 2 ^ k := Nat.pow_le_pow_right (by decide) lk
  rw [Nat.mod_pow_succ, carrying, (testBit_iff_odd c k).mp set, Nat.pow_succ]
  omega

theorem add_div_of_stop (carrying : c % 2 ^ k = 2 ^ k - 2 ^ l) (lk : l ≤ k)
    (clear : c.testBit k = false) {j : ℕ} (above : k < j) : (c + 2 ^ l) / 2 ^ j = c / 2 ^ j := by
  have even := (testBit_eq_false_iff_even c k).mp clear
  have next : (c + 2 ^ l) / 2 ^ (k + 1) = c / 2 ^ (k + 1) := by
    rw [Nat.pow_succ, ← Nat.div_div_eq_div_mul, ← Nat.div_div_eq_div_mul,
      add_div_of_carrying carrying lk]
    omega
  obtain ⟨d, rfl⟩ : ∃ d, j = k + 1 + d := ⟨j - (k + 1), by omega⟩
  rw [Nat.pow_add, ← Nat.div_div_eq_div_mul, ← Nat.div_div_eq_div_mul, next]

theorem testBit_add_of_stop (carrying : c % 2 ^ k = 2 ^ k - 2 ^ l) (lk : l ≤ k)
    (clear : c.testBit k = false) {j : ℕ} (above : k < j) :
    (c + 2 ^ l).testBit j = c.testBit j := by
  rw [Nat.testBit_eq_decide_div_mod_eq, Nat.testBit_eq_decide_div_mod_eq,
    add_div_of_stop carrying lk clear above]

end BinaryCarry
