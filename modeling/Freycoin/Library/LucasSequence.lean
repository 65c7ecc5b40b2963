import Mathlib.Algebra.BigOperators.Group.Finset.Basic
import Mathlib.Algebra.Ring.Hom.Defs
import Mathlib.Tactic.LinearCombination
import Mathlib.Tactic.Ring

/-! Lucas sequences over a commutative ring. -/

namespace LucasSequence

variable {R S : Type*} [CommRing R] [CommRing S]

/-- The Lucas sequence `U (P, Q)`. -/
def lucasU (P Q : R) : ℕ → R
  | 0 => 0
  | 1 => 1
  | k + 2 => P * lucasU P Q (k + 1) - Q * lucasU P Q k

/-- The Lucas sequence `V (P, Q)`. -/
def lucasV (P Q : R) : ℕ → R
  | 0 => (2 : ℕ)
  | 1 => P
  | k + 2 => P * lucasV P Q (k + 1) - Q * lucasV P Q k

variable (P Q : R)

@[simp] theorem lucasU_zero : lucasU P Q 0 = 0 := rfl
@[simp] theorem lucasU_one : lucasU P Q 1 = 1 := rfl
@[simp] theorem lucasV_zero : lucasV P Q 0 = 2 := rfl
@[simp] theorem lucasV_one : lucasV P Q 1 = P := rfl

theorem lucasU_add_two (k : ℕ) :
    lucasU P Q (k + 2) = P * lucasU P Q (k + 1) - Q * lucasU P Q k := rfl

theorem lucasV_add_two (k : ℕ) :
    lucasV P Q (k + 2) = P * lucasV P Q (k + 1) - Q * lucasV P Q k := rfl

theorem eq_of_recurrence (f g : ℕ → R)
    (hf : ∀ k, f (k + 2) = P * f (k + 1) - Q * f k)
    (hg : ∀ k, g (k + 2) = P * g (k + 1) - Q * g k)
    (zero : f 0 = g 0) (one : f 1 = g 1) (k : ℕ) : f k = g k := by
  -- the induction carries two consecutive values
  have pair : ∀ k, f k = g k ∧ f (k + 1) = g (k + 1) := by
    intro k
    induction k with
    | zero => exact ⟨zero, one⟩
    | succ k ih => exact ⟨ih.2, by rw [hf, hg, ih.1, ih.2]⟩
  exact (pair k).1

theorem lucasV_eq (k : ℕ) : lucasV P Q k = 2 * lucasU P Q (k + 1) - P * lucasU P Q k := by
  refine eq_of_recurrence P Q _ (fun k => 2 * lucasU P Q (k + 1) - P * lucasU P Q k)
    (lucasV_add_two P Q) (fun k => ?_) (by simp) (by simp [lucasU_add_two]; ring) k
  rw [lucasU_add_two P Q (k + 1), lucasU_add_two P Q k]
  ring

theorem two_mul_lucasU_succ (k : ℕ) :
    2 * lucasU P Q (k + 1) = P * lucasU P Q k + lucasV P Q k := by
  rw [lucasV_eq]
  ring

theorem two_mul_lucasV_succ (k : ℕ) :
    2 * lucasV P Q (k + 1) = (P ^ 2 - 4 * Q) * lucasU P Q k + P * lucasV P Q k := by
  rw [lucasV_eq P Q (k + 1), lucasV_eq P Q k, lucasU_add_two]
  ring

theorem lucasU_add (m n : ℕ) :
    lucasU P Q (m + n + 1) = lucasU P Q (m + 1) * lucasU P Q (n + 1) -
      Q * lucasU P Q m * lucasU P Q n := by
  -- both sides solve the recurrence in `n`
  refine eq_of_recurrence P Q (fun n => lucasU P Q (m + n + 1))
    (fun n => lucasU P Q (m + 1) * lucasU P Q (n + 1) - Q * lucasU P Q m * lucasU P Q n)
    (fun n => lucasU_add_two P Q (m + n + 1)) (fun n => ?_) (by simp) ?_ n
  · simp only [lucasU_add_two P Q (n + 1), lucasU_add_two P Q n]
    ring
  · show lucasU P Q (m + 2) = lucasU P Q (m + 1) * lucasU P Q (0 + 2) - Q * lucasU P Q m * 1
    rw [lucasU_add_two P Q m, lucasU_add_two P Q 0, lucasU_one, lucasU_zero]
    ring

theorem lucasU_sq_sub (k : ℕ) :
    lucasU P Q (k + 1) ^ 2 - lucasU P Q k * lucasU P Q (k + 2) = Q ^ k := by
  induction k with
  | zero => simp
  | succ k ih =>
      show lucasU P Q (k + 2) ^ 2 - lucasU P Q (k + 1) * lucasU P Q (k + 1 + 2) = Q ^ (k + 1)
      linear_combination (-lucasU P Q (k + 1)) * lucasU_add_two P Q (k + 1) + Q * ih +
        lucasU P Q (k + 2) * lucasU_add_two P Q k

theorem lucasU_two_mul (k : ℕ) : lucasU P Q (2 * k) = lucasU P Q k * lucasV P Q k := by
  cases k with
  | zero => simp
  | succ k =>
      have double : 2 * (k + 1) = k + 1 + k + 1 := by ring
      rw [double, lucasU_add, lucasV_eq, lucasU_add_two]
      ring

theorem lucasV_two_mul (k : ℕ) : lucasV P Q (2 * k) = lucasV P Q k ^ 2 - 2 * Q ^ k := by
  have odd : lucasU P Q (2 * k + 1) = lucasU P Q (k + 1) ^ 2 - Q * lucasU P Q k ^ 2 := by
    rw [two_mul, lucasU_add]
    ring
  have cassini := lucasU_sq_sub P Q k
  rw [lucasV_eq, odd, lucasU_two_mul, lucasV_eq, lucasU_add_two] at *
  linear_combination (-2 : R) * cassini

theorem lucasU_mul_two_pow (d s : ℕ) :
    lucasU P Q (d * 2 ^ s) = lucasU P Q d * ∏ r ∈ Finset.range s, lucasV P Q (d * 2 ^ r) := by
  induction s with
  | zero => simp
  | succ s ih =>
      rw [Finset.prod_range_succ, pow_succ, ← mul_assoc, mul_comm _ 2, lucasU_two_mul, ih]
      ring

theorem map_lucasU (φ : R →+* S) (k : ℕ) : φ (lucasU P Q k) = lucasU (φ P) (φ Q) k :=
  eq_of_recurrence (φ P) (φ Q) (fun k => φ (lucasU P Q k)) _
    (fun k => by simp [lucasU_add_two]) (lucasU_add_two _ _) (by simp) (by simp) k

theorem map_lucasV (φ : R →+* S) (k : ℕ) : φ (lucasV P Q k) = lucasV (φ P) (φ Q) k :=
  eq_of_recurrence (φ P) (φ Q) (fun k => φ (lucasV P Q k)) _
    (fun k => by simp [lucasV_add_two]) (lucasV_add_two _ _) (by simp [map_ofNat]) (by simp) k

section Roots

variable {P Q} {α β : R}

theorem sub_mul_lucasU (sum : α + β = P) (product : α * β = Q) (k : ℕ) :
    (α - β) * lucasU P Q k = α ^ k - β ^ k := by
  refine eq_of_recurrence P Q (fun k => (α - β) * lucasU P Q k) (fun k => α ^ k - β ^ k)
    (fun k => ?_) (fun k => ?_) (by simp) (by simp) k
  · rw [lucasU_add_two]
    ring
  · rw [← sum, ← product]
    ring

theorem lucasV_eq_add_pow (sum : α + β = P) (product : α * β = Q) (k : ℕ) :
    lucasV P Q k = α ^ k + β ^ k := by
  refine eq_of_recurrence P Q _ (fun k => α ^ k + β ^ k) (lucasV_add_two P Q) (fun k => ?_)
    (by simp; ring) (by simp [sum]) k
  rw [← sum, ← product]
  ring

end Roots

end LucasSequence
