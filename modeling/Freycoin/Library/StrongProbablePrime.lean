import Freycoin.Library.LucasSequence
import Mathlib.FieldTheory.IsAlgClosed.AlgebraicClosure
import Mathlib.NumberTheory.LegendreSymbol.Basic

/-! Every odd prime is a strong probable prime, for Miller–Rabin and for strong Lucas. -/

namespace StrongProbablePrime

open LucasSequence

theorem sub_one_mul_prod_pow_two_add_one {R : Type*} [CommRing R] (x : R) (s : ℕ) :
    (x - 1) * ∏ r ∈ Finset.range s, (x ^ 2 ^ r + 1) = x ^ 2 ^ s - 1 := by
  induction s with
  | zero => simp
  | succ s ih =>
      rw [Finset.prod_range_succ, ← mul_assoc, ih, pow_succ, pow_mul]
      ring

variable {p : ℕ} [Fact p.Prime]

theorem millerRabin_of_prime {a : ZMod p} (nonzero : a ≠ 0) {d s : ℕ}
    (split : d * 2 ^ s = p - 1) : a ^ d = 1 ∨ ∃ r < s, a ^ (d * 2 ^ r) = -1 := by
  have fermat : (a ^ d) ^ 2 ^ s - 1 = 0 := by
    rw [← pow_mul, split, ZMod.pow_card_sub_one_eq_one nonzero, sub_self]
  rw [← sub_one_mul_prod_pow_two_add_one, mul_eq_zero, Finset.prod_eq_zero_iff] at fermat
  rcases fermat with first | ⟨r, below, factor⟩
  · exact Or.inl (sub_eq_zero.mp first)
  · refine Or.inr ⟨r, Finset.mem_range.mp below, ?_⟩
    rw [pow_mul]
    exact eq_neg_of_add_eq_zero_left factor

theorem pow_div_two_of_not_isSquare {D : ZMod p} (nonsquare : ¬IsSquare D) :
    D ^ (p / 2) = -1 := by
  have nonzero : D ≠ 0 := fun zero => nonsquare (zero ▸ IsSquare.zero)
  rcases ZMod.pow_div_two_eq_neg_one_or_one p nonzero with one | minusOne
  · exact absurd ((ZMod.euler_criterion p nonzero).mpr one) nonsquare
  · exact minusOne

theorem lucasU_prime_add_one (odd : p ≠ 2) {P Q : ZMod p}
    (nonsquare : ¬IsSquare (P ^ 2 - 4 * Q)) : lucasU P Q (p + 1) = 0 := by
  let ι := algebraMap (ZMod p) (AlgebraicClosure (ZMod p))
  obtain ⟨ω, root⟩ := IsAlgClosed.exists_eq_mul_self (ι (P ^ 2 - 4 * Q))
  have twoZMod : (2 : ZMod p) ≠ 0 := by
    intro zero
    have divides : p ∣ 2 := (ZMod.natCast_eq_zero_iff 2 p).mp (by exact_mod_cast zero)
    exact odd ((Nat.prime_dvd_prime_iff_eq Fact.out Nat.prime_two).mp divides)
  have two : (2 : AlgebraicClosure (ZMod p)) ≠ 0 := by
    rw [← map_ofNat ι 2]
    exact (map_ne_zero ι).mpr twoZMod
  have ωNonzero : ω ≠ 0 := by
    rintro rfl
    rw [mul_zero, map_eq_zero] at root
    exact nonsquare (root ▸ IsSquare.zero)
  -- the Frobenius map fixes `ZMod p` and sends `ω` to `-ω`
  have oddP : Odd p := (Fact.out : p.Prime).odd_of_ne_two odd
  have ωFrob : ω ^ p = -ω := by
    have split : ω ^ p = ω ^ (2 * (p / 2) + 1) := by
      rw [Nat.two_mul_div_two_add_one_of_odd oddP]
    rw [split, pow_succ, pow_mul, sq, ← root, ← map_pow, pow_div_two_of_not_isSquare nonsquare,
      map_neg, map_one]
    ring
  have fixed : ∀ x : ZMod p, ι x ^ p = ι x := fun x => by rw [← map_pow, ZMod.pow_card]
  have twoFrob : (2 : AlgebraicClosure (ZMod p)) ^ p = 2 := by
    rw [← map_ofNat ι 2, fixed]
  have discriminant : ι P ^ 2 - 4 * ι Q = ω * ω := by
    rw [← root]
    simp [map_sub, map_mul, map_pow, map_ofNat]
  obtain ⟨α, αEq⟩ : ∃ α, α = (ι P + ω) / 2 := ⟨_, rfl⟩
  obtain ⟨β, βEq⟩ : ∃ β, β = (ι P - ω) / 2 := ⟨_, rfl⟩
  have sum : α + β = ι P := by
    rw [αEq, βEq]
    field_simp
    ring
  have product : α * β = ι Q := by
    rw [αEq, βEq]
    field_simp
    linear_combination discriminant
  have difference : α - β = ω := by
    rw [αEq, βEq]
    field_simp
    ring
  have αFrob : α ^ p = β := by
    rw [αEq, βEq, div_pow, add_pow_char, fixed, ωFrob, twoFrob]
    ring
  have βFrob : β ^ p = α := by
    rw [αEq, βEq, div_pow, sub_pow_char, fixed, ωFrob, twoFrob]
    ring
  have closed := sub_mul_lucasU sum product (p + 1)
  rw [pow_succ, pow_succ, αFrob, βFrob, mul_comm β α, sub_self, difference] at closed
  have image : ι (lucasU P Q (p + 1)) = 0 := by
    rw [map_lucasU]
    exact (mul_eq_zero.mp closed).resolve_left ωNonzero
  exact (map_eq_zero ι).mp image

theorem strongLucas_of_prime (odd : p ≠ 2) {P Q : ZMod p}
    (nonsquare : ¬IsSquare (P ^ 2 - 4 * Q)) {d s : ℕ} (split : d * 2 ^ s = p + 1) :
    lucasU P Q d = 0 ∨ ∃ r < s, lucasV P Q (d * 2 ^ r) = 0 := by
  have zero := lucasU_prime_add_one odd nonsquare
  rw [← split, lucasU_mul_two_pow, mul_eq_zero, Finset.prod_eq_zero_iff] at zero
  rcases zero with first | ⟨r, below, factor⟩
  · exact Or.inl first
  · exact Or.inr ⟨r, Finset.mem_range.mp below, factor⟩

end StrongProbablePrime
