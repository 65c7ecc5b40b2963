import Freycoin.Pow.Primality
import Freycoin.Library.StrongProbablePrime
import Mathlib.Tactic.NormNum.LegendreSymbol
import Mathlib.Data.Nat.Size
import Mathlib.Tactic.NormNum.Prime

/-! What the consensus primality test computes, and that it accepts every prime. -/

namespace Freycoin.Pow

open LucasSequence StrongProbablePrime

section Residues

variable {n : ℕ}

theorem intCast_eq_zero_iff_of_range {x : ℤ} (range : 0 ≤ x ∧ x < n) :
    (x : ZMod n) = 0 ↔ x = 0 := by
  rw [ZMod.intCast_zmod_eq_zero_iff_dvd]
  constructor
  · exact fun divides => Int.eq_zero_of_dvd_of_nonneg_of_lt range.1 range.2 divides
  · rintro rfl
    exact dvd_zero _

theorem emod_range (x : ℤ) (positive : 0 < n) : 0 ≤ x % n ∧ x % n < n :=
  ⟨Int.emod_nonneg x (by omega), Int.emod_lt_of_pos x (by omega)⟩

theorem natCast_eq_one_iff (two : 2 ≤ n) {x : ℕ} (below : x < n) :
    (x : ZMod n) = 1 ↔ x = 1 := by
  rw [← Nat.cast_one, ZMod.natCast_eq_natCast_iff', Nat.mod_eq_of_lt below,
    Nat.mod_eq_of_lt (by omega : 1 < n)]

theorem natCast_eq_neg_one_iff (two : 2 ≤ n) {x : ℕ} (below : x < n) :
    (x : ZMod n) = -1 ↔ x = n - 1 := by
  rw [eq_neg_iff_add_eq_zero, ← Nat.cast_one, ← Nat.cast_add, ZMod.natCast_eq_zero_iff]
  constructor
  · intro divides
    have := Nat.le_of_dvd (by omega) divides
    omega
  · intro last
    rw [last, Nat.sub_add_cancel (by omega)]

theorem one_ne_neg_one (three : 3 ≤ n) : (1 : ZMod n) ≠ -1 := by
  intro same
  have two : ((2 : ℕ) : ZMod n) = 0 := by
    rw [Nat.cast_ofNat]
    linear_combination same
  have := Nat.le_of_dvd (by omega) ((ZMod.natCast_eq_zero_iff 2 n).mp two)
  omega

theorem eq_of_two_mul_eq (odd : n % 2 = 1) {a b : ZMod n} (double : 2 * a = 2 * b) : a = b := by
  have unit : IsUnit (2 : ZMod n) := by
    rw [← Nat.cast_ofNat, ZMod.isUnit_iff_coprime, Nat.coprime_two_left]
    exact Nat.odd_iff.mpr odd
  exact unit.mul_left_cancel double

theorem halveOdd_cast (odd : n % 2 = 1) {tmp : ℤ} {target : ZMod n}
    (twice : (tmp : ZMod n) = 2 * target) : (halveOdd n tmp : ZMod n) = target := by
  apply eq_of_two_mul_eq odd
  have exact := congrArg (fun x : ℤ => (x : ZMod n)) (two_mul_halveOdd odd tmp)
  simp only [Int.cast_mul, Int.cast_ofNat] at exact
  rw [exact, ← twice]
  split_ifs
  · simp
  · rfl

theorem eq_emod_of_intCast_eq {x y : ℤ} (range : 0 ≤ x ∧ x < n) (same : (x : ZMod n) = y) :
    x = y % n := by
  rw [ZMod.intCast_eq_intCast_iff', Int.emod_eq_of_lt range.1 range.2] at same
  exact same

end Residues

/-! ### Miller–Rabin -/

theorem sq_pow_two_pow {R : Type*} [Monoid R] (x : R) (j : ℕ) :
    (x ^ 2) ^ 2 ^ j = x ^ 2 ^ (j + 1) := by
  rw [← pow_mul, pow_succ', mul_comm]

theorem millerRabinSquares_iff {n : ℕ} (three : 3 ≤ n) (r : ℕ) {x : ℕ} (below : x < n) :
    millerRabinSquares n (n - 1) r x = true ↔ ∃ j < r, (x : ZMod n) ^ 2 ^ (j + 1) = -1 := by
  induction r generalizing x with
  | zero => simp [millerRabinSquares]
  | succ r ih =>
      have square : ((x ^ 2 % n : ℕ) : ZMod n) = (x : ZMod n) ^ 2 := by simp
      have squareBelow : x ^ 2 % n < n := Nat.mod_lt _ (by omega)
      rw [millerRabinSquares]
      by_cases minusOne : x ^ 2 % n = n - 1
      · rw [if_pos minusOne]
        refine ⟨fun _ => ⟨0, by omega, ?_⟩, fun _ => rfl⟩
        rw [zero_add, pow_one, ← square, natCast_eq_neg_one_iff (by omega) squareBelow]
        exact minusOne
      · by_cases one : x ^ 2 % n = 1
        · -- after a square equal to one, every later square is one
          have oneClass : (x : ZMod n) ^ 2 = 1 := by rw [← square, one, Nat.cast_one]
          rw [if_neg minusOne, if_pos one]
          simp only [Bool.false_eq_true, false_iff, not_exists, not_and]
          intro j _ minus
          rw [← sq_pow_two_pow, oneClass, one_pow] at minus
          exact one_ne_neg_one three minus
        · rw [if_neg minusOne, if_neg one, ih squareBelow, square]
          constructor
          · rintro ⟨j, inRange, value⟩
            exact ⟨j + 1, by omega, by rwa [sq_pow_two_pow] at value⟩
          · rintro ⟨j, inRange, value⟩
            cases j with
            | zero =>
                rw [zero_add, pow_one, ← square,
                  natCast_eq_neg_one_iff (by omega) squareBelow] at value
                exact absurd value minusOne
            | succ j => exact ⟨j, by omega, by rwa [sq_pow_two_pow]⟩

theorem consensusMillerRabin_iff {n : ℕ} (three : 3 ≤ n) (odd : n % 2 = 1) (base : ℕ)
    {d s : ℕ} (split : removeTwos (n - 1) (n - 1) 0 = (d, s)) :
    consensusMillerRabin n base = true ↔
      (base : ZMod n) ^ d = 1 ∨ ∃ r < s, (base : ZMod n) ^ (d * 2 ^ r) = -1 := by
  obtain ⟨product, oddD⟩ := removeTwos_split (by omega : 0 < n - 1)
  rw [split] at product oddD
  -- `n - 1` is even, so the split has at least one factor two
  have twos : 0 < s := by
    rcases Nat.eq_zero_or_pos s with zero | positive
    · rw [zero, pow_zero, mul_one] at product
      omega
    · exact positive
  have first : ((base ^ d % n : ℕ) : ZMod n) = (base : ZMod n) ^ d := by simp
  have firstBelow : base ^ d % n < n := Nat.mod_lt _ (by omega)
  unfold consensusMillerRabin
  simp only [split]
  by_cases early : base ^ d % n = 1 ∨ base ^ d % n = n - 1
  · rw [if_pos early]
    refine ⟨fun _ => ?_, fun _ => rfl⟩
    rcases early with one | minusOne
    · left
      rw [← first, one, Nat.cast_one]
    · right
      refine ⟨0, twos, ?_⟩
      rw [pow_zero, mul_one, ← first, natCast_eq_neg_one_iff (by omega) firstBelow]
      exact minusOne
  · rw [if_neg early, millerRabinSquares_iff three _ firstBelow, first]
    constructor
    · rintro ⟨j, inRange, value⟩
      exact Or.inr ⟨j + 1, by omega, by rwa [pow_mul]⟩
    · rintro (one | ⟨r, inRange, value⟩)
      · rw [← first, natCast_eq_one_iff (by omega) firstBelow] at one
        exact absurd (Or.inl one) early
      · cases r with
        | zero =>
            rw [pow_zero, mul_one, ← first, natCast_eq_neg_one_iff (by omega) firstBelow] at value
            exact absurd (Or.inr value) early
        | succ j => exact ⟨j, by omega, by rwa [← pow_mul]⟩

theorem consensusMillerRabin_of_prime {n : ℕ} (prime : n.Prime) (odd : n ≠ 2) {base : ℕ}
    (coprime : ¬n ∣ base) : consensusMillerRabin n base = true := by
  have := Fact.mk prime
  have oddN : n % 2 = 1 := prime.eq_two_or_odd.resolve_left odd
  have three : 3 ≤ n := by
    have := prime.two_le
    omega
  obtain ⟨product, -⟩ := removeTwos_split (by omega : 0 < n - 1)
  rw [consensusMillerRabin_iff three oddN base rfl]
  exact millerRabin_of_prime (fun zero => coprime ((ZMod.natCast_eq_zero_iff base n).mp zero))
    product

/-! ### The Lucas ladder -/

/-- The ladder state holds `U k`, `V k` and `Q ^ k` modulo `n`, the first two reduced. -/
structure LadderAt (n : ℕ) (Q : ZMod n) (k : ℕ) (state : LucasState) : Prop where
  u : (state.uK : ZMod n) = lucasU 1 Q k
  v : (state.vK : ZMod n) = lucasV 1 Q k
  q : (state.qK : ZMod n) = Q ^ k
  uRange : 0 ≤ state.uK ∧ state.uK < n
  vRange : 0 ≤ state.vK ∧ state.vK < n

section Ladder

variable {n : ℕ} (odd : n % 2 = 1) {dParam qParam : ℤ}

include odd in
theorem LadderAt.step (discriminant : dParam = 1 - 4 * qParam) {d k : ℕ} {state : LucasState}
    (at_ : LadderAt n qParam k state) (i : ℕ) :
    LadderAt n qParam (2 * k + if d.testBit i then 1 else 0)
      (lucasLadderStep n dParam 1 qParam d state i) := by
  have positive : 0 < n := by omega
  -- the doubled registers
  have u2 : (state.uK : ZMod n) * state.vK = lucasU 1 (qParam : ZMod n) (2 * k) := by
    rw [at_.u, at_.v, lucasU_two_mul]
  have v2 : (state.vK : ZMod n) * state.vK - state.qK * 2 = lucasV 1 (qParam : ZMod n) (2 * k) := by
    rw [at_.v, at_.q, lucasV_two_mul]
    ring
  have q2 : (state.qK : ZMod n) * state.qK = (qParam : ZMod n) ^ (2 * k) := by
    rw [at_.q, two_mul, pow_add]
  unfold lucasLadderStep
  dsimp only
  by_cases bit : d.testBit i
  · rw [if_pos bit, if_pos bit]
    refine ⟨?_, ?_, ?_, emod_range _ positive, emod_range _ positive⟩
    · -- U (2k + 1) = (U (2k) + V (2k)) / 2
      rw [ZMod.intCast_mod]
      apply halveOdd_cast odd
      push_cast
      rw [u2, v2, two_mul_lucasU_succ]
      ring
    · -- V (2k + 1) = (D U (2k) + V (2k)) / 2
      rw [ZMod.intCast_mod]
      apply halveOdd_cast odd
      push_cast
      rw [u2, v2, two_mul_lucasV_succ, discriminant]
      push_cast
      ring
    · push_cast
      rw [q2, pow_succ]
  · rw [if_neg bit, if_neg bit, add_zero]
    refine ⟨?_, ?_, ?_, emod_range _ positive, emod_range _ positive⟩
    · push_cast
      exact u2
    · push_cast
      exact v2
    · push_cast
      exact q2

theorem div_two_pow_eq (d i : ℕ) :
    d / 2 ^ i = 2 * (d / 2 ^ (i + 1)) + if d.testBit i then 1 else 0 := by
  have shift : d / 2 ^ (i + 1) = d / 2 ^ i / 2 := by
    rw [pow_succ, Nat.div_div_eq_div_mul]
  rw [shift, Nat.testBit_eq_decide_div_mod_eq]
  have := Nat.div_add_mod (d / 2 ^ i) 2
  split_ifs with bit
  · rw [decide_eq_true_eq] at bit
    omega
  · rw [decide_eq_true_eq] at bit
    omega

include odd in
theorem LadderAt.ladder (discriminant : dParam = 1 - 4 * qParam) (d : ℕ) :
    ∀ (i : ℕ) (state : LucasState), LadderAt n qParam (d / 2 ^ i) state →
      LadderAt n qParam d (lucasLadder n dParam 1 qParam d i state)
  | 0, state, at_ => by
      rw [lucasLadder]
      simpa using at_
  | i + 1, state, at_ => by
      rw [lucasLadder]
      apply LadderAt.ladder discriminant d i
      rw [div_two_pow_eq d i]
      exact at_.step odd discriminant i

theorem div_two_pow_size_sub_one {d : ℕ} (positive : 0 < d) : d / 2 ^ (Nat.size d - 1) = 1 := by
  have bits : 0 < Nat.size d := Nat.size_pos.mpr positive
  apply Nat.div_eq_of_lt_le
  · rw [one_mul]
    exact Nat.lt_size.mp (by omega)
  · have top := Nat.lt_size_self d
    rw [show Nat.size d = Nat.size d - 1 + 1 by omega, pow_succ] at top
    omega

theorem lucasSquares_step {Q : ZMod n} {k : ℕ} {vK qK : ℤ} (value : (vK : ZMod n) = lucasV 1 Q k)
    (power : (qK : ZMod n) = Q ^ k) :
    (((vK * vK - qK * 2) % n : ℤ) : ZMod n) = lucasV 1 Q (2 * k) ∧
      ((qK * qK % n : ℤ) : ZMod n) = Q ^ (2 * k) := by
  constructor
  · rw [ZMod.intCast_mod]
    push_cast
    rw [value, power, lucasV_two_mul]
    ring
  · rw [ZMod.intCast_mod, Int.cast_mul, power, two_mul, pow_add]

include odd in
theorem lucasSquares_iff (Q : ZMod n) :
    ∀ (r k : ℕ) (vK qK : ℤ), (vK : ZMod n) = lucasV 1 Q k → (qK : ZMod n) = Q ^ k →
      (lucasSquares n r vK qK = true ↔ ∃ j < r, lucasV 1 Q (k * 2 ^ (j + 1)) = 0)
  | 0, _, _, _, _, _ => by simp [lucasSquares]
  | r + 1, k, vK, qK, value, power => by
      have positive : 0 < n := by omega
      obtain ⟨doubled, squared⟩ := lucasSquares_step value power
      rw [lucasSquares]
      by_cases zero : (vK * vK - qK * 2) % n = 0
      · rw [if_pos zero]
        refine ⟨fun _ => ⟨0, by omega, ?_⟩, fun _ => rfl⟩
        rw [zero_add, pow_one, mul_comm, ← doubled, zero, Int.cast_zero]
      · rw [if_neg zero, lucasSquares_iff Q r (2 * k) _ _ doubled squared]
        have nonzero : lucasV 1 Q (2 * k) ≠ 0 := by
          rw [← doubled]
          exact fun cast => zero ((intCast_eq_zero_iff_of_range (emod_range _ positive)).mp cast)
        constructor
        · rintro ⟨j, inRange, vanishes⟩
          refine ⟨j + 1, by omega, ?_⟩
          rwa [show k * 2 ^ (j + 1 + 1) = 2 * k * 2 ^ (j + 1) by ring]
        · rintro ⟨j, inRange, vanishes⟩
          cases j with
          | zero => exact absurd (by rwa [zero_add, pow_one, mul_comm] at vanishes) nonzero
          | succ j =>
              refine ⟨j, by omega, ?_⟩
              rwa [show 2 * k * 2 ^ (j + 1) = k * 2 ^ (j + 1 + 1) by ring]

end Ladder

theorem selfridge_discriminant {dParam : ℤ} (mod : dParam % 4 = 1) :
    dParam = 1 - 4 * (1 - dParam).tdiv 4 := by
  rw [Int.mul_tdiv_cancel' (by omega)]
  ring

theorem mpzPerfectSquareP_of_prime {n : ℕ} (prime : n.Prime) : mpzPerfectSquareP n = false := by
  unfold mpzPerfectSquareP
  rw [decide_eq_false_iff_not]
  intro square
  rw [← square] at prime
  obtain ⟨-, one⟩ | ⟨-, one⟩ := Nat.prime_mul_iff.mp prime <;>
    rw [one, one_mul] at prime <;> exact Nat.not_prime_one prime

theorem selfridgeLadder_at {n : ℕ} (three : 3 ≤ n) (odd : n % 2 = 1) (found : consensusFindSelfridgeD n ≠ 0)
    {d s : ℕ} (split : removeTwos (n + 1) (n + 1) 0 = (d, s)) :
    LadderAt n ((1 - consensusFindSelfridgeD n).tdiv 4) d
      (lucasLadder n (consensusFindSelfridgeD n) 1 ((1 - consensusFindSelfridgeD n).tdiv 4) d
        (Nat.size d - 1) ⟨1, 1, (1 - consensusFindSelfridgeD n).tdiv 4⟩) := by
  obtain ⟨-, oddD⟩ := removeTwos_split (by omega : 0 < n + 1)
  rw [split] at oddD
  dsimp only at oddD
  have discriminant := selfridge_discriminant (consensusFindSelfridgeD_spec found).2
  apply LadderAt.ladder odd discriminant d
  rw [div_two_pow_size_sub_one (by omega)]
  have one : (1 : ℤ) < n := by
    have : 1 < n := by omega
    exact_mod_cast this
  exact ⟨by simp, by simp, by simp, ⟨zero_le_one, one⟩, ⟨zero_le_one, one⟩⟩

theorem lucasLadderStep_qK_range {n : ℕ} (positive : 0 < n) (dParam pParam qParam : ℤ) (d : ℕ)
    (state : LucasState) (i : ℕ) :
    0 ≤ (lucasLadderStep n dParam pParam qParam d state i).qK ∧
      (lucasLadderStep n dParam pParam qParam d state i).qK < n := by
  unfold lucasLadderStep
  dsimp only
  split_ifs
  · exact emod_range _ positive
  · exact emod_range _ positive

theorem lucasLadder_qK_range {n : ℕ} (positive : 0 < n) (dParam pParam qParam : ℤ) (d : ℕ) :
    ∀ (i : ℕ) (state : LucasState), 0 < i →
      0 ≤ (lucasLadder n dParam pParam qParam d i state).qK ∧
        (lucasLadder n dParam pParam qParam d i state).qK < n
  | 0, _, zero => absurd zero (lt_irrefl 0)
  | 1, state, _ => by
      rw [lucasLadder, lucasLadder]
      exact lucasLadderStep_qK_range positive dParam pParam qParam d state 0
  | i + 2, state, _ => by
      rw [lucasLadder]
      exact lucasLadder_qK_range positive dParam pParam qParam d (i + 1) _ (Nat.succ_pos i)

/-- After the ladder, `u_k` and `v_k` are `U d` and `V d` reduced modulo `n`, and `q_k` is
congruent to `Q ^ d`, reduced too once the ladder has run a pass, that is for `d > 1`. A pass
of the final loop entered at index `d 2 ^ r` tests and goes on with the residues at
`d 2 ^ (r + 1)`. -/
theorem selfridgeLadder_residues {n : ℕ} (three : 3 ≤ n) (odd : n % 2 = 1)
    (found : consensusFindSelfridgeD n ≠ 0) {d s : ℕ}
    (split : removeTwos (n + 1) (n + 1) 0 = (d, s)) :
    let qParam := (1 - consensusFindSelfridgeD n).tdiv 4
    let state := lucasLadder n (consensusFindSelfridgeD n) 1 qParam d (Nat.size d - 1)
      ⟨1, 1, qParam⟩
    (state.uK = lucasU 1 qParam d % n ∧ state.vK = lucasV 1 qParam d % n ∧
      state.qK % n = qParam ^ d % n ∧ (1 < d → state.qK = qParam ^ d % n)) ∧
    ∀ (r m : ℕ) (vK qK : ℤ), vK % n = lucasV 1 qParam (d * 2 ^ r) % n →
      qK % n = qParam ^ (d * 2 ^ r) % n →
      lucasSquares n (m + 1) vK qK =
        if lucasV 1 qParam (d * 2 ^ (r + 1)) % n = 0 then true
        else lucasSquares n m (lucasV 1 qParam (d * 2 ^ (r + 1)) % n)
          (qParam ^ (d * 2 ^ (r + 1)) % n) := by
  intro qParam state
  have positive : 0 < n := by omega
  have final := selfridgeLadder_at three odd found split
  -- the sequences over `ℤ` reduce to those over `ZMod n`
  have castU : ((lucasU 1 qParam d : ℤ) : ZMod n) = lucasU 1 (qParam : ZMod n) d := by
    simpa using map_lucasU (Int.castRingHom (ZMod n)) (P := 1) (Q := qParam) d
  have castV : ∀ k, ((lucasV 1 qParam k : ℤ) : ZMod n) = lucasV 1 (qParam : ZMod n) k := by
    intro k
    simpa using map_lucasV (Int.castRingHom (ZMod n)) (P := 1) (Q := qParam) k
  have congruent : ∀ {x y : ℤ}, x % n = y % n → (x : ZMod n) = y := fun same =>
    (ZMod.intCast_eq_intCast_iff' _ _ n).mpr same
  have castQ : (state.qK : ZMod n) = ((qParam ^ d : ℤ) : ZMod n) := by
    rw [final.q]
    push_cast
    rfl
  refine ⟨⟨?_, ?_, ?_, fun above => ?_⟩, fun r m vK qK value power => ?_⟩
  · exact eq_emod_of_intCast_eq final.uRange (final.u.trans castU.symm)
  · exact eq_emod_of_intCast_eq final.vRange (final.v.trans (castV d).symm)
  · exact (ZMod.intCast_eq_intCast_iff' _ _ n).mp castQ
  · -- `d > 1` has a bit below its top one, so the ladder has run a pass
    have size : 1 < Nat.size d := Nat.lt_size.mpr (by omega)
    have range := lucasLadder_qK_range positive (consensusFindSelfridgeD n) 1 qParam d
      (Nat.size d - 1) ⟨1, 1, qParam⟩ (by omega)
    exact eq_emod_of_intCast_eq range castQ
  · obtain ⟨doubled, squared⟩ := lucasSquares_step (Q := (qParam : ZMod n))
      ((congruent value).trans (castV _)) ((congruent power).trans (by push_cast; rfl))
    have index : 2 * (d * 2 ^ r) = d * 2 ^ (r + 1) := by ring
    rw [index] at doubled squared
    -- the pass computes both residues at the doubled index, then tests the first
    have vNext : (vK * vK - qK * 2) % n = lucasV 1 qParam (d * 2 ^ (r + 1)) % n := by
      apply eq_emod_of_intCast_eq (emod_range _ positive)
      rw [doubled, castV]
    have qNext : qK * qK % n = qParam ^ (d * 2 ^ (r + 1)) % n := by
      apply eq_emod_of_intCast_eq (emod_range _ positive)
      rw [squared]
      push_cast
      rfl
    rw [lucasSquares, vNext, qNext]

/-- At `n = 13`, `n + 1 = 7 · 2` and the search finds `D = 5`. -/
theorem selfridgeLadder_residues_at_thirteen :
    removeTwos (13 + 1) (13 + 1) 0 = (7, 1) ∧ consensusFindSelfridgeD 13 ≠ 0 ∧
    let qParam := (1 - consensusFindSelfridgeD 13).tdiv 4
    let state := lucasLadder 13 (consensusFindSelfridgeD 13) 1 qParam 7 (Nat.size 7 - 1)
      ⟨1, 1, qParam⟩
    (state.uK = lucasU 1 qParam 7 % 13 ∧ state.vK = lucasV 1 qParam 7 % 13 ∧
      state.qK % 13 = qParam ^ 7 % 13 ∧ (1 < 7 → state.qK = qParam ^ 7 % 13)) ∧
    ∀ (r m : ℕ) (vK qK : ℤ), vK % 13 = lucasV 1 qParam (7 * 2 ^ r) % 13 →
      qK % 13 = qParam ^ (7 * 2 ^ r) % 13 →
      lucasSquares 13 (m + 1) vK qK =
        if lucasV 1 qParam (7 * 2 ^ (r + 1)) % 13 = 0 then true
        else lucasSquares 13 m (lucasV 1 qParam (7 * 2 ^ (r + 1)) % 13)
          (qParam ^ (7 * 2 ^ (r + 1)) % 13) := by
  have split : removeTwos (13 + 1) (13 + 1) 0 = (7, 1) := by decide
  have found : consensusFindSelfridgeD 13 ≠ 0 := by
    rw [consensusFindSelfridgeD_of_jacobi_five (by norm_num)]
    decide
  exact ⟨split, found, selfridgeLadder_residues (by norm_num) (by norm_num) found split⟩

/-- At `n = 7`, `n + 1 = 2 ^ 3` has odd part `d = 1`: the ladder runs no pass and leaves
`q_k = Q = -1`, which is not the residue `Q ^ d mod n = 6`. -/
theorem selfridgeLadder_keeps_q_unreduced_at_seven :
    removeTwos (7 + 1) (7 + 1) 0 = (1, 3) ∧ consensusFindSelfridgeD 7 = 5 ∧
      mpzPerfectSquareP 7 = false ∧
      (lucasLadder 7 5 1 ((1 - 5 : ℤ).tdiv 4) 1 (Nat.size 1 - 1) ⟨1, 1, (1 - 5 : ℤ).tdiv 4⟩).qK =
        -1 ∧
      ((1 - 5 : ℤ).tdiv 4) ^ 1 % 7 = 6 := by
  refine ⟨by decide, consensusFindSelfridgeD_of_jacobi_five (by norm_num),
    mpzPerfectSquareP_of_prime (by norm_num), ?_, by decide⟩
  rw [Nat.size_one, Nat.sub_self, lucasLadder]
  decide

theorem consensusStrongLucasSelfridge_iff {n : ℕ} (three : 3 ≤ n) (odd : n % 2 = 1)
    (notSquare : mpzPerfectSquareP n = false) (found : consensusFindSelfridgeD n ≠ 0)
    {d s : ℕ} (split : removeTwos (n + 1) (n + 1) 0 = (d, s)) :
    consensusStrongLucasSelfridge n = true ↔
      lucasU 1 (((1 - consensusFindSelfridgeD n).tdiv 4 : ℤ) : ZMod n) d = 0 ∨
        ∃ r < s, lucasV 1 (((1 - consensusFindSelfridgeD n).tdiv 4 : ℤ) : ZMod n)
          (d * 2 ^ r) = 0 := by
  obtain ⟨product, oddD⟩ := removeTwos_split (by omega : 0 < n + 1)
  rw [split] at product oddD
  -- `n + 1` is even, so the split has at least one factor two
  have twos : 0 < s := by
    rcases Nat.eq_zero_or_pos s with zero | positive
    · rw [zero, pow_zero, mul_one] at product
      omega
    · exact positive
  have final := selfridgeLadder_at three odd found split
  set qParam := (1 - consensusFindSelfridgeD n).tdiv 4
  unfold consensusStrongLucasSelfridge
  simp only [notSquare, found, split, Bool.false_eq_true, if_false]
  set state := lucasLadder n (consensusFindSelfridgeD n) 1 qParam d (Nat.size d - 1)
    ⟨1, 1, qParam⟩
  have uZero := intCast_eq_zero_iff_of_range final.uRange
  have vZero := intCast_eq_zero_iff_of_range final.vRange
  rw [final.u] at uZero
  rw [final.v] at vZero
  by_cases u0 : state.uK = 0
  · rw [if_pos u0]
    exact ⟨fun _ => Or.inl (uZero.mpr u0), fun _ => rfl⟩
  · by_cases v0 : state.vK = 0
    · rw [if_neg u0, if_pos v0]
      refine ⟨fun _ => Or.inr ⟨0, twos, ?_⟩, fun _ => rfl⟩
      rw [pow_zero, mul_one]
      exact vZero.mpr v0
    · rw [if_neg u0, if_neg v0, lucasSquares_iff odd _ (s - 1) d _ _ final.v final.q]
      constructor
      · rintro ⟨j, inRange, vanishes⟩
        exact Or.inr ⟨j + 1, by omega, vanishes⟩
      · rintro (uVanishes | ⟨r, inRange, vanishes⟩)
        · exact absurd (uZero.mp uVanishes) u0
        · cases r with
          | zero =>
              rw [pow_zero, mul_one] at vanishes
              exact absurd (vZero.mp vanishes) v0
          | succ j => exact ⟨j, by omega, vanishes⟩

theorem consensusStrongLucasSelfridge_of_prime {n : ℕ} (prime : n.Prime) (odd : n ≠ 2)
    (found : consensusFindSelfridgeD n ≠ 0) : consensusStrongLucasSelfridge n = true := by
  have := Fact.mk prime
  have oddN : n % 2 = 1 := prime.eq_two_or_odd.resolve_left odd
  have three : 3 ≤ n := by
    have := prime.two_le
    omega
  obtain ⟨jacobi, mod⟩ := consensusFindSelfridgeD_spec found
  obtain ⟨product, -⟩ := removeTwos_split (by omega : 0 < n + 1)
  rw [consensusStrongLucasSelfridge_iff three oddN (mpzPerfectSquareP_of_prime prime) found rfl]
  apply strongLucas_of_prime odd _ product
  -- `1 - 4 Q` is `D`, which is not a square modulo `n`
  rw [one_pow, ← Int.cast_ofNat, ← Int.cast_one, ← Int.cast_mul, ← Int.cast_sub,
    ← selfridge_discriminant mod]
  rw [← jacobiSym.legendreSym.to_jacobiSym] at jacobi
  exact (legendreSym.eq_neg_one_iff n).mp jacobi

/-! ### `freycoin_is_prime` -/

theorem trialDivision_of_small_prime {n : ℕ} (prime : n.Prime) (above : 2 < n)
    (atMost : n ≤ 997) : trialDivision n smallPrimes.tail = some 2 := by
  have member : n ∈ smallPrimes.tail := by
    have listed := mem_smallPrimes_of_prime prime atMost
    rw [smallPrimes, List.mem_cons] at listed
    exact listed.resolve_left (by omega)
  rw [trialDivision_of_prime prime _ fun p member => by
      have := three_le_of_mem_smallPrimes_tail p member; omega,
    if_pos member]

theorem passes_of_large_prime {n : ℕ} (prime : n.Prime) (above : 997 < n)
    (found : consensusFindSelfridgeD n ≠ 0) :
    consensusMillerRabin n 2 = true ∧ consensusStrongLucasSelfridge n = true := by
  refine ⟨consensusMillerRabin_of_prime prime (by omega) fun divides => ?_,
    consensusStrongLucasSelfridge_of_prime prime (by omega) found⟩
  have := Nat.le_of_dvd (by norm_num) divides
  omega

theorem freycoinIsPrime_of_prime {n : ℕ} (prime : n.Prime)
    (selfridge : 997 < n → consensusFindSelfridgeD n ≠ 0) : freycoinIsPrime n = 2 := by
  unfold freycoinIsPrime
  rw [if_neg (by have := prime.two_le; omega)]
  by_cases two : n = 2
  · rw [if_pos two]
  have oddN : n % 2 = 1 := prime.eq_two_or_odd.resolve_left two
  rw [if_neg two, if_neg (by omega)]
  by_cases atMost : n ≤ 997
  · rw [trialDivision_of_small_prime prime (by have := prime.two_le; omega) atMost]
  · have outside : n ∉ smallPrimes.tail := fun member =>
      atMost (le_of_mem_smallPrimes n (List.mem_of_mem_tail member))
    obtain ⟨millerRabin, lucas⟩ := passes_of_large_prime prime (by omega) (selfridge (by omega))
    rw [trialDivision_of_prime prime _ fun p member => by
        have := three_le_of_mem_smallPrimes_tail p member; omega,
      if_neg outside]
    simp [millerRabin, lucas]

/-- No prime is rejected: primes up to 997 by the trial division's equality test, larger
ones by passing Miller–Rabin to base 2 and the strong Lucas test, provided the Selfridge
search finds its `D` for them. -/
theorem freycoinIsPrime_accepts_every_prime (n : ℕ) (prime : n.Prime)
    (selfridge : 997 < n → consensusFindSelfridgeD n ≠ 0) :
    freycoinIsPrime n = 2 ∧
      (2 < n → n ≤ 997 → trialDivision n smallPrimes.tail = some 2) ∧
      (997 < n → consensusMillerRabin n 2 = true ∧ consensusStrongLucasSelfridge n = true) :=
  ⟨freycoinIsPrime_of_prime prime selfridge, trialDivision_of_small_prime prime,
    fun above => passes_of_large_prime prime above (selfridge above)⟩

theorem freycoinIsPrime_accepts_1013 :
    freycoinIsPrime 1013 = 2 ∧
      (2 < 1013 → 1013 ≤ 997 → trialDivision 1013 smallPrimes.tail = some 2) ∧
      (997 < 1013 → consensusMillerRabin 1013 2 = true ∧
        consensusStrongLucasSelfridge 1013 = true) :=
  freycoinIsPrime_accepts_every_prime 1013 (by norm_num) fun _ => by
    rw [consensusFindSelfridgeD_of_jacobi_five (by norm_num)]
    norm_num

end Freycoin.Pow
