import Mathlib.NumberTheory.LegendreSymbol.JacobiSymbol

/-! The consensus primality functions of `pow/pow_utils.cpp`: trial division by
`SMALL_PRIMES`, `consensus_miller_rabin`, `consensus_find_selfridge_d`,
`consensus_strong_lucas_selfridge`, `freycoin_is_prime` and `freycoin_nextprime`.

The Lucas values are `ℤ` and `mpz_mod` is `Int.emod`. The `while (true)` loops carry fuel. -/

namespace Freycoin.Pow

/-- `SMALL_PRIMES`: the primes up to 997. -/
def smallPrimes : List ℕ :=
  [2, 3, 5, 7, 11, 13, 17, 19, 23, 29, 31, 37, 41, 43, 47, 53,
   59, 61, 67, 71, 73, 79, 83, 89, 97, 101, 103, 107, 109, 113,
   127, 131, 137, 139, 149, 151, 157, 163, 167, 173, 179, 181,
   191, 193, 197, 199, 211, 223, 227, 229, 233, 239, 241, 251,
   257, 263, 269, 271, 277, 281, 283, 293, 307, 311, 313, 317,
   331, 337, 347, 349, 353, 359, 367, 373, 379, 383, 389, 397,
   401, 409, 419, 421, 431, 433, 439, 443, 449, 457, 461, 463,
   467, 479, 487, 491, 499, 503, 509, 521, 523, 541, 547, 557,
   563, 569, 571, 577, 587, 593, 599, 601, 607, 613, 617, 619,
   631, 641, 643, 647, 653, 659, 661, 673, 677, 683, 691, 701,
   709, 719, 727, 733, 739, 743, 751, 757, 761, 769, 773, 787,
   797, 809, 811, 821, 823, 827, 829, 839, 853, 857, 859, 863,
   877, 881, 883, 887, 907, 911, 919, 929, 937, 941, 947, 953,
   967, 971, 977, 983, 991, 997]

/-- `while (mpz_even_p(d)) { mpz_tdiv_q_2exp(d, d, 1); s++; }`, halving at most `fuel` times.
The loop does not end for `d = 0`; both callers pass `d > 0` and `fuel = d`, which is
enough. -/
def removeTwos : ℕ → ℕ → ℕ → ℕ × ℕ
  | 0, d, s => (d, s)
  | fuel + 1, d, s => if d % 2 = 0 then removeTwos fuel (d / 2) (s + 1) else (d, s)

/-! ### `consensus_miller_rabin` -/

/-- The loop `for (r = 1; r < s; r++)` of `consensus_miller_rabin`, with `r` passes left. -/
def millerRabinSquares (n nMinus1 : ℕ) : ℕ → ℕ → Bool
  | 0, _ => false
  | r + 1, x =>
    let x := x ^ 2 % n
    if x = nMinus1 then true
    else if x = 1 then false
    else millerRabinSquares n nMinus1 r x

def consensusMillerRabin (n base : ℕ) : Bool :=
  let nMinus1 := n - 1
  -- write n - 1 = d * 2^s with d odd
  let split := removeTwos nMinus1 nMinus1 0
  let x := base ^ split.1 % n
  if x = 1 ∨ x = nMinus1 then true
  else millerRabinSquares n nMinus1 (split.2 - 1) x

/-! ### `consensus_find_selfridge_d` -/

/-- The search loop of `consensus_find_selfridge_d` at the candidate `d` with sign `sign`.
Candidates run `5, -7, 9, -11, ...` and stop once `|d| > 1000000`; `fuel` counts those left,
so the fuel case is never reached from `consensusFindSelfridgeD`. -/
def selfridgeSearch (n : ℕ) : ℕ → ℤ → ℤ → ℤ
  | 0, _, _ => 0
  | fuel + 1, d, sign =>
    let jacobi := jacobiSym d n
    if jacobi = -1 then d
    -- n is divisible by |d| (and |d| != n), so n is composite
    else if jacobi = 0 ∧ n ≠ d.natAbs then 0
    else
      let sign := -sign
      let d := sign * (d.natAbs + 2 : ℕ)
      if d.natAbs > 1000000 then 0
      else selfridgeSearch n fuel d sign

/-- There are 499998 candidates `|d| = 5, 7, ..., 999999`. -/
def consensusFindSelfridgeD (n : ℕ) : ℤ := selfridgeSearch n 499998 5 1

/-! ### `consensus_strong_lucas_selfridge` -/

/-- The registers `u_k`, `v_k` and `q_k` of the ladder. -/
structure LucasState where
  uK : ℤ
  vK : ℤ
  qK : ℤ

/-- `if (mpz_odd_p(tmp)) mpz_add(tmp, tmp, n); mpz_tdiv_q_2exp(x, tmp, 1);`: the ladder's
halving modulo the odd `n`, done twice in each pass. -/
def halveOdd (n : ℕ) (tmp : ℤ) : ℤ :=
  (if tmp % 2 = 1 then tmp + n else tmp).tdiv 2

/-- One pass of the ladder loop at bit `i` of `d`: double the index, then add one if the bit
is set. -/
def lucasLadderStep (n : ℕ) (dParam pParam qParam : ℤ) (d : ℕ) (state : LucasState)
    (i : ℕ) : LucasState :=
  -- Double: U_{2k} = U_k * V_k, V_{2k} = V_k^2 - 2*Q^k
  let uK := state.uK * state.vK % n
  let vK := (state.vK * state.vK - state.qK * 2) % n
  let qK := state.qK * state.qK % n
  if d.testBit i then
    -- U_{k+1} = (P*U_k + V_k) / 2 and V_{k+1} = (D*U_k + P*V_k) / 2
    let uResult := halveOdd n (uK * pParam + vK) % n
    let vResult := halveOdd n (uK * dParam + vK * pParam)
    ⟨uResult, vResult % n, qK * qParam % n⟩
  else ⟨uK, vK, qK⟩

/-- `for (long i = d_bits - 2; i >= 0; i--)`: from `i` the passes at bits `i - 1`, ..., `0`. -/
def lucasLadder (n : ℕ) (dParam pParam qParam : ℤ) (d : ℕ) : ℕ → LucasState → LucasState
  | 0, state => state
  | i + 1, state =>
    lucasLadder n dParam pParam qParam d i (lucasLadderStep n dParam pParam qParam d state i)

/-- The final loop `for (r = 1; r < s; r++)` over `V_{d*2^r}`, with `r` passes left. -/
def lucasSquares (n : ℕ) : ℕ → ℤ → ℤ → Bool
  | 0, _, _ => false
  | r + 1, vK, qK =>
    let vK := (vK * vK - qK * 2) % n
    if vK = 0 then true
    else lucasSquares n r vK (qK * qK % n)

def mpzPerfectSquareP (n : ℕ) : Bool := Nat.sqrt n * Nat.sqrt n = n

def consensusStrongLucasSelfridge (n : ℕ) : Bool :=
  -- Perfect squares fail Lucas test trivially
  if mpzPerfectSquareP n then false
  else
    let dParam := consensusFindSelfridgeD n
    if dParam = 0 then false
    else
      let pParam : ℤ := 1
      let qParam := (1 - dParam).tdiv 4
      -- n + 1 = d * 2^s where d is odd
      let split := removeTwos (n + 1) (n + 1) 0
      let d := split.1
      let state := lucasLadder n dParam pParam qParam d (Nat.size d - 1) ⟨1, pParam, qParam⟩
      if state.uK = 0 then true
      else if state.vK = 0 then true
      else lucasSquares n (split.2 - 1) state.vK state.qK

/-! ### `freycoin_is_prime` and `freycoin_nextprime` -/

/-- The trial division of `freycoin_is_prime` over `SMALL_PRIMES` from index 1: `some r`
where it returns `r`, `none` where it falls through. -/
def trialDivision (n : ℕ) : List ℕ → Option ℤ
  | [] => none
  | p :: ps => if n = p then some 2 else if p ∣ n then some 0 else trialDivision n ps

def freycoinIsPrime (n : ℕ) : ℤ :=
  if n < 2 then 0
  else if n = 2 then 2
  else if n % 2 = 0 then 0
  else
    match trialDivision n smallPrimes.tail with
    | some r => r
    | none =>
      -- Miller-Rabin with deterministic base 2, then the strong Lucas-Selfridge test
      if !consensusMillerRabin n 2 then 0
      else if !consensusStrongLucasSelfridge n then 0
      else 2

/-- The trial-division pre-filter of `freycoin_nextprime`, its own copy of the loop above. -/
def trialComposite (candidate : ℕ) : List ℕ → Bool
  | [] => false
  | p :: ps =>
    -- candidate IS this small prime: it's prime
    if candidate = p then false
    else if p ∣ candidate then true
    else trialComposite candidate ps

/-- The loop of `freycoin_nextprime` over odd candidates, with `fuel` passes left. -/
def freycoinNextprimeLoop : ℕ → ℕ → Option ℕ
  | 0, _ => none
  | fuel + 1, candidate =>
    if !trialComposite candidate smallPrimes.tail && freycoinIsPrime candidate ≠ 0 then
      some candidate
    else freycoinNextprimeLoop fuel (candidate + 2)

def freycoinNextprime (fuel n : ℕ) : Option ℕ :=
  -- Start at n + 1; if that's even, go to n + 2
  let candidate := n + 1
  let candidate := if candidate % 2 = 0 then candidate + 1 else candidate
  freycoinNextprimeLoop fuel candidate

/-! ### Properties of the pieces -/

theorem removeTwos_spec (fuel d s : ℕ) (positive : 0 < d) (enough : d ≤ fuel) :
    (removeTwos fuel d s).1 * 2 ^ (removeTwos fuel d s).2 = d * 2 ^ s ∧
      (removeTwos fuel d s).1 % 2 = 1 := by
  induction fuel generalizing d s with
  | zero => omega
  | succ fuel ih =>
      rw [removeTwos]
      split_ifs with even
      · obtain ⟨halved, odd⟩ := ih (d / 2) (s + 1) (by omega) (by omega)
        refine ⟨?_, odd⟩
        rw [halved, pow_succ, mul_comm (2 ^ s) 2, ← mul_assoc,
          Nat.div_mul_cancel (Nat.dvd_of_mod_eq_zero even)]
      · exact ⟨rfl, by omega⟩

theorem removeTwos_split {n : ℕ} (positive : 0 < n) :
    (removeTwos n n 0).1 * 2 ^ (removeTwos n n 0).2 = n ∧ (removeTwos n n 0).1 % 2 = 1 := by
  simpa using removeTwos_spec n n 0 positive le_rfl

theorem two_mul_halveOdd {n : ℕ} (odd : n % 2 = 1) (tmp : ℤ) :
    2 * halveOdd n tmp = (if tmp % 2 = 1 then tmp + n else tmp) := by
  unfold halveOdd
  rw [mul_comm, Int.tdiv_mul_cancel]
  split_ifs with oddTmp
  · exact Int.dvd_of_emod_eq_zero (by omega)
  · exact Int.dvd_of_emod_eq_zero (by omega)

/-- Every candidate of the search is `1 mod 4`, and its sign is `sign`. -/
def SelfridgeCandidate (d sign : ℤ) : Prop :=
  (sign = 1 ∧ 0 < d ∨ sign = -1 ∧ d < 0) ∧ d % 4 = 1

theorem selfridgeCandidate_next {d sign : ℤ} (candidate : SelfridgeCandidate d sign) :
    SelfridgeCandidate (-sign * (d.natAbs + 2 : ℕ)) (-sign) := by
  obtain ⟨⟨rfl, positive⟩ | ⟨rfl, negative⟩, mod⟩ := candidate
  · exact ⟨Or.inr ⟨rfl, by omega⟩, by omega⟩
  · exact ⟨Or.inl ⟨by ring, by omega⟩, by omega⟩

theorem selfridgeSearch_spec {n : ℕ} (fuel : ℕ) {d sign : ℤ}
    (candidate : SelfridgeCandidate d sign) (found : selfridgeSearch n fuel d sign ≠ 0) :
    jacobiSym (selfridgeSearch n fuel d sign) n = -1 ∧ selfridgeSearch n fuel d sign % 4 = 1 := by
  induction fuel generalizing d sign with
  | zero => exact absurd rfl found
  | succ fuel ih =>
      rw [selfridgeSearch] at found ⊢
      dsimp only at found ⊢
      split_ifs at found ⊢ with minusOne divides bound
      · exact ⟨minusOne, candidate.2⟩
      · exact absurd rfl found
      · exact absurd rfl found
      · exact ih (selfridgeCandidate_next candidate) found

theorem consensusFindSelfridgeD_spec {n : ℕ} (found : consensusFindSelfridgeD n ≠ 0) :
    jacobiSym (consensusFindSelfridgeD n) n = -1 ∧ consensusFindSelfridgeD n % 4 = 1 :=
  selfridgeSearch_spec 499998 ⟨Or.inl ⟨rfl, by norm_num⟩, by norm_num⟩ found

theorem consensusFindSelfridgeD_of_jacobi_five {n : ℕ} (five : jacobiSym 5 n = -1) :
    consensusFindSelfridgeD n = 5 := by
  rw [consensusFindSelfridgeD, selfridgeSearch, if_pos five]

theorem trialDivision_of_prime {n : ℕ} (prime : n.Prime) :
    ∀ ps : List ℕ, (∀ p ∈ ps, 2 ≤ p) → trialDivision n ps = if n ∈ ps then some 2 else none
  | [], _ => rfl
  | p :: ps, large => by
      rw [trialDivision]
      by_cases same : n = p
      · rw [if_pos same, if_pos (same ▸ List.mem_cons_self)]
      · have notDivides : ¬p ∣ n := by
          intro divides
          rcases prime.eq_one_or_self_of_dvd p divides with one | self
          · have := large p List.mem_cons_self
            omega
          · exact same self.symm
        rw [if_neg same, if_neg notDivides,
          trialDivision_of_prime prime ps fun q member => large q (List.mem_cons_of_mem p member)]
        simp [same]

theorem trialDivision_of_trialComposite {candidate : ℕ} :
    ∀ ps : List ℕ, trialComposite candidate ps = true → trialDivision candidate ps = some 0
  | [], composite => by cases composite
  | p :: ps, composite => by
      rw [trialComposite] at composite
      rw [trialDivision]
      by_cases same : candidate = p
      · rw [if_pos same] at composite
        cases composite
      · by_cases divides : p ∣ candidate
        · rw [if_neg same, if_pos divides]
        · rw [if_neg same, if_neg divides] at composite ⊢
          exact trialDivision_of_trialComposite ps composite

theorem three_le_of_mem_smallPrimes_tail : ∀ p ∈ smallPrimes.tail, 3 ≤ p := by
  decide +kernel

theorem le_of_mem_smallPrimes : ∀ p ∈ smallPrimes, p ≤ 997 := by
  decide +kernel

theorem mem_smallPrimes_of_prime {n : ℕ} (prime : n.Prime) (small : n ≤ 997) :
    n ∈ smallPrimes := by
  have cover : ∀ n < 998, 2 ≤ n →
      (∀ p ∈ [2, 3, 5, 7, 11, 13, 17, 19, 23, 29, 31], p ∣ n → p = n) → n ∈ smallPrimes := by
    decide +kernel
  refine cover n (by omega) prime.two_le fun p member divides => ?_
  have two : 2 ≤ p := by
    simp only [List.mem_cons, List.not_mem_nil, or_false] at member
    omega
  rcases prime.eq_one_or_self_of_dvd p divides with one | self
  · omega
  · exact self

end Freycoin.Pow
