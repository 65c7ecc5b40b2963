import Freycoin.Pow.PrimalitySpec
import Mathlib.NumberTheory.LSeries.PrimesInAP

/-! `freycoin_nextprime` returns the consensus successor. -/

namespace Freycoin.Pow

theorem freycoinIsPrime_of_even {c : ℕ} (above : 2 < c) (even : c % 2 = 0) :
    freycoinIsPrime c = 0 := by
  unfold freycoinIsPrime
  rw [if_neg (by omega), if_neg (by omega), if_pos even]

theorem freycoinIsPrime_of_trialComposite {c : ℕ} (above : 2 < c) (odd : c % 2 = 1)
    (composite : trialComposite c smallPrimes.tail = true) : freycoinIsPrime c = 0 := by
  unfold freycoinIsPrime
  rw [if_neg (by omega), if_neg (by omega), if_neg (by omega),
    trialDivision_of_trialComposite _ composite]

theorem accepted_iff {c : ℕ} (above : 2 < c) (odd : c % 2 = 1) :
    (!trialComposite c smallPrimes.tail && decide (freycoinIsPrime c ≠ 0)) = true ↔
      freycoinIsPrime c ≠ 0 := by
  cases composite : trialComposite c smallPrimes.tail
  · simp
  · simp [freycoinIsPrime_of_trialComposite above odd composite]

theorem freycoinNextprimeLoop_spec :
    ∀ (fuel c m : ℕ), 2 < c → c % 2 = 1 → freycoinNextprimeLoop fuel c = some m →
      c ≤ m ∧ freycoinIsPrime m ≠ 0 ∧ ∀ k, c ≤ k → k < m → freycoinIsPrime k = 0
  | 0, _, _, _, _, returned => by cases returned
  | fuel + 1, c, m, above, odd, returned => by
      rw [freycoinNextprimeLoop] at returned
      by_cases accept : (!trialComposite c smallPrimes.tail && decide (freycoinIsPrime c ≠ 0))
      · rw [if_pos accept] at returned
        cases returned
        exact ⟨le_rfl, (accepted_iff above odd).mp accept, fun k below beyond => by omega⟩
      · rw [if_neg accept] at returned
        have rejected : freycoinIsPrime c = 0 := by
          by_contra nonzero
          exact accept ((accepted_iff above odd).mpr nonzero)
        obtain ⟨after, accepted, least⟩ :=
          freycoinNextprimeLoop_spec fuel (c + 2) m (by omega) (by omega) returned
        refine ⟨by omega, accepted, fun k below beyond => ?_⟩
        -- `c` itself is rejected, `c + 1` is even, and the rest is the recursive call's
        rcases Nat.lt_or_ge k (c + 2) with near | far
        · rcases Nat.lt_or_ge k (c + 1) with same | next
          · rwa [show k = c by omega]
          · exact freycoinIsPrime_of_even (by omega) (by omega)
        · exact least k far beyond

theorem freycoinNextprimeLoop_finds :
    ∀ (fuel c m : ℕ), 2 < c → c % 2 = 1 → c ≤ m → m % 2 = 1 → freycoinIsPrime m ≠ 0 →
      (m - c) / 2 < fuel → ∃ found, freycoinNextprimeLoop fuel c = some found
  | 0, _, _, _, _, _, _, _, enough => absurd enough (Nat.not_lt_zero _)
  | fuel + 1, c, m, above, odd, below, oddM, accepted, enough => by
      rw [freycoinNextprimeLoop]
      by_cases accept : (!trialComposite c smallPrimes.tail && decide (freycoinIsPrime c ≠ 0))
      · exact ⟨c, by rw [if_pos accept]⟩
      · rw [if_neg accept]
        -- `m` is accepted and `c` is not, so `m` lies further on
        have later : c + 2 ≤ m := by
          rcases Nat.lt_or_ge m (c + 2) with near | far
          · have same : m = c := by omega
            exact absurd ((accepted_iff above odd).mpr (same ▸ accepted)) accept
          · exact far
        exact freycoinNextprimeLoop_finds fuel (c + 2) m (by omega) (by omega) later oddM
          accepted (by omega)

theorem jacobiSym_five_of_mod_five {p : ℕ} (odd : p % 2 = 1) (mod : p % 5 = 2) :
    jacobiSym 5 p = -1 := by
  have reciprocity := jacobiSym.quadratic_reciprocity_one_mod_four (by norm_num : 5 % 4 = 1)
    (Nat.odd_iff.mpr odd)
  rw [Nat.cast_ofNat] at reciprocity
  rw [reciprocity, jacobiSym.mod_left, show ((p : ℤ) % ((5 : ℕ) : ℤ)) = 2 by omega]
  norm_num

theorem exists_accepted_above (n : ℕ) :
    ∃ m, n < m ∧ m % 2 = 1 ∧ freycoinIsPrime m ≠ 0 := by
  have unit : IsUnit (2 : ZMod 5) := IsUnit.of_mul_eq_one 3 (by decide)
  obtain ⟨p, above, prime, mod⟩ := Nat.forall_exists_prime_gt_and_eq_mod unit (max n 997)
  have modFive : p % 5 = 2 := by
    rw [← ZMod.val_natCast, mod]
    rfl
  have oddP : p % 2 = 1 := prime.eq_two_or_odd.resolve_left (by omega)
  refine ⟨p, by omega, oddP, ?_⟩
  rw [freycoinIsPrime_of_prime prime fun _ => by
    rw [consensusFindSelfridgeD_of_jacobi_five (jacobiSym_five_of_mod_five oddP modFive)]
    norm_num]
  norm_num

/-- The least odd `m > n` that `freycoin_is_prime` accepts. -/
def consensusNextprime (n : ℕ) : ℕ := Nat.find (exists_accepted_above n)

theorem lt_consensusNextprime (n : ℕ) : n < consensusNextprime n :=
  (Nat.find_spec (exists_accepted_above n)).1

/-- `freycoin_nextprime` from `n ≥ 2` stops, and returns the least `m > n` that
`freycoin_is_prime` accepts; its pre-filter rejects only what `freycoin_is_prime` rejects. -/
theorem freycoinNextprime_is_consensus_successor (n : ℕ) (two : 2 ≤ n) :
    (∃ fuel m, freycoinNextprime fuel n = some m) ∧
      (∀ fuel m, freycoinNextprime fuel n = some m →
        n < m ∧ freycoinIsPrime m ≠ 0 ∧ ∀ k, n < k → k < m → freycoinIsPrime k = 0) ∧
      (∀ c, 2 < c → c % 2 = 1 → trialComposite c smallPrimes.tail = true →
        freycoinIsPrime c = 0) := by
  -- the first candidate is `n + 1`, or `n + 2` when `n + 1` is even
  obtain ⟨start, startEq⟩ : ∃ start, start = if (n + 1) % 2 = 0 then n + 1 + 1 else n + 1 :=
    ⟨_, rfl⟩
  have loop : ∀ fuel, freycoinNextprime fuel n = freycoinNextprimeLoop fuel start := by
    intro fuel
    rw [startEq]
    rfl
  have startOdd : start % 2 = 1 := by
    rw [startEq]
    split_ifs <;> omega
  have startAbove : n < start := by
    rw [startEq]
    split_ifs <;> omega
  have skipped : ∀ k, n < k → k < start → freycoinIsPrime k = 0 := by
    intro k above below
    rw [startEq] at below
    split_ifs at below with even
    · exact freycoinIsPrime_of_even (by omega) (by omega)
    · omega
  refine ⟨?_, ?_, fun c above odd composite => freycoinIsPrime_of_trialComposite above odd composite⟩
  · obtain ⟨m, above, oddM, accepted⟩ := exists_accepted_above start
    obtain ⟨found, returned⟩ := freycoinNextprimeLoop_finds ((m - start) / 2 + 1) start m
      (by omega) startOdd (by omega) oddM accepted (by omega)
    exact ⟨_, found, (loop _).trans returned⟩
  · intro fuel m returned
    rw [loop] at returned
    obtain ⟨after, accepted, least⟩ :=
      freycoinNextprimeLoop_spec fuel start m (by omega) startOdd returned
    refine ⟨by omega, accepted, fun k above below => ?_⟩
    rcases Nat.lt_or_ge k start with early | late
    · exact skipped k above early
    · exact least k late below

theorem freycoinNextprime_from_1013 :
    2 ≤ 1013 ∧ ((∃ fuel m, freycoinNextprime fuel 1013 = some m) ∧
      (∀ fuel m, freycoinNextprime fuel 1013 = some m →
        1013 < m ∧ freycoinIsPrime m ≠ 0 ∧ ∀ k, 1013 < k → k < m → freycoinIsPrime k = 0) ∧
      (∀ c, 2 < c → c % 2 = 1 → trialComposite c smallPrimes.tail = true →
        freycoinIsPrime c = 0)) :=
  ⟨by norm_num, freycoinNextprime_is_consensus_successor 1013 (by norm_num)⟩

end Freycoin.Pow
