import Freycoin.Consensus.MerkleComputation
import Freycoin.Library.BinaryCarry

/-! What `MerkleComputation` computes. -/

namespace Freycoin.Consensus

open MerkleTree BinaryCarry

variable {H : Type*} [DecidableEq H] {hash : H → H → H}

section Steps

omit [DecidableEq H]

variable (hash)

@[simp] theorem recordSibling_count (s : MerkleState H) : (recordSibling s).count = s.count := by
  unfold recordSibling
  split_ifs <;> rfl

@[simp] theorem recordSibling_inner (s : MerkleState H) : (recordSibling s).inner = s.inner := by
  unfold recordSibling
  split_ifs <;> rfl

@[simp] theorem recordSibling_level (s : MerkleState H) : (recordSibling s).level = s.level := by
  unfold recordSibling
  split_ifs <;> rfl

@[simp] theorem recordSibling_h (s : MerkleState H) : (recordSibling s).h = s.h := by
  unfold recordSibling
  split_ifs <;> rfl

@[simp] theorem recordSibling_matchlevel (s : MerkleState H) :
    (recordSibling s).matchlevel = s.matchlevel := by
  unfold recordSibling
  split_ifs <;> rfl

theorem recordSibling_of_matchh {s : MerkleState H} (tracked : s.matchh = true) :
    (recordSibling s).matchh = true ∧ (recordSibling s).path = s.path ++ [s.inner s.level] := by
  unfold recordSibling
  rw [if_pos tracked]
  exact ⟨tracked, rfl⟩

theorem recordSibling_of_matchlevel {s : MerkleState H} (waiting : s.matchh = false)
    (here : s.matchlevel = s.level) :
    (recordSibling s).matchh = true ∧ (recordSibling s).path = s.path ++ [s.h] := by
  unfold recordSibling
  rw [if_neg (by simp [waiting]), if_pos here]
  exact ⟨rfl, rfl⟩

theorem recordSibling_of_ne {s : MerkleState H} (waiting : s.matchh = false)
    (elsewhere : s.matchlevel ≠ s.level) : recordSibling s = s := by
  unfold recordSibling
  rw [if_neg (by simp [waiting]), if_neg elsewhere]

@[simp] theorem sweepStep_count (s : MerkleState H) : (sweepStep hash s).count = s.count :=
  recordSibling_count s

@[simp] theorem sweepStep_inner (s : MerkleState H) : (sweepStep hash s).inner = s.inner :=
  recordSibling_inner s

@[simp] theorem sweepStep_level (s : MerkleState H) : (sweepStep hash s).level = s.level :=
  recordSibling_level s

@[simp] theorem sweepStep_matchlevel (s : MerkleState H) :
    (sweepStep hash s).matchlevel = s.matchlevel :=
  recordSibling_matchlevel s

@[simp] theorem sweepStep_h (s : MerkleState H) :
    (sweepStep hash s).h = hash (s.inner s.level) s.h := by
  simp [sweepStep]

@[simp] theorem sweepStep_matchh (s : MerkleState H) :
    (sweepStep hash s).matchh = (recordSibling s).matchh := rfl

@[simp] theorem sweepStep_path (s : MerkleState H) :
    (sweepStep hash s).path = (recordSibling s).path := rfl

variable [DecidableEq H] in
theorem leafStep_eq (s : MerkleState H) :
    leafStep hash s = { sweepStep hash s with mutated := (leafStep hash s).mutated } := rfl

end Steps

section Loops

omit [DecidableEq H]

theorem whileBitClear_run (body : MerkleState H → MerkleState H) (P : MerkleState H → Prop)
    (keepsCount : ∀ r, (body r).count = r.count)
    (step : ∀ r, P r → r.level < 32 → r.count.testBit r.level = false →
      P { body r with level := r.level + 1 }) :
    ∀ (s : MerkleState H) (t : ℕ), P s → s.level ≤ t → t < 32 → s.count.testBit t = true →
      ∃ r, whileBitClear body s = some r ∧ P r ∧ r.count = s.count ∧
        r.count.testBit r.level = true := by
  intro s t start below top set
  -- induction on the number of levels left below `t`
  obtain ⟨d, distance⟩ : ∃ d, t - s.level = d := ⟨_, rfl⟩
  induction d generalizing s with
  | zero =>
      have here : s.level = t := by omega
      rw [whileBitClear, if_pos (by omega), if_pos (by rw [here]; exact set)]
      exact ⟨s, rfl, start, rfl, by rw [here]; exact set⟩
  | succ d ih =>
      rw [whileBitClear, if_pos (by omega)]
      by_cases stop : s.count.testBit s.level = true
      · rw [if_pos stop]
        exact ⟨s, rfl, start, rfl, stop⟩
      · rw [if_neg stop]
        have next := step s start (by omega) (by simpa using stop)
        obtain ⟨r, run, holds, count, set'⟩ :=
          ih { body s with level := s.level + 1 } next (by simp only; omega)
            (by simpa only [keepsCount] using set) (by simp only; omega)
        exact ⟨r, run, holds, by rw [count]; exact keepsCount s, set'⟩

theorem whileBitClear_eq_none (body : MerkleState H → MerkleState H)
    (keepsCount : ∀ r, (body r).count = r.count) :
    ∀ (s : MerkleState H), (∀ i, s.level ≤ i → i < 32 → s.count.testBit i = false) →
      whileBitClear body s = none := by
  intro s
  induction h : 32 - s.level using Nat.strong_induction_on generalizing s with
  | _ d ih => ?_
  intro clear
  rw [whileBitClear]
  split_ifs with inside set
  · rw [clear s.level le_rfl inside] at set
    exact absurd set Bool.false_ne_true
  · apply ih (32 - (s.level + 1)) (by omega) _ rfl
    intro i above below
    simp only [keepsCount] at above ⊢
    exact clear i (by omega) below
  · rfl

end Loops

section Carry

variable (hash) in
/-- A carry at height `k` of the node that makes the old count `c` one larger. -/
structure Carrying (L : List H) (zero : H) (p c k : ℕ) (r : MerkleState H) : Prop where
  level : r.level = k
  current : r.h = node hash L zero k (c / 2 ^ k)
  inside : c / 2 ^ k < width L.length k
  pending : ∀ j, k ≤ j → c.testBit j = true → r.inner j = node hash L zero j (c / 2 ^ j - 1)
  tracking : r.matchh = true → p / 2 ^ k = c / 2 ^ k ∧ r.path = siblings hash L zero p k
  waiting : r.matchh = false →
    (∃ jm : ℕ, k ≤ jm ∧ c.testBit jm = true ∧ r.matchlevel = jm ∧
        p / 2 ^ jm = c / 2 ^ jm - 1 ∧ r.path = siblings hash L zero p jm) ∨
      (c < p ∧ r.matchlevel = -1 ∧ r.path = [])

variable {L : List H} {zero : H} {p c k : ℕ}

omit [DecidableEq H] in
theorem Carrying.with_mutated {r : MerkleState H} (inv : Carrying hash L zero p c k r)
    (flag : Bool) : Carrying hash L zero p c k { r with mutated := flag } :=
  ⟨inv.level, inv.current, inv.inside, inv.pending, inv.tracking, inv.waiting⟩

omit [DecidableEq H] in
theorem Carrying.climb {r : MerkleState H} (inv : Carrying hash L zero p c k r)
    (set : c.testBit k = true) :
    Carrying hash L zero p c (k + 1) { sweepStep hash r with level := k + 1 } := by
  -- the quotient at height `k` as a plain number, for `omega`
  obtain ⟨q, quotient⟩ : ∃ q, c / 2 ^ k = q := ⟨_, rfl⟩
  have odd : q % 2 = 1 := by rw [← quotient]; exact (testBit_iff_odd c k).mp set
  have up : c / 2 ^ (k + 1) = q / 2 := by rw [Nat.pow_succ, ← Nat.div_div_eq_div_mul, quotient]
  have inside : q < width L.length k := by rw [← quotient]; exact inv.inside
  have current : r.h = node hash L zero k q := by rw [← quotient]; exact inv.current
  have left : r.inner k = node hash L zero k (q - 1) := by
    rw [← quotient]
    exact inv.pending k le_rfl set
  have combined : hash (r.inner k) r.h = node hash L zero (k + 1) (q / 2) := by
    rw [node_succ_div_two L zero k inside, if_neg (by omega), left, current, siblingIndex,
      if_neg (by omega)]
  -- the sibling at height `k` of either child of the new node
  have sibling : ∀ i, i = q - 1 ∨ i = q →
      node hash L zero k (siblingIndex L.length k i) = if i = q then r.inner k else r.h := by
    intro i choice
    rcases choice with rfl | rfl
    · rw [if_neg (by omega), siblingIndex, if_pos (by omega), if_pos (by omega), current,
        Nat.sub_add_cancel (by omega)]
    · rw [if_pos rfl, siblingIndex, if_neg (by omega), left]
  refine ⟨rfl, ?_, ?_, ?_, ?_, ?_⟩
  · simp only [sweepStep_h]
    rw [inv.level, up]
    exact combined
  · rw [width_succ, up]
    omega
  · intro j above set'
    simp only [sweepStep_inner]
    exact inv.pending j (by omega) set'
  · intro nowTracking
    simp only [sweepStep_matchh] at nowTracking
    simp only [sweepStep_path]
    rw [siblings_succ, up, Nat.pow_succ, ← Nat.div_div_eq_div_mul]
    cases tracked : r.matchh with
    | true =>
        obtain ⟨position, path⟩ := inv.tracking tracked
        rw [quotient] at position
        rw [(recordSibling_of_matchh tracked).2, path, position, sibling q (Or.inr rfl), if_pos rfl,
          inv.level]
        exact ⟨rfl, rfl⟩
    | false =>
        rcases inv.waiting tracked with ⟨jm, above, _, matchlevel, position, path⟩ |
            ⟨_, matchlevel, _⟩
        · by_cases here : jm = k
          · subst here
            rw [quotient] at position
            rw [(recordSibling_of_matchlevel tracked (by rw [matchlevel, inv.level])).2, path,
              position, sibling (q - 1) (Or.inl rfl), if_neg (by omega)]
            exact ⟨by omega, rfl⟩
          · rw [recordSibling_of_ne tracked (by rw [matchlevel, inv.level]; exact_mod_cast here),
              tracked] at nowTracking
            cases nowTracking
        · rw [recordSibling_of_ne tracked (by rw [matchlevel, inv.level]; omega), tracked]
            at nowTracking
          cases nowTracking
  · intro stillWaiting
    simp only [sweepStep_matchh] at stillWaiting
    simp only [sweepStep_matchlevel, sweepStep_path]
    cases tracked : r.matchh with
    | true =>
        rw [(recordSibling_of_matchh tracked).1] at stillWaiting
        cases stillWaiting
    | false =>
        rcases inv.waiting tracked with ⟨jm, above, setJm, matchlevel, position, path⟩ |
            ⟨later, matchlevel, path⟩
        · have elsewhere : jm ≠ k := by
            intro here
            rw [(recordSibling_of_matchlevel tracked (by rw [matchlevel, inv.level, here])).1]
              at stillWaiting
            cases stillWaiting
          rw [recordSibling_of_ne tracked (by rw [matchlevel, inv.level]; exact_mod_cast elsewhere)]
          exact Or.inl ⟨jm, by omega, setJm, matchlevel, position, path⟩
        · rw [recordSibling_of_ne tracked (by rw [matchlevel, inv.level]; omega)]
          exact Or.inr ⟨later, matchlevel, path⟩

omit [DecidableEq H] in
theorem carry_run (body : MerkleState H → MerkleState H)
    (agrees : ∀ r, body r = { sweepStep hash r with mutated := (body r).mutated }) {l : ℕ}
    {r : MerkleState H} (inv : Carrying hash L zero p c k r)
    (carrying : c % 2 ^ k = 2 ^ k - 2 ^ l) (lk : l ≤ k) (count : r.count = c + 2 ^ l)
    (fits : c + 2 ^ l < 2 ^ 32) :
    ∃ r', whileBitClear body r = some r' ∧ Carrying hash L zero p c r'.level r' ∧
      r'.count = c + 2 ^ l ∧ c.testBit r'.level = false ∧
      c % 2 ^ r'.level = 2 ^ r'.level - 2 ^ l ∧ k ≤ r'.level ∧ r'.inner = r.inner := by
  have keepsCount : ∀ r, (body r).count = r.count := fun r => by
    rw [agrees r]
    exact sweepStep_count hash r
  let P : MerkleState H → Prop := fun q =>
    k ≤ q.level ∧ c % 2 ^ q.level = 2 ^ q.level - 2 ^ l ∧ Carrying hash L zero p c q.level q ∧
      q.count = c + 2 ^ l ∧ q.inner = r.inner
  have step : ∀ q, P q → q.level < 32 → q.count.testBit q.level = false →
      P { body q with level := q.level + 1 } := by
    rintro q ⟨above, carried, holds, qCount, qInner⟩ _ clear
    rw [qCount, testBit_add_of_carrying carried (by omega)] at clear
    have set : c.testBit q.level = true := by simpa using clear
    have climbed := (holds.climb set).with_mutated (body q).mutated
    rw [agrees q]
    refine ⟨by simp only; omega, carrying_succ carried (by omega) set, ?_, ?_, ?_⟩
    · exact climbed
    · simp only [sweepStep_count]
      exact qCount
    · simp only [sweepStep_inner]
      exact qInner
  -- the count has a set bit at height `k` or above, and below `32`
  have total : c + 2 ^ l = (c / 2 ^ k + 1) * 2 ^ k := add_eq_of_carrying carrying lk
  obtain ⟨t, above, top, set⟩ :
      ∃ t, k ≤ t ∧ t < 32 ∧ (c + 2 ^ l).testBit t = true := by
    by_contra none
    have clear : ∀ i ≥ k, (c + 2 ^ l).testBit i = false := by
      intro i above
      by_cases low : i < 32
      · cases bit : (c + 2 ^ l).testBit i with
        | false => rfl
        | true => exact absurd ⟨i, above, low, bit⟩ none
      · exact Nat.testBit_lt_two_pow (lt_of_lt_of_le fits (Nat.pow_le_pow_right (by decide)
          (by omega)))
    have small := Nat.lt_pow_two_of_testBit _ clear
    rw [total] at small
    exact absurd small (not_lt.mpr (Nat.le_mul_of_pos_left _ (Nat.succ_pos _)))
  obtain ⟨r', run, ⟨atLeast, carried, holds, rCount, rInner⟩, _, stop⟩ :=
    whileBitClear_run body P keepsCount step r t
      ⟨by rw [inv.level], by rw [inv.level]; exact carrying, by rw [inv.level]; exact inv,
        count, rfl⟩
      (by rw [inv.level]; exact above) top (by rw [count]; exact set)
  rw [rCount, testBit_add_of_carrying carried (by omega)] at stop
  exact ⟨r', run, holds, rCount, by simpa using stop, carried, atLeast, rInner⟩

end Carry

section Leaves

variable (hash) in
/-- The state after the first `c` leaves, on the way to the path of leaf `p`. -/
structure Processed (L : List H) (zero : H) (p c : ℕ) (s : MerkleState H) : Prop where
  count : s.count = c
  inner : ∀ j, c.testBit j = true → s.inner j = node hash L zero j (c / 2 ^ j - 1)
  matched : p < c → ∃ jm : ℕ, c.testBit jm = true ∧ s.matchlevel = jm ∧
    p / 2 ^ jm = c / 2 ^ jm - 1 ∧ s.path = siblings hash L zero p jm
  unmatched : c ≤ p → s.matchlevel = -1 ∧ s.path = []

variable {L : List H} {zero : H} {p c : ℕ}

omit [DecidableEq H] in
variable (hash) in
theorem processed_zero :
    Processed hash L zero p 0 ⟨0, fun _ => zero, -1, false, [], 0, zero, false⟩ := by
  refine ⟨rfl, ?_, ?_, fun _ => ⟨rfl, rfl⟩⟩
  · intro j set
    rw [Nat.zero_testBit] at set
    cases set
  · intro below
    exact absurd below (Nat.not_lt_zero p)

omit [DecidableEq H] in
theorem Processed.start {s : MerkleState H} (inv : Processed hash L zero p c s)
    (below : c < L.length) :
    Carrying hash L zero p c 0
      { s with
        h := L.getD c zero
        matchh := (s.count == p)
        count := (s.count + 1) % 2 ^ 32
        level := 0 } := by
  refine ⟨rfl, ?_, ?_, fun j _ set => inv.inner j set, ?_, ?_⟩
  · show L.getD c zero = node hash L zero 0 (c / 2 ^ 0)
    rw [Nat.pow_zero, Nat.div_one, node]
  · rw [Nat.pow_zero, Nat.div_one, width_zero]
    exact below
  · intro tracked
    have here : c = p := by
      rw [← inv.count]
      exact beq_iff_eq.mp tracked
    exact ⟨by rw [here], by rw [siblings_zero]; exact (inv.unmatched (by omega)).2⟩
  · intro untracked
    have elsewhere : c ≠ p := by
      rw [← inv.count]
      exact beq_eq_false_iff_ne.mp untracked
    by_cases earlier : p < c
    · obtain ⟨jm, set, matchlevel, position, path⟩ := inv.matched earlier
      exact Or.inl ⟨jm, Nat.zero_le jm, set, matchlevel, position, path⟩
    · exact Or.inr ⟨by omega, inv.unmatched (by omega)⟩

omit [DecidableEq H] in
theorem succ_facts {t : ℕ} (carrying : c % 2 ^ t = 2 ^ t - 2 ^ 0) (clear : c.testBit t = false) :
    (c + 1) / 2 ^ t = c / 2 ^ t + 1 ∧ (c + 1).testBit t = true ∧
      (∀ j < t, (c + 1).testBit j = false) ∧
      (∀ j, t < j → (c + 1) / 2 ^ j = c / 2 ^ j ∧ (c + 1).testBit j = c.testBit j) := by
  have one : (2 : ℕ) ^ 0 = 1 := Nat.pow_zero 2
  refine ⟨?_, ?_, ?_, ?_⟩
  · rw [← one]
    exact add_div_of_carrying carrying (Nat.zero_le t)
  · rw [← one, testBit_add_of_carrying carrying (Nat.zero_le t), clear]
    rfl
  · intro j below
    rw [← one]
    exact testBit_add_of_lt carrying (Nat.zero_le t) below
  · intro j above
    rw [← one]
    exact ⟨add_div_of_stop carrying (Nat.zero_le t) clear above,
      testBit_add_of_stop carrying (Nat.zero_le t) clear above⟩

theorem processLeaf_spec {s : MerkleState H} (inv : Processed hash L zero p c s)
    (below : c < L.length) (small : L.length < 2 ^ 32) :
    ∃ s', processLeaf hash p s (L.getD c zero) = some s' ∧ Processed hash L zero p (c + 1) s' := by
  have count : (s.count + 1) % 2 ^ 32 = c + 2 ^ 0 := by
    rw [inv.count, Nat.pow_zero, Nat.mod_eq_of_lt (by omega)]
  obtain ⟨r, run, carried, rCount, clear, carrying, -, rInner⟩ :=
    carry_run (leafStep hash) (leafStep_eq hash) (inv.start below)
      (by rw [Nat.pow_zero, Nat.mod_one]) le_rfl count
      (by omega)
  obtain ⟨quotient, setT, clearBelow, above⟩ := succ_facts carrying clear
  refine ⟨_, by rw [processLeaf, run]; rfl, ?_⟩
  refine ⟨by rw [← Nat.pow_zero 2]; exact rCount, ?_, ?_, ?_⟩
  · -- the stored node is the new `inner[t]`; the entries above `t` are unchanged
    intro j set
    show Function.update r.inner r.level r.h j = _
    rcases lt_trichotomy j r.level with lower | rfl | higher
    · rw [clearBelow j lower] at set
      cases set
    · rw [Function.update_self, carried.current, quotient, Nat.add_sub_cancel]
    · rw [Function.update_of_ne (Nat.ne_of_gt higher), rInner, (above j higher).1]
      rw [(above j higher).2] at set
      exact inv.inner j set
  · intro within
    show ∃ jm : ℕ, (c + 1).testBit jm = true ∧
      (if r.matchh then (r.level : ℤ) else r.matchlevel) = jm ∧ _
    cases tracked : r.matchh with
    | true =>
        obtain ⟨position, path⟩ := carried.tracking tracked
        exact ⟨r.level, setT, if_pos rfl, by rw [position, quotient, Nat.add_sub_cancel], path⟩
    | false =>
        rcases carried.waiting tracked with ⟨jm, atLeast, set, matchlevel, position, path⟩ |
            ⟨later, _, _⟩
        · have higher : r.level < jm := by
            rcases Nat.lt_or_eq_of_le atLeast with higher | same
            · exact higher
            · rw [← same, clear] at set
              cases set
          rw [← (above jm higher).2] at set
          rw [← (above jm higher).1] at position
          exact ⟨jm, set, by rw [if_neg Bool.false_ne_true]; exact matchlevel, position, path⟩
        · omega
  · intro beyond
    show (if r.matchh then (r.level : ℤ) else r.matchlevel) = -1 ∧ r.path = []
    cases tracked : r.matchh with
    | true =>
        -- leaf `p` would lie in the carried block, which ends at `c`
        obtain ⟨position, _⟩ := carried.tracking tracked
        have total : c / 2 ^ r.level * 2 ^ r.level + 2 ^ r.level = c + 1 := by
          have carried := add_eq_of_carrying carrying (Nat.zero_le r.level)
          rw [Nat.pow_zero] at carried
          rw [carried, Nat.add_mul, Nat.one_mul]
        have lt := Nat.lt_div_mul_add (a := p) (Nat.two_pow_pos r.level)
        rw [position, total] at lt
        omega
    | false =>
        rcases carried.waiting tracked with ⟨jm, _, set, _, position, _⟩ | ⟨_, matchlevel, path⟩
        · -- leaf `p` would lie in a pending block, left of `c`
          obtain ⟨q, quotientJm⟩ : ∃ q, c / 2 ^ jm = q := ⟨_, rfl⟩
          have odd : q % 2 = 1 := by rw [← quotientJm]; exact (testBit_iff_odd c jm).mp set
          have earlier : p / 2 ^ jm < c / 2 ^ jm := by rw [position, quotientJm]; omega
          have := Nat.lt_of_div_lt_div earlier
          omega
        · exact ⟨by rw [if_neg Bool.false_ne_true]; exact matchlevel, path⟩

variable (hash) in
theorem processLeaves_spec {s : MerkleState H} (small : L.length < 2 ^ 32) (within : c ≤ L.length)
    (inv : Processed hash L zero p c s) :
    ∃ s', processLeaves hash p s (L.drop c) = some s' ∧ Processed hash L zero p L.length s' := by
  -- induction on the number of leaves left
  obtain ⟨d, left⟩ : ∃ d, L.length - c = d := ⟨_, rfl⟩
  induction d generalizing c s with
  | zero =>
      have done : c = L.length := by omega
      subst done
      rw [List.drop_length]
      exact ⟨s, rfl, inv⟩
  | succ d ih =>
      have below : c < L.length := by omega
      obtain ⟨s', step, inv'⟩ := processLeaf_spec inv below small
      obtain ⟨s'', rest, final⟩ := ih (by omega) inv' (by omega)
      refine ⟨s'', ?_, final⟩
      rw [List.drop_eq_getElem_cons below, processLeaves, ← List.getD_eq_getElem L zero below, step]
      exact rest

end Leaves

section Sweep

omit [DecidableEq H] in
theorem skip_spec {s : MerkleState H} {n : ℕ} (nonempty : 0 < n) (small : n < 2 ^ 32)
    (count : s.count = n) :
    ∃ k, whileBitClear id { s with level := 0 } = some { s with level := k } ∧
      n.testBit k = true ∧ ∀ i < k, n.testBit i = false := by
  obtain ⟨t, set, _⟩ := Nat.exists_most_significant_bit (Nat.pos_iff_ne_zero.mp nonempty)
  have top : t < 32 := by
    apply Nat.lt_of_not_le
    intro high
    have least := Nat.ge_two_pow_of_testBit set
    have wide : 2 ^ 32 ≤ 2 ^ t := Nat.pow_le_pow_right (by decide) high
    omega
  let P : MerkleState H → Prop := fun q =>
    ∃ k, q = { s with level := k } ∧ ∀ i < k, n.testBit i = false
  have step : ∀ q, P q → q.level < 32 → q.count.testBit q.level = false →
      P { id q with level := q.level + 1 } := by
    rintro q ⟨k, rfl, clear⟩ _ bit
    refine ⟨k + 1, rfl, fun i below => ?_⟩
    rcases Nat.lt_succ_iff_lt_or_eq.mp below with lower | rfl
    · exact clear i lower
    · rw [← count]
      exact bit
  obtain ⟨r, run, ⟨k, rfl, clear⟩, _, set'⟩ :=
    whileBitClear_run id P (fun _ => rfl) step { s with level := 0 } t
      ⟨0, rfl, fun i below => absurd below (Nat.not_lt_zero i)⟩ (Nat.zero_le t) top
      (by rw [← count] at set; exact set)
  exact ⟨k, run, by rw [← count]; exact set', clear⟩

variable (hash) in
/-- The sweep at height `level`: `count` is the level padded to an even number of nodes, an odd
number of them, `h` is the last one, and above `level` `inner` holds the pending left subtrees,
one for each set bit of the leaf count. -/
structure Sweeping (L : List H) (zero : H) (p : ℕ) (s : MerkleState H) : Prop where
  count : s.count = width L.length s.level * 2 ^ s.level
  odd : width L.length s.level % 2 = 1
  top : s.level ≤ Nat.clog 2 L.length
  current : s.h = node hash L zero s.level (width L.length s.level - 1)
  inner : ∀ j, s.level < j → L.length.testBit j = true →
    s.inner j = node hash L zero j (L.length / 2 ^ j - 1)
  tracking : s.matchh = true →
    p / 2 ^ s.level = width L.length s.level - 1 ∧ s.path = siblings hash L zero p s.level
  waiting : s.matchh = false → ∃ jm : ℕ, s.level < jm ∧ L.length.testBit jm = true ∧
    s.matchlevel = jm ∧ p / 2 ^ jm = L.length / 2 ^ jm - 1 ∧ s.path = siblings hash L zero p jm

variable {L : List H} {zero : H} {p : ℕ}

omit [DecidableEq H] in
theorem Sweeping.count_div {s : MerkleState H} (inv : Sweeping hash L zero p s) {j : ℕ}
    (above : s.level < j) : s.count / 2 ^ j = L.length / 2 ^ j := by
  rw [inv.count]
  exact width_mul_div inv.odd above

omit [DecidableEq H] in
theorem Sweeping.count_testBit {s : MerkleState H} (inv : Sweeping hash L zero p s) {j : ℕ}
    (above : s.level < j) : s.count.testBit j = L.length.testBit j := by
  rw [Nat.testBit_eq_decide_div_mod_eq, Nat.testBit_eq_decide_div_mod_eq, inv.count_div above]

omit [DecidableEq H] in
theorem Sweeping.below_top {s : MerkleState H} (inv : Sweeping hash L zero p s)
    (more : s.count ≠ 2 ^ s.level) : s.level < Nat.clog 2 L.length := by
  apply Nat.lt_of_not_le
  intro atTop
  have narrow : width L.length s.level ≤ 1 := (width_le_one_iff_clog_le _).mpr atTop
  have one : width L.length s.level = 1 := by
    have := inv.odd
    omega
  exact more (by rw [inv.count, one, Nat.one_mul])

omit [DecidableEq H] in
theorem Sweeping.raise_le {s : MerkleState H} (inv : Sweeping hash L zero p s)
    (more : s.count ≠ 2 ^ s.level) : s.count + 2 ^ s.level ≤ 2 ^ Nat.clog 2 L.length := by
  have fits := width_mul_le (Nat.succ_le_of_lt (inv.below_top more))
  obtain ⟨w, last⟩ : ∃ w, width L.length s.level = w := ⟨_, rfl⟩
  have odd : w % 2 = 1 := by
    rw [← last]
    exact inv.odd
  have raised : s.count + 2 ^ s.level = (w + 1) / 2 * 2 ^ (s.level + 1) := by
    rw [inv.count, last, Nat.pow_succ, Nat.mul_comm (2 ^ s.level) 2, ← Nat.mul_assoc,
      Nat.div_mul_cancel (by omega : 2 ∣ w + 1), Nat.add_mul, Nat.one_mul]
  rw [raised, ← last, ← width_succ]
  exact fits

omit [DecidableEq H] in
theorem Processed.sweeping {s : MerkleState H} {k : ℕ}
    (inv : Processed hash L zero p L.length s) (position : p < L.length)
    (set : L.length.testBit k = true) (clear : ∀ i < k, L.length.testBit i = false) :
    Sweeping hash L zero p
      { s with level := k, h := s.inner k, matchh := decide (s.matchlevel = k) } := by
  have divides : 2 ^ k ∣ L.length := Nat.dvd_of_mod_eq_zero (mod_two_pow_eq_zero clear)
  have odd : width L.length k % 2 = 1 := by
    rw [width_of_dvd divides]
    exact (testBit_iff_odd _ k).mp set
  obtain ⟨jm, setJm, matchlevel, quotient, path⟩ := inv.matched position
  have atLeast : k ≤ jm := by
    apply Nat.le_of_not_lt
    intro lower
    rw [clear jm lower] at setJm
    cases setJm
  refine ⟨?_, odd, ?_, ?_, fun j _ set' => inv.inner j set', ?_, ?_⟩
  · show s.count = width L.length k * 2 ^ k
    rw [inv.count, width_of_dvd divides, Nat.div_mul_cancel divides]
  · show k ≤ Nat.clog 2 L.length
    apply (Nat.pow_le_pow_iff_right Nat.one_lt_two).mp
    exact (Nat.ge_two_pow_of_testBit set).trans (Nat.le_pow_clog Nat.one_lt_two _)
  · show s.inner k = node hash L zero k (width L.length k - 1)
    rw [inv.inner k set, width_of_dvd divides]
  · intro tracked
    have here : jm = k := by
      have equal := of_decide_eq_true tracked
      rw [matchlevel] at equal
      exact_mod_cast equal
    subst here
    exact ⟨by rw [quotient, width_of_dvd divides], path⟩
  · intro untracked
    have elsewhere : jm ≠ k := by
      intro here
      exact of_decide_eq_false untracked (by rw [matchlevel, here])
    exact ⟨jm, show k < jm by omega, setJm, matchlevel, quotient, path⟩

omit [DecidableEq H] in
theorem Sweeping.twin {s : MerkleState H} (inv : Sweeping hash L zero p s) :
    Carrying hash L zero p s.count (s.level + 1)
      { (if s.matchh then { s with path := s.path ++ [s.h] } else s) with
        h := hash s.h s.h
        count := (s.count + 2 ^ s.level) % 2 ^ 32
        level := s.level + 1 } := by
  -- the number of nodes of the level, named for `omega`
  obtain ⟨w, last⟩ : ∃ w, width L.length s.level = w := ⟨_, rfl⟩
  have odd : w % 2 = 1 := by
    rw [← last]
    exact inv.odd
  have half : s.count / 2 ^ (s.level + 1) = (w - 1) / 2 := by
    rw [inv.count, last, Nat.pow_succ, Nat.mul_comm (2 ^ s.level) 2,
      Nat.mul_div_mul_right _ _ (Nat.two_pow_pos s.level)]
    omega
  have alone : siblingIndex L.length s.level (w - 1) = w - 1 := by
    rw [siblingIndex, if_pos (by omega), if_neg (by omega)]
  have paired : hash s.h s.h = node hash L zero (s.level + 1) ((w - 1) / 2) := by
    rw [node_succ_div_two L zero s.level (by omega), if_pos (by omega), alone, inv.current, last]
  refine ⟨rfl, ?_, ?_, ?_, ?_, ?_⟩
  · show hash s.h s.h = _
    rw [half]
    exact paired
  · rw [half, width_succ, last]
    omega
  · intro j above set
    rw [inv.count_testBit (show s.level < j by omega)] at set
    show (if s.matchh then { s with path := s.path ++ [s.h] } else s).inner j = _
    rw [inv.count_div (show s.level < j by omega), ← inv.inner j (by omega) set]
    split <;> rfl
  · cases matched : s.matchh with
    | false =>
        intro tracked
        rw [if_neg Bool.false_ne_true] at tracked
        change s.matchh = true at tracked
        rw [matched] at tracked
        cases tracked
    | true =>
        intro _
        obtain ⟨position, path⟩ := inv.tracking matched
        rw [last] at position
        rw [if_pos rfl, half, siblings_succ, div_two_pow_succ, position, alone]
        exact ⟨rfl, by show s.path ++ [s.h] = _; rw [path, inv.current, last]⟩
  · cases matched : s.matchh with
    | true =>
        intro untracked
        rw [if_pos rfl] at untracked
        cases untracked
    | false =>
        intro _
        obtain ⟨jm, above, set, matchlevel, position, path⟩ := inv.waiting matched
        rw [if_neg Bool.false_ne_true]
        refine Or.inl ⟨jm, above, ?_, matchlevel, ?_, path⟩
        · rw [inv.count_testBit above]
          exact set
        · rw [inv.count_div above]
          exact position

omit [DecidableEq H] in
theorem Sweeping.next {s r : MerkleState H} (inv : Sweeping hash L zero p s)
    (position : p < L.length) (more : s.count ≠ 2 ^ s.level)
    (carried : Carrying hash L zero p s.count r.level r) (count : r.count = s.count + 2 ^ s.level)
    (clear : s.count.testBit r.level = false)
    (carrying : s.count % 2 ^ r.level = 2 ^ r.level - 2 ^ s.level)
    (higher : s.level + 1 ≤ r.level) (inner : r.inner = s.inner) : Sweeping hash L zero p r := by
  have above : s.level < r.level := by omega
  -- the quotient of the leaf count at the new height, named for `omega`
  obtain ⟨q, quotient⟩ : ∃ q, L.length / 2 ^ r.level = q := ⟨_, rfl⟩
  have same : s.count / 2 ^ r.level = q := by rw [inv.count_div above, quotient]
  have even : q % 2 = 0 := by
    rw [← same]
    exact (testBit_eq_false_iff_even _ _).mp clear
  have rough : ¬2 ^ r.level ∣ L.length := fun divides =>
    not_dvd_of_width_odd inv.odd (Nat.dvd_trans (Nat.pow_dvd_pow 2 higher) divides)
  have widthR : width L.length r.level = q + 1 := by rw [width_of_not_dvd rough, quotient]
  refine ⟨?_, ?_, ?_, ?_, ?_, ?_, ?_⟩
  · rw [count, add_eq_of_carrying carrying (by omega), same, widthR]
  · rw [widthR]
    omega
  · -- a carry past the top would raise the count over `2 ^ ⌈log₂ n⌉`
    apply Nat.le_of_not_lt
    intro high
    have fits := inv.raise_le more
    have low := Nat.mod_le s.count (2 ^ r.level)
    rw [carrying] at low
    have wide : 2 ^ (Nat.clog 2 L.length + 1) ≤ 2 ^ r.level := Nat.pow_le_pow_right (by decide) high
    have gap : 2 ^ s.level < 2 ^ Nat.clog 2 L.length :=
      Nat.pow_lt_pow_right (by decide) (inv.below_top more)
    rw [Nat.pow_succ] at wide
    omega
  · rw [carried.current, same, widthR, Nat.add_sub_cancel]
  · intro j _ set
    rw [inner]
    exact inv.inner j (by omega) set
  · intro tracked
    obtain ⟨position', path⟩ := carried.tracking tracked
    rw [same] at position'
    exact ⟨by rw [position', widthR, Nat.add_sub_cancel], path⟩
  · intro untracked
    rcases carried.waiting untracked with ⟨jm, atLeast, set, matchlevel, position', path⟩ |
        ⟨later, _, _⟩
    · have beyond : r.level < jm := by
        rcases Nat.lt_or_eq_of_le atLeast with beyond | same'
        · exact beyond
        · rw [← same', clear] at set
          cases set
      rw [inv.count_testBit (show s.level < jm by omega)] at set
      rw [inv.count_div (show s.level < jm by omega)] at position'
      exact ⟨jm, beyond, set, matchlevel, position', path⟩
    · -- leaf `p` lies left of the padded level
      have := le_width_mul L.length s.level
      rw [← inv.count] at this
      omega

omit [DecidableEq H] in
theorem Sweeping.done {s : MerkleState H} (inv : Sweeping hash L zero p s) (nonempty : L ≠ [])
    (finished : s.count = 2 ^ s.level) :
    s.level = Nat.clog 2 L.length ∧ s.h = root hash zero L ∧ s.path = path hash L zero p := by
  have one : width L.length s.level = 1 := by
    have single := inv.count
    rw [finished] at single
    exact (Nat.eq_of_mul_eq_mul_right (Nat.two_pow_pos _) (by rw [Nat.one_mul]; exact single)).symm
  have top : s.level = Nat.clog 2 L.length :=
    le_antisymm inv.top ((width_le_one_iff_clog_le _).mp one.le)
  refine ⟨top, ?_, ?_⟩
  · rw [inv.current, one, Nat.sub_self, root_eq_node zero nonempty, top]
  · cases tracked : s.matchh with
    | true => rw [(inv.tracking tracked).2, path, top]
    | false =>
        -- a pending subtree above the top is impossible
        obtain ⟨jm, above, set, _⟩ := inv.waiting tracked
        have least := Nat.ge_two_pow_of_testBit set
        have most := Nat.le_pow_clog Nat.one_lt_two L.length
        have wide : 2 ^ (Nat.clog 2 L.length + 1) ≤ 2 ^ jm :=
          Nat.pow_le_pow_right (by decide) (by omega)
        rw [Nat.pow_succ] at wide
        have := Nat.two_pow_pos (Nat.clog 2 L.length)
        omega

end Sweep

section Run

omit [DecidableEq H] in
theorem sweep_of_carry {s r : MerkleState H} (inside : s.level < 32)
    (more : s.count ≠ 2 ^ s.level)
    (run : whileBitClear (sweepStep hash)
      { (if s.matchh then { s with path := s.path ++ [s.h] } else s) with
        h := hash s.h s.h
        count := (s.count + 2 ^ s.level) % 2 ^ 32
        level := s.level + 1 } = some r) : sweep hash s = sweep hash r := by
  rw [sweep, if_pos inside, if_neg more]
  split
  next found =>
    rw [run] at found
    cases found
  next t found =>
    rw [run] at found
    cases found
    rfl

omit [DecidableEq H] in
theorem sweep_of_no_carry {s : MerkleState H} (inside : s.level < 32)
    (more : s.count ≠ 2 ^ s.level)
    (run : whileBitClear (sweepStep hash)
      { (if s.matchh then { s with path := s.path ++ [s.h] } else s) with
        h := hash s.h s.h
        count := (s.count + 2 ^ s.level) % 2 ^ 32
        level := s.level + 1 } = none) : sweep hash s = none := by
  rw [sweep, if_pos inside, if_neg more]
  split
  next => rfl
  next t found =>
    rw [run] at found
    cases found

variable {L : List H} {zero : H} {p : ℕ}

omit [DecidableEq H] in
variable (hash) in
theorem sweep_spec (small : L.length < 2 ^ 32) (position : p < L.length) :
    ∀ s, Sweeping hash L zero p s →
      (∀ r, sweep hash s = some r →
        Nat.clog 2 L.length < 32 ∧ r.h = root hash zero L ∧ r.path = path hash L zero p) ∧
      (Nat.clog 2 L.length < 32 → ∃ r, sweep hash s = some r) := by
  intro s
  -- induction on the heights left below `32`
  induction h : 32 - s.level using Nat.strong_induction_on generalizing s with
  | _ d ih => ?_
  intro inv
  have nonempty : L ≠ [] := List.ne_nil_of_length_pos (by omega)
  by_cases inside : s.level < 32
  swap
  · rw [sweep, if_neg inside]
    refine ⟨fun r returned => (by cases returned), fun fits => ?_⟩
    have := inv.top
    omega
  by_cases finished : s.count = 2 ^ s.level
  · obtain ⟨atTop, isRoot, isPath⟩ := inv.done nonempty finished
    rw [sweep, if_pos inside, if_pos finished]
    refine ⟨?_, fun _ => ⟨s, rfl⟩⟩
    intro r returned
    cases returned
    exact ⟨by omega, isRoot, isPath⟩
  have raised := inv.raise_le finished
  have odd := inv.odd
  have carrying : s.count % 2 ^ (s.level + 1) = 2 ^ (s.level + 1) - 2 ^ s.level := by
    rw [inv.count]
    exact carrying_of_odd_mul odd
  by_cases wraps : s.count + 2 ^ s.level < 2 ^ 32
  · obtain ⟨r, run, carried, rCount, clear, carrying', higher, rInner⟩ :=
      carry_run (sweepStep hash) (fun _ => rfl) inv.twin carrying (Nat.le_succ _)
        (Nat.mod_eq_of_lt wraps) wraps
    have inner : r.inner = s.inner := by
      rw [rInner]
      cases s.matchh <;> rfl
    rw [sweep_of_carry inside finished run]
    exact ih (32 - r.level) (by omega) r rfl
      (inv.next position finished carried rCount clear carrying' higher inner)
  · -- above `2 ^ 31` leaves the count reaches `2 ^ 32` and wraps to `0`
    have top : 2 ^ Nat.clog 2 L.length ≤ 2 ^ 32 :=
      Nat.pow_le_pow_right (by decide) (Nat.clog_le_of_le_pow small.le)
    have zero' : (s.count + 2 ^ s.level) % 2 ^ 32 = 0 := by
      rw [show s.count + 2 ^ s.level = 2 ^ 32 by omega, Nat.mod_self]
    have stuck := whileBitClear_eq_none (sweepStep hash) (sweepStep_count hash)
      { (if s.matchh then { s with path := s.path ++ [s.h] } else s) with
        h := hash s.h s.h
        count := (s.count + 2 ^ s.level) % 2 ^ 32
        level := s.level + 1 }
      (fun i _ _ => by show ((s.count + 2 ^ s.level) % 2 ^ 32).testBit i = false
                       rw [zero', Nat.zero_testBit])
    rw [sweep_of_no_carry inside finished stuck]
    refine ⟨fun r returned => (by cases returned), fun fits => ?_⟩
    have narrow : 2 ^ Nat.clog 2 L.length < 2 ^ 32 := Nat.pow_lt_pow_right (by decide) fits
    omega

end Run

section Computation

variable {L : List H} {p : ℕ}

variable (hash) in
theorem merkleComputation_spec (zero : H) (small : L.length < 2 ^ 32) (position : p < L.length) :
    (∀ result, merkleComputation hash zero L p = some result →
      result.1 = root hash zero L ∧ result.2.2 = path hash L zero p) ∧
    (Nat.clog 2 L.length < 32 ↔ ∃ result, merkleComputation hash zero L p = some result) := by
  have nonempty : L.length ≠ 0 := by omega
  obtain ⟨s, leaves, processed⟩ :=
    processLeaves_spec hash small (Nat.zero_le _) (processed_zero hash)
  rw [List.drop_zero] at leaves
  obtain ⟨k, run, set, clear⟩ := skip_spec (Nat.pos_of_ne_zero nonempty) small processed.count
  have unfolded : merkleComputation hash zero L p =
      (sweep hash { s with level := k, h := s.inner k, matchh := decide (s.matchlevel = k) }).map
        fun r => (r.h, r.mutated, r.path) := by
    rw [merkleComputation, if_neg nonempty, leaves, Option.bind_some, run, Option.bind_some]
  obtain ⟨sound, complete⟩ :=
    sweep_spec hash small position _ (processed.sweeping position set clear)
  rw [unfolded]
  refine ⟨?_, ⟨fun fits => ?_, ?_⟩⟩
  · intro result returned
    obtain ⟨r, swept, rfl⟩ := Option.map_eq_some_iff.mp returned
    obtain ⟨_, isRoot, isPath⟩ := sound r swept
    exact ⟨isRoot, isPath⟩
  · obtain ⟨r, swept⟩ := complete fits
    exact ⟨_, by rw [swept]; rfl⟩
  · rintro ⟨result, returned⟩
    obtain ⟨r, swept, -⟩ := Option.map_eq_some_iff.mp returned
    exact (sound r swept).1

variable (hash) in
theorem merkleComputation_path_folds_to_root (zero : H) (L : List H) (p : ℕ)
    (nonempty : 1 ≤ L.length) (small : L.length ≤ 2 ^ 31) (position : p < L.length) :
    ∃ root mutated path, merkleComputation hash zero L p = some (root, mutated, path) ∧
      transactionMerklePath hash zero L p = some path ∧
      root = (computeMerkleRoot hash zero L).1 ∧
      path.length = Nat.clog 2 L.length ∧
      computeMerkleRootFromPath hash zero L p path = some (computeMerkleRoot hash zero L).1 := by
  obtain ⟨sound, complete⟩ := merkleComputation_spec hash zero (by omega) position
  have fits : Nat.clog 2 L.length < 32 :=
    Nat.lt_succ_of_le (Nat.clog_le_of_le_pow small)
  obtain ⟨⟨root', mutated, path'⟩, returned⟩ := complete.mp fits
  have isRoot : root' = root hash zero L := (sound _ returned).1
  have isPath : path' = path hash L zero p := (sound _ returned).2
  have filled : L ≠ [] := List.ne_nil_of_length_pos nonempty
  refine ⟨root', mutated, path', returned, ?_, ?_, ?_, ?_⟩
  · rw [transactionMerklePath, computeMerklePath, returned]
    rfl
  · rw [computeMerkleRoot_fst zero filled]
    exact isRoot
  · rw [isPath]
    exact length_path L zero p
  · rw [computeMerkleRootFromPath, if_neg (by omega), computeMerkleRoot_fst zero filled, isPath,
      foldPath_path zero L position]

theorem merkleComputation_path_folds_at_three_leaves :
    1 ≤ [FreeMagma.of 1, FreeMagma.of 2, FreeMagma.of (3 : ℕ)].length ∧
      [FreeMagma.of 1, FreeMagma.of 2, FreeMagma.of (3 : ℕ)].length ≤ 2 ^ 31 ∧
      1 < [FreeMagma.of 1, FreeMagma.of 2, FreeMagma.of (3 : ℕ)].length ∧
      ∃ root mutated path,
        merkleComputation (· * ·) (FreeMagma.of 0)
          [FreeMagma.of 1, FreeMagma.of 2, FreeMagma.of 3] 1 = some (root, mutated, path) ∧
        transactionMerklePath (· * ·) (FreeMagma.of 0)
          [FreeMagma.of 1, FreeMagma.of 2, FreeMagma.of 3] 1 = some path ∧
        root = (computeMerkleRoot (· * ·) (FreeMagma.of 0)
          [FreeMagma.of 1, FreeMagma.of 2, FreeMagma.of 3]).1 ∧
        path.length = Nat.clog 2 [FreeMagma.of 1, FreeMagma.of 2, FreeMagma.of (3 : ℕ)].length ∧
        computeMerkleRootFromPath (· * ·) (FreeMagma.of 0)
            [FreeMagma.of 1, FreeMagma.of 2, FreeMagma.of 3] 1 path =
          some (computeMerkleRoot (· * ·) (FreeMagma.of 0)
            [FreeMagma.of 1, FreeMagma.of 2, FreeMagma.of 3]).1 :=
  ⟨by decide, by decide, by decide,
    merkleComputation_path_folds_to_root (· * ·) (FreeMagma.of 0)
      [FreeMagma.of 1, FreeMagma.of 2, FreeMagma.of 3] 1 (by decide) (by decide) (by decide)⟩

variable (hash) in
theorem merkleComputation_eq_none (zero : H) (small : L.length < 2 ^ 32)
    (position : p < L.length) (large : 2 ^ 31 < L.length) :
    merkleComputation hash zero L p = none := by
  obtain ⟨_, complete⟩ := merkleComputation_spec hash zero small position
  have high : ¬Nat.clog 2 L.length < 32 := by
    intro fits
    have := (Nat.clog_le_iff_le_pow Nat.one_lt_two).mp (Nat.le_of_lt_succ fits)
    omega
  cases returned : merkleComputation hash zero L p with
  | none => rfl
  | some result => exact absurd (complete.mpr ⟨result, returned⟩) high

theorem transactionMerklePath_none_above_two_pow_31 :
    (List.replicate (2 ^ 31 + 1) (FreeMagma.of (0 : ℕ))).length ≤ 2 ^ 32 - 1 ∧
      0 < (List.replicate (2 ^ 31 + 1) (FreeMagma.of (0 : ℕ))).length ∧
      transactionMerklePath (· * ·) (FreeMagma.of 0)
        (List.replicate (2 ^ 31 + 1) (FreeMagma.of (0 : ℕ))) 0 = none := by
  have length : (List.replicate (2 ^ 31 + 1) (FreeMagma.of (0 : ℕ))).length = 2 ^ 31 + 1 :=
    List.length_replicate
  refine ⟨by rw [length]; decide, by rw [length]; decide, ?_⟩
  rw [transactionMerklePath, computeMerklePath,
    merkleComputation_eq_none _ _ (by rw [length]; decide) (by rw [length]; decide)
      (by rw [length]; decide)]
  rfl

end Computation

end Freycoin.Consensus
