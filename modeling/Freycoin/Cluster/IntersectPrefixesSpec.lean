import Freycoin.Cluster.LinearizationChunkingSpec

/-! `IntersectPrefixes` returns the shortest intersection of a subset with a prefix of the chunks
that is not of lower feerate. -/

namespace Freycoin.Cluster

variable {P : Type} (arith : FeeFrac.Arith P) (depgraph : DepGraph)

/-- `C_0 ∪ ... ∪ C_(n-1)`: the first `n` chunks of a list together. -/
def unionUpTo (chunks : List SetInfo) (n : ℕ) : Finset ℕ :=
  (Finset.range n).biUnion fun k => (chunks.getD k default).transactions

/-- With the first `n` chunks, `S ∩ (C_0 ∪ ... ∪ C_(n-1))` is non-empty, a proper subset of `S`,
and not of strictly lower feerate than `S`. -/
def ImprovingPrefix (chunks : List SetInfo) (subset : SetInfo) (n : ℕ) : Prop :=
  (subset.transactions ∩ unionUpTo chunks n).Nonempty ∧
    subset.transactions ∩ unionUpTo chunks n ≠ subset.transactions ∧
    FeeFrac.lowerFeerate arith (depgraph.feeRateOfSet (subset.transactions ∩ unionUpTo chunks n)) subset.feerate = false

/-- `R` is `S` and no prefix of the chunks improves on `S`, or `R` is the intersection of `S` with
the shortest prefix that does. -/
def ShortestImprovingPrefix (chunks : List SetInfo) (subset result : SetInfo) : Prop :=
  (result = subset ∧ ∀ n ≤ chunks.length, ¬ImprovingPrefix arith depgraph chunks subset n) ∨
    ∃ n ≤ chunks.length, ImprovingPrefix arith depgraph chunks subset n ∧
      (∀ m < n, ¬ImprovingPrefix arith depgraph chunks subset m) ∧
      result = ⟨subset.transactions ∩ unionUpTo chunks n, depgraph.feeRateOfSet (subset.transactions ∩ unionUpTo chunks n)⟩

section Prefixes

variable {chunks : List SetInfo}

@[simp] theorem unionUpTo_zero : unionUpTo chunks 0 = ∅ := by
  rw [unionUpTo, Finset.range_zero, Finset.biUnion_empty]

theorem unionUpTo_succ (i : ℕ) :
    unionUpTo chunks (i + 1) = unionUpTo chunks i ∪ (chunks.getD i default).transactions := by
  rw [unionUpTo, unionUpTo, Finset.range_add_one, Finset.biUnion_insert, Finset.union_comm]

theorem unionUpTo_mono {i j : ℕ} (le : i ≤ j) : unionUpTo chunks i ⊆ unionUpTo chunks j :=
  Finset.biUnion_subset_biUnion_of_subset_left _ (Finset.range_subset_range.mpr le)

theorem disjoint_unionUpTo (disjoint : chunks.Pairwise fun a b => Disjoint a.transactions b.transactions)
    {i : ℕ} (inside : i < chunks.length) :
    Disjoint (unionUpTo chunks i) (chunks.getD i default).transactions := by
  rw [unionUpTo, Finset.disjoint_biUnion_left]
  intro k below
  have earlier : k < i := Finset.mem_range.mp below
  rw [List.getD_eq_getElem _ _ (earlier.trans inside), List.getD_eq_getElem _ _ inside]
  exact List.pairwise_iff_getElem.mp disjoint k i (earlier.trans inside) inside earlier

theorem not_improvingPrefix_zero (subset : SetInfo) : ¬ImprovingPrefix arith depgraph chunks subset 0 := by
  intro improving
  have empty := improving.1
  rw [unionUpTo_zero, Finset.inter_empty] at empty
  exact Finset.not_nonempty_empty empty

end Prefixes

theorem DepGraph.feeRateOfSet_union (g : DepGraph) {s t : Finset ℕ} (disjoint : Disjoint s t) :
    g.feeRateOfSet (s ∪ t) = g.feeRateOfSet s + g.feeRateOfSet t := by
  rw [DepGraph.feeRateOfSet_eq_sum, DepGraph.feeRateOfSet_eq_sum, DepGraph.feeRateOfSet_eq_sum,
    Finset.sum_union disjoint]

theorem List.getD_drop_eq_cons {α : Type*} {l rest : List α} {i : ℕ} {x d : α} (dropped : l.drop i = x :: rest) :
    i < l.length ∧ l.getD i d = x ∧ l.drop (i + 1) = rest := by
  have inside : i < l.length := by
    by_contra out
    rw [List.drop_eq_nil_of_le (Nat.le_of_not_lt out)] at dropped
    exact List.cons_ne_nil _ _ dropped.symm
  rw [List.drop_eq_getElem_cons inside, List.cons.injEq] at dropped
  exact ⟨inside, (List.getD_eq_getElem _ _ inside).trans dropped.1, dropped.2⟩

theorem pairwise_disjoint_runChunk {runs : List (List ℕ)} (nodup : runs.flatten.Nodup) :
    (runs.map (runChunk depgraph)).Pairwise fun a b => Disjoint a.transactions b.transactions := by
  rw [List.pairwise_map]
  exact (List.nodup_flatten.mp nodup).2.imp fun apart => List.disjoint_toFinset_iff_disjoint.mpr apart

theorem FeeFrac.lowerFeerate_int128_self (a : FeeFrac) : FeeFrac.lowerFeerate FeeFrac.int128 a a = false := by
  simp [FeeFrac.lowerFeerate, FeeFrac.int128]

theorem FeeFrac.lowerFeerate_fallback_self (a : FeeFrac) : FeeFrac.lowerFeerate FeeFrac.fallback a a = false := by
  rw [FeeFrac.lowerFeerate_fallback, FeeFrac.lowerFeerate_int128_self]

namespace LinearizationChunking

section Loop

variable {chunks : List SetInfo} (disjoint : chunks.Pairwise fun a b => Disjoint a.transactions b.transactions)
  {subset : SetInfo}

include disjoint in
theorem intersectLoop_spec (rest : List SetInfo) : ∀ (i : ℕ) (acc : SetInfo), chunks.drop i = rest →
    acc = ⟨subset.transactions ∩ unionUpTo chunks i, depgraph.feeRateOfSet (subset.transactions ∩ unionUpTo chunks i)⟩ →
    subset.transactions ∩ unionUpTo chunks i ≠ subset.transactions →
    (∀ n ≤ i, ¬ImprovingPrefix arith depgraph chunks subset n) →
    ShortestImprovingPrefix arith depgraph chunks subset (intersectLoop arith depgraph subset rest acc) := by
  induction rest with
  | nil =>
    -- past the last chunk: every prefix has been tried
    intro i acc dropped _ _ before
    refine Or.inl ⟨rfl, fun n within => before n ?_⟩
    have := List.drop_eq_nil_iff.mp dropped
    omega
  | cons chunk rest ih =>
    intro i acc dropped current short before
    obtain ⟨inside, visited, next⟩ := List.getD_drop_eq_cons (d := default) dropped
    have grown : subset.transactions ∩ unionUpTo chunks (i + 1) =
        acc.transactions ∪ chunk.transactions ∩ subset.transactions := by
      rw [current, unionUpTo_succ, visited, Finset.inter_union_distrib_left, Finset.inter_comm subset.transactions chunk.transactions]
    simp only [intersectLoop]
    by_cases meets : (chunk.transactions ∩ subset.transactions).Nonempty
    · rw [if_pos meets]
      by_cases full : acc.transactions ∪ chunk.transactions ∩ subset.transactions = subset.transactions
      · -- the intersection reaches the whole subset: no prefix from here on is proper
        rw [if_pos full]
        refine Or.inl ⟨rfl, fun n within improving => ?_⟩
        rcases Nat.lt_or_ge i n with later | early
        · apply improving.2.1
          apply Finset.Subset.antisymm Finset.inter_subset_left
          calc subset.transactions = subset.transactions ∩ unionUpTo chunks (i + 1) := by rw [grown, full]
            _ ⊆ subset.transactions ∩ unionUpTo chunks n := Finset.inter_subset_inter_left (unionUpTo_mono later)
        · exact before n early improving
      · rw [if_neg full]
        have apart : Disjoint acc.transactions (chunk.transactions ∩ subset.transactions) := by
          rw [current, ← visited]
          exact (disjoint_unionUpTo disjoint inside).mono Finset.inter_subset_right Finset.inter_subset_left
        have summed : acc.feerate + depgraph.feeRateOfSet (chunk.transactions ∩ subset.transactions) =
            depgraph.feeRateOfSet (subset.transactions ∩ unionUpTo chunks (i + 1)) := by
          rw [grown, DepGraph.feeRateOfSet_union depgraph apart, current]
        cases lower : FeeFrac.lowerFeerate arith (acc.feerate + depgraph.feeRateOfSet (chunk.transactions ∩ subset.transactions)) subset.feerate
        · -- not of lower feerate: the intersection with the first `i + 1` chunks is returned
          simp only [Bool.not_false, ↓reduceIte]
          refine Or.inr ⟨i + 1, inside, ⟨?_, ?_, ?_⟩, fun m below => before m (Nat.le_of_lt_succ below), ?_⟩
          · rw [grown]
            exact meets.mono Finset.subset_union_right
          · rw [grown]
            exact full
          · rw [← summed]
            exact lower
          · rw [summed, grown]
        · rw [if_neg (by decide)]
          apply ih (i + 1) _ next
          · rw [summed, grown]
          · rw [grown]
            exact full
          · intro n within
            rcases Nat.lt_or_ge n (i + 1) with early | last
            · exact before n (Nat.le_of_lt_succ early)
            · intro improving
              have same : n = i + 1 := le_antisymm within last
              rw [same] at improving
              have := improving.2.2
              rw [← summed, lower] at this
              cases this
    · -- the chunk misses the subset: the intersection does not grow
      rw [if_neg meets]
      have unchanged : subset.transactions ∩ unionUpTo chunks (i + 1) = subset.transactions ∩ unionUpTo chunks i := by
        rw [grown, Finset.not_nonempty_iff_eq_empty.mp meets, Finset.union_empty, current]
      apply ih (i + 1) acc next
      · rw [unchanged]
        exact current
      · rw [unchanged]
        exact short
      · intro n within
        rcases Nat.lt_or_ge n (i + 1) with early | last
        · exact before n (Nat.le_of_lt_succ early)
        · have same : n = i + 1 := le_antisymm within last
          rw [same]
          intro improving
          apply before i le_rfl
          rw [ImprovingPrefix, ← unchanged]
          exact improving

end Loop

theorem intersectPrefixes_shortest_improving (irreflexive : ∀ a, FeeFrac.lowerFeerate arith a a = false)
    {L : List ℕ} (nodup : L.Nodup) {c : LinearizationChunking} (reached : Reachable arith depgraph L c)
    {subset : SetInfo} (nonempty : subset.transactions.Nonempty)
    (summed : subset.feerate = depgraph.feeRateOfSet subset.transactions) :
    ShortestImprovingPrefix arith depgraph ((List.range c.numChunksLeft).map c.getChunk) subset
        (c.intersectPrefixes arith depgraph subset) ∧
      (c.intersectPrefixes arith depgraph subset).transactions.Nonempty ∧
      (c.intersectPrefixes arith depgraph subset).feerate =
        depgraph.feeRateOfSet (c.intersectPrefixes arith depgraph subset).transactions ∧
      FeeFrac.lowerFeerate arith (c.intersectPrefixes arith depgraph subset).feerate subset.feerate = false := by
  obtain ⟨runs, flat, -, built⟩ := chunking_runs arith depgraph (L.filter fun x => decide (x ∈ c.todo))
  have listed := (reached.holds arith depgraph nodup).getChunks_eq_chunking.trans built
  have disjoint : ((List.range c.numChunksLeft).map c.getChunk).Pairwise
      fun a b => Disjoint a.transactions b.transactions := by
    rw [listed]
    exact pairwise_disjoint_runChunk depgraph (flat ▸ nodup.filter _)
  -- the loop starts before the first chunk, with the empty accumulator
  have shortest : ShortestImprovingPrefix arith depgraph ((List.range c.numChunksLeft).map c.getChunk) subset
      (c.intersectPrefixes arith depgraph subset) := by
    apply intersectLoop_spec arith depgraph disjoint _ 0 default List.drop_zero
    · rw [unionUpTo_zero, Finset.inter_empty, DepGraph.feeRateOfSet_eq_sum, Finset.sum_empty]
      rfl
    · rw [unionUpTo_zero, Finset.inter_empty]
      exact nonempty.ne_empty.symm
    · intro n zero
      rw [Nat.le_zero.mp zero]
      exact not_improvingPrefix_zero arith depgraph subset
  refine ⟨shortest, ?_⟩
  rcases shortest with ⟨same, -⟩ | ⟨n, -, improving, -, result⟩
  · rw [same]
    exact ⟨nonempty, summed, irreflexive _⟩
  · rw [result]
    exact ⟨improving.1, rfl, improving.2.2⟩

theorem intersectPrefixes_cpfp_child :
    (∀ a, FeeFrac.lowerFeerate FeeFrac.int128 a a = false) ∧ [0, 1].Nodup ∧
      Reachable FeeFrac.int128 cpfpPair [0, 1] (init FeeFrac.int128 cpfpPair [0, 1]) ∧
      (SetInfo.ofPosition cpfpPair 1).transactions.Nonempty ∧
      (SetInfo.ofPosition cpfpPair 1).feerate = cpfpPair.feeRateOfSet (SetInfo.ofPosition cpfpPair 1).transactions ∧
      ShortestImprovingPrefix FeeFrac.int128 cpfpPair
        ((List.range (init FeeFrac.int128 cpfpPair [0, 1]).numChunksLeft).map (init FeeFrac.int128 cpfpPair [0, 1]).getChunk)
        (SetInfo.ofPosition cpfpPair 1)
        ((init FeeFrac.int128 cpfpPair [0, 1]).intersectPrefixes FeeFrac.int128 cpfpPair (SetInfo.ofPosition cpfpPair 1)) := by
  have nodup : [0, 1].Nodup := by decide
  have nonempty : (SetInfo.ofPosition cpfpPair 1).transactions.Nonempty := Finset.singleton_nonempty 1
  have summed : (SetInfo.ofPosition cpfpPair 1).feerate =
      cpfpPair.feeRateOfSet (SetInfo.ofPosition cpfpPair 1).transactions := by decide
  exact ⟨FeeFrac.lowerFeerate_int128_self, nodup, .init, nonempty, summed,
    (intersectPrefixes_shortest_improving FeeFrac.int128 cpfpPair FeeFrac.lowerFeerate_int128_self nodup .init
      nonempty summed).1⟩

end LinearizationChunking

end Freycoin.Cluster
