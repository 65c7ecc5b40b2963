import Freycoin.Cluster.LinearizeSpec

/-! `MergeLinearizations` of two topological linearizations is one. -/

namespace Freycoin.Cluster

open RelationOn ClosedSets

variable {g : DepGraph} {U : Finset ℕ} {fee : ℕ → FeeFrac} {R : ℕ → ℕ → Prop}
variable {P : Type} (arith : FeeFrac.Arith P)

theorem LinearizationChunking.Holds.numChunksLeft_pos_iff {L : List ℕ} {c : LinearizationChunking}
    (holds : LinearizationChunking.Holds arith g L c) : 0 < c.numChunksLeft ↔ c.todo.Nonempty := by
  obtain ⟨runs, flat, nonempty, listed⟩ := holds.runs arith
  have counted : runs.length = c.numChunksLeft := by
    simpa using (congrArg List.length listed).symm
  rw [← counted, List.length_pos_iff]
  constructor
  · intro some
    obtain ⟨run, rest, rfl⟩ := List.exists_cons_of_ne_nil some
    obtain ⟨x, member⟩ := List.exists_mem_of_ne_nil run (nonempty run List.mem_cons_self)
    have kept : x ∈ L.filter fun x => decide (x ∈ c.todo) := by
      rw [← flat, List.flatten_cons]
      exact List.mem_append_left _ member
    exact ⟨x, of_decide_eq_true (List.mem_filter.mp kept).2⟩
  · rintro ⟨x, member⟩ empty
    have kept : x ∈ L.filter fun x => decide (x ∈ c.todo) :=
      List.mem_filter.mpr ⟨List.mem_toFinset.mp (holds.todo_subset member), decide_eq_true member⟩
    rw [← flat, empty, List.flatten_nil] at kept
    exact List.not_mem_nil kept

variable [DecidableEq P]

namespace MergeState

/-- What every pass of `MergeLinearizations` keeps, for the inputs `lin1` and `lin2`: each
chunking still chunks what is left of its input, both have the same transactions left, and the
output holds the others, each after its ancestors. -/
structure Valid (g : DepGraph) (U : Finset ℕ) (lin1 lin2 : List ℕ) (s : MergeState) : Prop where
  holds1 : LinearizationChunking.Holds arith g lin1 s.chunking1
  holds2 : LinearizationChunking.Holds arith g lin2 s.chunking2
  same : s.chunking2.todo = s.chunking1.todo
  linearized : Linearized g U s.chunking1.todo s.ret

variable {arith} {lin1 lin2 : List ℕ} {s : MergeState}
variable (rep : Represents g U fee R) (order : PartialOrderOn U R)
  (nodup1 : lin1.Nodup) (covers1 : lin1.toFinset = U) (preceded1 : PrecededByAncestors g lin1)
  (nodup2 : lin2.Nodup) (preceded2 : PrecededByAncestors g lin2)
include rep order nodup1 covers1 preceded1 nodup2 preceded2

theorem Valid.step (valid : Valid arith g U lin1 lin2 s) (positive : 0 < s.chunking1.todo.card) :
    ((s.step arith g).2 = false ∧ Valid arith g U lin1 lin2 (s.step arith g).1 ∧
        0 < (s.step arith g).1.chunking1.todo.card ∧ (s.step arith g).1.chunking1.todo.card < s.chunking1.todo.card) ∨
      ((s.step arith g).2 = true ∧ Linearized g U ∅ (s.step arith g).1.ret) := by
  have nonempty := Finset.card_pos.mp positive
  have agree1 : s.chunking1.todo = lin1.toFinset ∩ s.chunking1.todo :=
    (Finset.inter_eq_right.mpr valid.holds1.todo_subset).symm
  have agree2 : s.chunking2.todo = lin2.toFinset ∩ s.chunking1.todo := by
    rw [← valid.same]
    exact (Finset.inter_eq_right.mpr valid.holds2.todo_subset).symm
  -- while transactions are left, both inputs have a first chunk left, a candidate within them
  have first1 := valid.holds1.candidate_getChunk_zero arith nodup1 preceded1 agree1
    ((valid.holds1.numChunksLeft_pos_iff arith).mpr nonempty)
  have first2 := valid.holds2.candidate_getChunk_zero arith nodup2 preceded2 agree2
    ((valid.holds2.numChunksLeft_pos_iff arith).mpr (valid.same ▸ nonempty))
  rw [MergeState.step]
  set best := if FeeFrac.higherFeerate arith (s.chunking2.getChunk 0).feerate (s.chunking1.getChunk 0).feerate then
      s.chunking1.intersectPrefixes arith g (s.chunking2.getChunk 0)
    else s.chunking2.intersectPrefixes arith g (s.chunking1.getChunk 0) with best_def
  have chosen : Candidate g s.chunking1.todo best ∧ best.transactions.Nonempty := by
    rw [best_def]
    split_ifs
    · exact valid.holds1.candidate_intersectPrefixes arith nodup1 preceded1 agree1 first2.1 first2.2
    · exact valid.holds2.candidate_intersectPrefixes arith nodup2 preceded2 agree2 first1.1 first1.2
  have inside : s.chunking1.todo ⊆ U := covers1 ▸ valid.holds1.todo_subset
  have lin := valid.linearized.appendTopo rep order inside chosen.1.subset chosen.1.closed
  have holds1 := LinearizationChunking.holds_markDone arith g nodup1 valid.holds1 best.transactions
  have left1 := LinearizationChunking.markDone_todo arith g s.chunking1 best.transactions
  by_cases finished : (s.chunking1.markDone arith g best.transactions).numChunksLeft = 0
  · rw [if_pos finished]
    have empty : s.chunking1.todo \ best.transactions = ∅ := by
      rw [← left1, ← Finset.not_nonempty_iff_eq_empty, ← holds1.numChunksLeft_pos_iff arith, finished]
      exact Nat.lt_irrefl 0
    exact Or.inr ⟨rfl, empty ▸ lin⟩
  · rw [if_neg finished]
    have going := Nat.pos_of_ne_zero finished
    rw [holds1.numChunksLeft_pos_iff arith, left1] at going
    refine Or.inl ⟨rfl, ⟨holds1, LinearizationChunking.holds_markDone arith g nodup2 valid.holds2 _, ?_, ?_⟩, ?_, ?_⟩
    · rw [LinearizationChunking.markDone_todo, LinearizationChunking.markDone_todo, valid.same]
    · rw [left1]
      exact lin
    · rw [left1]
      exact going.card_pos
    · rw [left1]
      exact Finset.card_lt_card (Finset.sdiff_ssubset chosen.1.subset chosen.2)

end MergeState

variable {depgraph : DepGraph}

/-- On a graph built by `AddTransaction` and `AddDependencies`, `MergeLinearizations` of two
linearizations that list every position once, each after its ancestors, returns one too, with
either build of the feerate comparisons. -/
theorem mergeLinearizations_topological {size : ℕ} (built : Reachable size depgraph) {lin1 lin2 : List ℕ}
    (nodup1 : lin1.Nodup) (covers1 : lin1.toFinset = depgraph.positions) (preceded1 : PrecededByAncestors depgraph lin1)
    (nodup2 : lin2.Nodup) (covers2 : lin2.toFinset = depgraph.positions) (preceded2 : PrecededByAncestors depgraph lin2) :
    (mergeLinearizations arith depgraph lin1 lin2).Nodup ∧
      (mergeLinearizations arith depgraph lin1 lin2).toFinset = depgraph.positions ∧
      PrecededByAncestors depgraph (mergeLinearizations arith depgraph lin1 lin2) := by
  obtain ⟨U, fee, R, order, rep⟩ := built.represents
  rw [mergeLinearizations, rep.positions]
  rw [rep.positions] at covers1 covers2
  split_ifs with empty
  · -- no transactions: nothing to output
    have none : U = ∅ := by
      rw [← rep.positions]
      exact Finset.card_eq_zero.mp empty
    exact ⟨List.nodup_nil, none ▸ rfl, fun k inside => absurd inside (Nat.not_lt_zero k)⟩
  · have start : MergeState.Valid arith depgraph U lin1 lin2
        ⟨[], LinearizationChunking.init arith depgraph lin1, LinearizationChunking.init arith depgraph lin2⟩ :=
      ⟨LinearizationChunking.holds_init arith depgraph, LinearizationChunking.holds_init arith depgraph,
        by rw [LinearizationChunking.init_todo, LinearizationChunking.init_todo, covers1, covers2],
        by rw [LinearizationChunking.init_todo, covers1]; exact linearized_nil⟩
    -- every pass keeps the invariant and takes a transaction out, or breaks with none left
    have lin := FuelLoop.run_done (MergeState.step arith depgraph) (MergeState.loop arith depgraph) (fun _ _ => rfl)
      (MergeState.Valid arith depgraph U lin1 lin2) (fun s => Linearized depgraph U ∅ s.ret)
      (fun s => s.chunking1.todo.card)
      (fun _ valid positive => valid.step rep order nodup1 covers1 preceded1 nodup2 preceded2 positive)
      depgraph.txCount _ start
      (by rw [LinearizationChunking.init_todo, covers1, ← rep.positions]; exact Nat.pos_of_ne_zero empty)
      (by rw [LinearizationChunking.init_todo, covers1, ← rep.positions]; rfl)
    exact ⟨lin.nodup, lin.covers.trans Finset.sdiff_empty, lin.preceded⟩

theorem mergeLinearizations_topological_chainAndSingle :
    PrecededByAncestors chainAndSingle [0, 1, 2] ∧ PrecededByAncestors chainAndSingle [2, 0, 1] ∧
      (mergeLinearizations FeeFrac.int128 chainAndSingle [0, 1, 2] [2, 0, 1]).Nodup ∧
      (mergeLinearizations FeeFrac.int128 chainAndSingle [0, 1, 2] [2, 0, 1]).toFinset = chainAndSingle.positions ∧
      PrecededByAncestors chainAndSingle (mergeLinearizations FeeFrac.int128 chainAndSingle [0, 1, 2] [2, 0, 1]) := by
  have preceded1 : PrecededByAncestors chainAndSingle [0, 1, 2] := by
    unfold PrecededByAncestors
    decide
  have preceded2 : PrecededByAncestors chainAndSingle [2, 0, 1] := by
    unfold PrecededByAncestors
    decide
  exact ⟨preceded1, preceded2, mergeLinearizations_topological FeeFrac.int128 reachable_chainAndSingle
    (by decide) (by decide) preceded1 (by decide) (by decide) preceded2⟩

end Freycoin.Cluster
