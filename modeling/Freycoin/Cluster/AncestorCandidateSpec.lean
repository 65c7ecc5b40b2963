import Freycoin.Cluster.CandidateFinder
import Freycoin.Cluster.DepGraphRuns
import Freycoin.Cluster.FeeFracGroup
import Freycoin.Cluster.FeeFracSpec

/-! `AncestorCandidateFinder` keeps, for every remaining transaction, the feerate of its remaining
ancestors. -/

namespace Freycoin.Cluster

open RelationOn

section Sums

theorem foldl_add_eq_add_sum {α M : Type*} [AddCommMonoid M] (f : α → M) (l : List α) (a : M) :
    l.foldl (fun ret x => ret + f x) a = a + (l.map f).sum := by
  induction l generalizing a with
  | nil => simp
  | cons x l ih => rw [List.foldl_cons, ih, List.map_cons, List.sum_cons, add_assoc]

theorem toFinset_members (s : Finset ℕ) : (members s).toFinset = s := by
  ext x
  rw [List.mem_toFinset, mem_members]

theorem DepGraph.feeRateOfSet_eq_sum (g : DepGraph) (elems : Finset ℕ) :
    g.feeRateOfSet elems = ∑ j ∈ elems, g.feeRate j := by
  rw [DepGraph.feeRateOfSet, foldl_add_eq_add_sum, FeeFrac.default_eq_zero, zero_add,
    ← List.sum_toFinset _ (nodup_members elems), toFinset_members]

theorem firstPosition_spec {s : Finset ℕ} (nonempty : s.Nonempty) :
    firstPosition s ∈ s ∧ ∀ j ∈ s, firstPosition s ≤ j := by
  obtain ⟨x, member⟩ := nonempty
  have sorted := sorted_members s
  cases listed : members s with
  | nil =>
      rw [← mem_members, listed] at member
      exact absurd member List.not_mem_nil
  | cons h t =>
      rw [listed, List.pairwise_cons] at sorted
      rw [firstPosition, listed, List.headD_cons]
      constructor
      · rw [← mem_members, listed]
        exact List.mem_cons_self
      · intro j inside
        rw [← mem_members, listed] at inside
        rcases List.mem_cons.mp inside with same | later
        · rw [same]
        · exact (sorted.1 j later).le

end Sums

namespace AncestorCandidateFinder

variable {g : DepGraph} {U : Finset ℕ} {fee : ℕ → FeeFrac} {R : ℕ → ℕ → Prop}

section Graph

variable (rep : Represents g U fee R) (order : PreorderOn U R)
include rep

theorem ancestors_subset {i : ℕ} (member : i ∈ U) : g.ancestors i ⊆ U :=
  fun j ancestor => ((rep.ancestors i member j).mp ancestor).1

include order

theorem ancestors_subset_of_mem {i j : ℕ} (member : i ∈ U) (ancestor : j ∈ g.ancestors i) :
    g.ancestors j ⊆ g.ancestors i := by
  obtain ⟨inside, below⟩ := (rep.ancestors i member j).mp ancestor
  intro k further
  obtain ⟨kInside, kBelow⟩ := (rep.ancestors j inside k).mp further
  exact (rep.ancestors i member k).mpr ⟨kInside, order.trans kBelow below⟩

omit order in
theorem mem_descendants_iff {i j : ℕ} (member : i ∈ U) (inside : j ∈ U) :
    j ∈ g.descendants i ↔ i ∈ g.ancestors j := by
  rw [rep.descendants i member j, rep.ancestors j inside i]
  exact ⟨fun ⟨_, above⟩ => ⟨member, above⟩, fun ⟨_, above⟩ => ⟨inside, above⟩⟩

end Graph

section Construct

/-- The constructor's vector after visiting `D`: its length, and the ancestor-set feerate of
each visited position. -/
def AncestorsSummed (g : DepGraph) (D : Finset ℕ) (feerates : List FeeFrac) : Prop :=
  feerates.length = g.positionRange ∧ ∀ j ∈ D, feerates.getD j default = ∑ k ∈ g.ancestors j, g.feeRate k

variable (rep : Represents g U fee R) (order : PreorderOn U R)
include rep order

theorem precompute_value {D : Finset ℕ} {feerates : List FeeFrac} {i : ℕ} (member : i ∈ U)
    (visited : ∀ j ∈ U, j < i → j ∈ D) (summed : AncestorsSummed g D feerates) :
    (if firstPosition (g.ancestors i) < i then
        (feerates.getD (firstPosition (g.ancestors i)) default,
          g.ancestors i \ g.ancestors (firstPosition (g.ancestors i)))
      else (default, g.ancestors i)).1 +
      g.feeRateOfSet (if firstPosition (g.ancestors i) < i then
        (feerates.getD (firstPosition (g.ancestors i)) default,
          g.ancestors i \ g.ancestors (firstPosition (g.ancestors i)))
      else (default, g.ancestors i)).2 = ∑ k ∈ g.ancestors i, g.feeRate k := by
  obtain ⟨least, -⟩ := firstPosition_spec ⟨i, rep.self_ancestor order member⟩
  split
  · -- the first ancestor comes earlier: its sum is stored, and its ancestors are ours
    rename_i earlier
    have firstInside := ancestors_subset rep member least
    have within := ancestors_subset_of_mem rep order member least
    rw [summed.2 _ (visited _ firstInside earlier), DepGraph.feeRateOfSet_eq_sum, add_comm]
    exact Finset.sum_sdiff within
  · rw [FeeFrac.default_eq_zero, zero_add, DepGraph.feeRateOfSet_eq_sum]

theorem precompute_summed {D : Finset ℕ} {feerates : List FeeFrac} {i : ℕ} (member : i ∈ U)
    (fresh : i ∉ D) (visited : ∀ j ∈ U, j < i → j ∈ D) (summed : AncestorsSummed g D feerates) :
    AncestorsSummed g (insert i D) (precompute g feerates i) := by
  have inRange : i < feerates.length := by
    rw [summed.1, DepGraph.positionRange]
    exact rep.lt_length member
  constructor
  · rw [precompute, List.length_set, summed.1]
  · intro j member'
    rw [precompute]
    rcases Finset.mem_insert.mp member' with same | old
    · rw [same, getD_set_of_lt _ _ inRange]
      exact precompute_value rep order member visited summed
    · have other : i ≠ j := fun same => fresh (same ▸ old)
      rw [getD_set_of_ne _ _ other]
      exact summed.2 j old

theorem init_summed : AncestorsSummed g U (init g).ancestorSetFeerates := by
  apply OrderedLoop.foldl_sorted_all U (AncestorsSummed g) (precompute g)
  · intro D feerates i member fresh visited summed
    exact precompute_summed rep order member fresh visited summed
  · exact sorted_members _
  · intro i
    rw [mem_members, rep.positions]
  · exact ⟨List.length_replicate, fun j member => absurd member (Finset.notMem_empty j)⟩

end Construct

section MarkDone

variable (g)

theorem length_subtractDescendants (todo : Finset ℕ) (feerates : List FeeFrac) (i : ℕ) :
    (subtractDescendants g todo feerates i).length = feerates.length := by
  rw [subtractDescendants]
  exact length_foldl_modify (fun _ => (· - g.feeRate i)) _ feerates

theorem getD_subtractDescendants (todo : Finset ℕ) (feerates : List FeeFrac) (i : ℕ) {j : ℕ}
    (inRange : j < feerates.length) : (subtractDescendants g todo feerates i).getD j default =
      if j ∈ g.descendants i ∩ todo then feerates.getD j default - g.feeRate i else feerates.getD j default := by
  rw [subtractDescendants, List.getD_eq_getElem?_getD, getElem?_foldl_modify _ _ (nodup_members _),
    List.getD_eq_getElem?_getD, List.getElem?_eq_getElem inRange]
  by_cases below : j ∈ g.descendants i ∩ todo
  · rw [if_pos (mem_members.mpr below), if_pos below]
    rfl
  · rw [if_neg (fun listed => below (mem_members.mp listed)), if_neg below]

theorem length_foldl_subtractDescendants (todo : Finset ℕ) (l : List ℕ) (feerates : List FeeFrac) :
    (l.foldl (subtractDescendants g todo) feerates).length = feerates.length := by
  induction l generalizing feerates with
  | nil => rfl
  | cons i rest ih => rw [List.foldl_cons, ih, length_subtractDescendants]

theorem getD_foldl_subtractDescendants (todo : Finset ℕ) (l : List ℕ) (nodup : l.Nodup) (feerates : List FeeFrac)
    {j : ℕ} (inRange : j < feerates.length) :
    (l.foldl (subtractDescendants g todo) feerates).getD j default =
      feerates.getD j default - ∑ i ∈ l.toFinset.filter (fun i => j ∈ g.descendants i ∩ todo), g.feeRate i := by
  induction l generalizing feerates with
  | nil => simp
  | cons i rest ih =>
      rw [List.nodup_cons] at nodup
      rw [List.foldl_cons, ih nodup.2 _ (by rw [length_subtractDescendants]; exact inRange),
        getD_subtractDescendants g todo feerates i inRange, List.toFinset_cons, Finset.filter_insert]
      split
      · rw [Finset.sum_insert (fun member => nodup.1 (List.mem_toFinset.mp (Finset.mem_filter.mp member).1)),
          sub_sub]
      · rfl

end MarkDone

/-- What the finder keeps: remaining positions of the graph, a vector over the position range,
and the feerate of the remaining ancestors of each remaining transaction. -/
structure Tracks (g : DepGraph) (f : AncestorCandidateFinder) : Prop where
  todo_subset : f.todo ⊆ g.positions
  length : f.ancestorSetFeerates.length = g.positionRange
  sums : ∀ i ∈ f.todo, f.ancestorSetFeerates.getD i default = ∑ j ∈ g.ancestors i ∩ f.todo, g.feeRate j

variable (rep : Represents g U fee R) (order : PreorderOn U R)
include rep order

theorem tracks_init : Tracks g (init g) where
  todo_subset := le_rfl
  length := (init_summed rep order).1
  sums := by
    intro i member
    have inside : i ∈ U := rep.positions ▸ member
    rw [(init_summed rep order).2 i inside, init, rep.positions,
      Finset.inter_eq_left.mpr (ancestors_subset rep inside)]

omit order in
theorem tracks_markDone {f : AncestorCandidateFinder} (tracks : Tracks g f) {select : Finset ℕ}
    (within : select ⊆ f.todo) : Tracks g (f.markDone g select) where
  todo_subset := fun i member => tracks.todo_subset (Finset.mem_sdiff.mp member).1
  length := by
    rw [markDone]
    dsimp only
    rw [length_foldl_subtractDescendants, tracks.length]
  sums := by
    intro j member
    obtain ⟨remaining, notChosen⟩ := Finset.mem_sdiff.mp member
    have jInside : j ∈ U := rep.positions ▸ tracks.todo_subset remaining
    have inRange : j < f.ancestorSetFeerates.length := by
      rw [tracks.length, DepGraph.positionRange]
      exact rep.lt_length jInside
    -- the removed transactions `j` descends from are its ancestors among them
    have removed : select.filter (fun i => j ∈ g.descendants i ∩ (f.todo \ select)) = g.ancestors j ∩ select := by
      ext i
      rw [Finset.mem_filter, Finset.mem_inter, Finset.mem_inter]
      constructor
      · intro chosen
        have iInside : i ∈ U := rep.positions ▸ tracks.todo_subset (within chosen.1)
        exact ⟨(mem_descendants_iff rep iInside jInside).mp chosen.2.1, chosen.1⟩
      · intro ancestor
        have iInside : i ∈ U := rep.positions ▸ tracks.todo_subset (within ancestor.2)
        exact ⟨ancestor.2, (mem_descendants_iff rep iInside jInside).mpr ancestor.1, member⟩
    have split : (g.ancestors j ∩ f.todo) \ (g.ancestors j ∩ select) = g.ancestors j ∩ (f.todo \ select) := by
      ext i
      simp only [Finset.mem_sdiff, Finset.mem_inter]
      tauto
    rw [markDone]
    dsimp only
    rw [getD_foldl_subtractDescendants g _ _ (nodup_members select) _ inRange, toFinset_members,
      tracks.sums j remaining, removed,
      ← Finset.sum_sdiff_eq_sub (Finset.inter_subset_inter_left within), split]

theorem findCandidateSet_spec {f : AncestorCandidateFinder} (tracks : Tracks g f)
    (positive : ∀ i ∈ g.positions, 0 < (g.feeRate i).size.toInt)
    (fits : ∑ i ∈ g.positions, (g.feeRate i).size.toInt < 2 ^ 31) (nonempty : f.todo.Nonempty) :
    ∃ b ∈ f.todo, findCandidateSet g FeeFrac.int128 f =
        ⟨g.ancestors b ∩ f.todo, ∑ j ∈ g.ancestors b ∩ f.todo, g.feeRate j⟩ ∧
      ∀ i ∈ f.todo, FeeFrac.threeWayCompare FeeFrac.int128 (∑ j ∈ g.ancestors i ∩ f.todo, g.feeRate j)
        (∑ j ∈ g.ancestors b ∩ f.todo, g.feeRate j) ≠ .gt := by
  -- every remaining ancestor set holds its transaction, so its size is positive
  have sized : ∀ i ∈ f.todo, 0 < (∑ j ∈ g.ancestors i ∩ f.todo, g.feeRate j).size.toInt := by
    intro i member
    have inside : i ∈ U := rep.positions ▸ tracks.todo_subset member
    apply FeeFrac.toInt_size_sum_pos g.feeRate g.positions positive fits
    · exact fun j within => tracks.todo_subset (Finset.mem_inter.mp within).2
    · exact ⟨i, Finset.mem_inter.mpr ⟨rep.self_ancestor order inside, member⟩⟩
  have compares : ∀ i ∈ members f.todo, ∀ c ∈ members f.todo,
      (FeeFrac.threeWayCompare FeeFrac.int128 (f.ancestorSetFeerates.getD i default)
        (f.ancestorSetFeerates.getD c default) == .gt) = true ↔
      FeeFrac.key (∑ j ∈ g.ancestors c ∩ f.todo, g.feeRate j) < FeeFrac.key (∑ j ∈ g.ancestors i ∩ f.todo, g.feeRate j) := by
    intro i iListed c cListed
    rw [mem_members] at iListed cListed
    rw [beq_iff_eq, tracks.sums i iListed, tracks.sums c cListed]
    exact FeeFrac.threeWayCompare_int128_eq_gt (sized i iListed) (sized c cListed)
  have listed : members f.todo ≠ [] := by
    obtain ⟨x, member⟩ := nonempty
    exact List.ne_nil_of_mem (mem_members.mpr member)
  obtain ⟨b, member, ends, greatest⟩ := OrderedLoop.foldl_keepBest _
    (fun i => FeeFrac.key (∑ j ∈ g.ancestors i ∩ f.todo, g.feeRate j)) listed compares
  rw [mem_members] at member
  refine ⟨b, member, ?_, ?_⟩
  · rw [findCandidateSet, ends, Option.getD_some, tracks.sums b member]
  · intro i remaining above
    have lower := (FeeFrac.threeWayCompare_int128_eq_gt (sized i remaining) (sized b member)).mp above
    exact absurd (greatest i (mem_members.mpr remaining)) (not_le.mpr lower)

end AncestorCandidateFinder

/-- The finders a program reaches: the constructor, then `MarkDone` of non-empty subsets of the
remaining transactions. -/
inductive AncestorCandidateFinder.Reachable (g : DepGraph) : AncestorCandidateFinder → Prop
  | init : Reachable g (AncestorCandidateFinder.init g)
  | markDone {f : AncestorCandidateFinder} {select : Finset ℕ} :
      Reachable g f → select.Nonempty → select ⊆ f.todo → Reachable g (f.markDone g select)

namespace AncestorCandidateFinder

variable {g : DepGraph} {U : Finset ℕ} {fee : ℕ → FeeFrac} {R : ℕ → ℕ → Prop}

theorem Reachable.tracks (rep : Represents g U fee R) (order : PreorderOn U R) {f : AncestorCandidateFinder}
    (reached : Reachable g f) : Tracks g f := by
  induction reached with
  | init => exact tracks_init rep order
  | markDone _ _ within ih => exact tracks_markDone rep ih within

/-- Three unrelated transactions, the first of negative size. -/
def negativeSizeGraph : DepGraph :=
  ⟨[⟨⟨-2, -2⟩, {0}, {0}⟩, ⟨⟨-1, 1⟩, {1}, {1}⟩, ⟨⟨1, 1⟩, {2}, {2}⟩], {2, 1, 0}⟩

theorem ancestorCandidateFinder_negative_size_misses_best :
    Freycoin.Cluster.Reachable 3 negativeSizeGraph ∧
      (findCandidateSet negativeSizeGraph FeeFrac.int128 (init negativeSizeGraph)).transactions = {2} ∧
      0 ∈ (init negativeSizeGraph).todo ∧
      FeeFrac.threeWayCompare FeeFrac.int128
        (negativeSizeGraph.feeRateOfSet (negativeSizeGraph.ancestors 0 ∩ (init negativeSizeGraph).todo))
        (findCandidateSet negativeSizeGraph FeeFrac.int128 (init negativeSizeGraph)).feerate = .gt := by
  refine ⟨?_, by decide, by decide, by decide⟩
  exact @Freycoin.Cluster.Reachable.addTransaction 3 ⟨[⟨⟨-2, -2⟩, {0}, {0}⟩, ⟨⟨-1, 1⟩, {1}, {1}⟩], {1, 0}⟩ _
    ⟨1, 1⟩ 2 (@Freycoin.Cluster.Reachable.addTransaction 3 ⟨[⟨⟨-2, -2⟩, {0}, {0}⟩], {0}⟩ _ ⟨-1, 1⟩ 1
      (@Freycoin.Cluster.Reachable.addTransaction 3 DepGraph.empty _ ⟨-2, -2⟩ 0
        Freycoin.Cluster.Reachable.empty rfl) rfl) rfl

end AncestorCandidateFinder

end Freycoin.Cluster
