import Freycoin.Cluster.Linearize
import Freycoin.Cluster.SearchCandidateRuns
import Freycoin.Cluster.IntersectPrefixesSpec
import Freycoin.Cluster.FixLinearizationSpec
import Freycoin.Library.FuelLoop

/-! `Linearize` outputs a topological linearization of the whole graph. -/

namespace Freycoin.Cluster

open RelationOn ClosedSets

variable {g : DepGraph} {U : Finset ℕ} {fee : ℕ → FeeFrac} {R : ℕ → ℕ → Prop}

section Topo

theorem topoBefore_eq_false_iff (g : DepGraph) (a b : ℕ) :
    g.topoBefore a b = false ↔
      (g.ancestors b).card < (g.ancestors a).card ∨
        (g.ancestors b).card = (g.ancestors a).card ∧ b ≤ a := by
  simp only [DepGraph.topoBefore]
  split_ifs with differ <;> simp only [decide_eq_false_iff_not] <;> omega

theorem appendTopo_spec (g : DepGraph) (l : List ℕ) (select : Finset ℕ) :
    ∃ block, g.appendTopo l select = l ++ block ∧ block.Perm (members select) ∧
      block.Pairwise fun a b => g.topoBefore b a = false := by
  have total : Std.Total fun a b => g.topoBefore b a = false :=
    ⟨fun a b => by rw [topoBefore_eq_false_iff, topoBefore_eq_false_iff]; omega⟩
  have transitive : IsTrans ℕ fun a b => g.topoBefore b a = false :=
    ⟨fun a b c => by simp only [topoBefore_eq_false_iff]; omega⟩
  exact ⟨_, rfl, List.perm_insertionSort _ _, List.pairwise_insertionSort _ _⟩

/-- What `Linearize` has output while `todo` is left: every other position once, each after its
ancestors. -/
structure Linearized (g : DepGraph) (U todo : Finset ℕ) (l : List ℕ) : Prop where
  nodup : l.Nodup
  covers : l.toFinset = U \ todo
  preceded : PrecededByAncestors g l

theorem linearized_nil : Linearized g U U [] where
  nodup := List.nodup_nil
  covers := by rw [List.toFinset_nil, Finset.sdiff_self]
  preceded := fun k inside => absurd inside (Nat.not_lt_zero k)

variable (rep : Represents g U fee R) (order : PartialOrderOn U R)
include rep order

theorem topoBefore_of_ancestor {x a : ℕ} (member : x ∈ U) (ancestor : a ∈ g.ancestors x) (other : a ≠ x) :
    g.topoBefore a x = true := by
  have below := (rep.ancestors x member a).mp ancestor
  have fewer : g.ancestors a ⊂ g.ancestors x := by
    refine Finset.ssubset_iff_subset_ne.mpr
      ⟨AncestorCandidateFinder.ancestors_subset_of_mem rep order.toPreorderOn member ancestor, fun same => other ?_⟩
    have above : x ∈ g.ancestors a := by
      rw [same]
      exact rep.self_ancestor order.toPreorderOn member
    exact order.antisymm below.2 ((rep.ancestors a below.1 x).mp above).2
  have counted := Finset.card_lt_card fewer
  by_contra later
  rw [Bool.not_eq_true, topoBefore_eq_false_iff] at later
  omega

theorem Linearized.appendTopo {todo select : Finset ℕ} {l : List ℕ} (lin : Linearized g U todo l)
    (inside : todo ⊆ U) (chosen : select ⊆ todo) (closed : ClosedUnder g.ancestors todo select) :
    Linearized g U (todo \ select) (g.appendTopo l select) := by
  obtain ⟨block, appended, perm, ordered⟩ := appendTopo_spec g l select
  have inBlock : ∀ x, x ∈ block ↔ x ∈ select := fun x => perm.mem_iff.trans mem_members
  have output : ∀ x, x ∈ l ↔ x ∈ U ∧ x ∉ todo := fun x => by
    rw [← List.mem_toFinset, lin.covers, Finset.mem_sdiff]
  rw [appended]
  refine ⟨?_, ?_, ?_⟩
  · refine List.nodup_append.mpr ⟨lin.nodup, perm.nodup_iff.mpr (nodup_members select), ?_⟩
    intro x early y late same
    exact ((output x).mp early).2 (chosen ((inBlock x).mp (same ▸ late)))
  · ext x
    rw [List.toFinset_append, Finset.mem_union, List.mem_toFinset, List.mem_toFinset, output, inBlock,
      Finset.mem_sdiff, Finset.mem_sdiff]
    constructor
    · rintro (⟨member, done⟩ | picked)
      · exact ⟨member, fun left => done left.1⟩
      · exact ⟨inside (chosen picked), fun left => left.2 picked⟩
    · rintro ⟨member, notLeft⟩
      by_cases picked : x ∈ select
      · exact Or.inr picked
      · exact Or.inl ⟨member, fun left => notLeft ⟨left, picked⟩⟩
  · intro k bound a ancestor other
    rcases Nat.lt_or_ge k l.length with early | late
    · -- a position output before
      rw [List.getElem_append_left early] at ancestor other
      rw [List.take_append_of_le_length early.le]
      exact lin.preceded k early a ancestor other
    · -- a position of the appended block
      have inRange : k - l.length < block.length := by
        rw [List.length_append] at bound
        omega
      rw [List.getElem_append_right late] at ancestor other
      rw [List.take_append, List.take_of_length_le late]
      have picked : block[k - l.length] ∈ select := (inBlock _).mp (List.getElem_mem inRange)
      have member : block[k - l.length] ∈ U := inside (chosen picked)
      by_cases left : a ∈ todo
      · obtain ⟨i, iInside, rfl⟩ := List.getElem_of_mem ((inBlock a).mpr (closed _ picked (Finset.mem_inter.mpr ⟨ancestor, left⟩)))
        rcases Nat.lt_trichotomy i (k - l.length) with before | same | after
        · exact List.mem_append_right _ (List.mem_take_iff_getElem.mpr ⟨i, by omega, rfl⟩)
        · exact absurd (by simp only [same]) other
        · have sorted := List.pairwise_iff_getElem.mp ordered (k - l.length) i inRange iInside after
          rw [topoBefore_of_ancestor rep order member ancestor other] at sorted
          exact Bool.noConfusion sorted
      · exact List.mem_append_left _ ((output a).mpr ⟨(rep.ancestors _ member a).mp ancestor |>.1, left⟩)

end Topo

section OldChunks

variable {P : Type} (arith : FeeFrac.Arith P)
variable {L : List ℕ} (nodup : L.Nodup) (preceded : PrecededByAncestors g L)

include nodup preceded in
theorem closedUnder_of_isPrefix {T T' : Finset ℕ} (within : ∀ a ∈ L, a ∈ T' → a ∈ T) {p : List ℕ}
    (isPrefix : p <+: L.filter fun x => decide (x ∈ T)) : ClosedUnder g.ancestors T' p.toFinset := by
  intro x member a reached
  obtain ⟨ancestor, aLeft⟩ := Finset.mem_inter.mp reached
  rw [List.mem_toFinset] at member ⊢
  by_cases same : a = x
  · rw [same]
    exact member
  obtain ⟨xL, xLeft⟩ := List.mem_filter.mp (isPrefix.subset member)
  obtain ⟨k, kInside, rfl⟩ := List.getElem_of_mem xL
  have early : a ∈ L.take k := preceded k kInside a ancestor same
  have kept : decide (a ∈ T) = true := decide_eq_true (within a (List.mem_of_mem_take early) aLeft)
  -- what is left of `L` is what is left before `L[k]`, then `L[k]`, then the rest
  have split : L.filter (fun x => decide (x ∈ T)) =
      (L.take k).filter (fun x => decide (x ∈ T)) ++ L[k] :: (L.drop (k + 1)).filter fun x => decide (x ∈ T) := by
    conv_lhs => rw [← List.take_append_drop k L, List.drop_eq_getElem_cons kInside]
    rw [List.filter_append, List.filter_cons_of_pos (p := fun x => decide (x ∈ T)) xLeft]
  have front : (L.take k).filter (fun x => decide (x ∈ T)) <+: L.filter fun x => decide (x ∈ T) := by
    rw [split]
    exact List.prefix_append _ _
  rcases le_total p.length ((L.take k).filter fun x => decide (x ∈ T)).length with shorter | longer
  · -- then `L[k]` would be left twice
    have twice := (List.prefix_of_prefix_length_le isPrefix front shorter).subset member
    have distinct := nodup.filter fun x => decide (x ∈ T)
    rw [split] at distinct
    exact (List.disjoint_of_nodup_append distinct twice List.mem_cons_self).elim
  · exact (List.prefix_of_prefix_length_le front isPrefix longer).subset (List.mem_filter.mpr ⟨early, kept⟩)

theorem unionUpTo_map_runChunk (runs : List (List ℕ)) (n : ℕ) :
    unionUpTo (runs.map (runChunk g)) n = ((runs.take n).flatten).toFinset := by
  induction n with
  | zero => rw [unionUpTo_zero, List.take_zero, List.flatten_nil, List.toFinset_nil]
  | succ n ih =>
    rw [unionUpTo_succ, ih, List.take_add_one, List.flatten_append, List.toFinset_append]
    congr 1
    rcases Nat.lt_or_ge n runs.length with inside | past
    · rw [List.getD_eq_getElem _ _ (by rwa [List.length_map]), List.getElem_map,
        List.getElem?_eq_getElem inside]
      simp [runChunk]
    · rw [List.getD_eq_default _ _ (by rwa [List.length_map]), List.getElem?_eq_none past]
      simp [default]

theorem LinearizationChunking.Holds.runs {c : LinearizationChunking} (holds : LinearizationChunking.Holds arith g L c) :
    ∃ runs : List (List ℕ), runs.flatten = L.filter (fun x => decide (x ∈ c.todo)) ∧ (∀ run ∈ runs, run ≠ []) ∧
      (List.range c.numChunksLeft).map c.getChunk = runs.map (runChunk g) := by
  obtain ⟨runs, flat, nonempty, built⟩ := chunking_runs arith g (L.filter fun x => decide (x ∈ c.todo))
  exact ⟨runs, flat, nonempty, holds.getChunks_eq_chunking.trans built⟩

variable {c : LinearizationChunking} {todo : Finset ℕ}

include nodup preceded

theorem LinearizationChunking.Holds.candidate_getChunk_zero (holds : LinearizationChunking.Holds arith g L c)
    (agree : c.todo = L.toFinset ∩ todo) (left : 0 < c.numChunksLeft) :
    Candidate g todo (c.getChunk 0) ∧ (c.getChunk 0).transactions.Nonempty := by
  obtain ⟨runs, flat, nonempty, listed⟩ := holds.runs arith
  have counted : runs.length = c.numChunksLeft := by
    simpa using (congrArg List.length listed).symm
  obtain ⟨run, rest, rfl⟩ := List.exists_cons_of_ne_nil (List.ne_nil_of_length_pos (counted ▸ left))
  have first : c.getChunk 0 = runChunk g run := by
    have atZero := congrArg (fun l => l[0]?) listed
    simpa [List.getElem?_range left] using atZero
  have isPrefix : run <+: L.filter fun x => decide (x ∈ c.todo) := by
    rw [← flat, List.flatten_cons]
    exact List.prefix_append _ _
  have runNodup : run.Nodup := (nodup.filter _).sublist isPrefix.sublist
  rw [first, runChunk_eq_of_nodup g runNodup]
  refine ⟨⟨?_, closedUnder_of_isPrefix nodup preceded ?_ isPrefix, rfl⟩, ?_⟩
  · intro x member
    have kept := (List.mem_filter.mp (isPrefix.subset (List.mem_toFinset.mp member))).2
    rw [decide_eq_true_eq, agree] at kept
    exact (Finset.mem_inter.mp kept).2
  · intro a aL aLeft
    rw [agree]
    exact Finset.mem_inter.mpr ⟨List.mem_toFinset.mpr aL, aLeft⟩
  · exact (List.toFinset_nonempty_iff run).mpr (nonempty run List.mem_cons_self)

theorem LinearizationChunking.Holds.candidate_intersectPrefixes [DecidableEq P]
    (holds : LinearizationChunking.Holds arith g L c) (agree : c.todo = L.toFinset ∩ todo)
    {best : SetInfo} (candidate : Candidate g todo best) (nonempty : best.transactions.Nonempty) :
    Candidate g todo (c.intersectPrefixes arith g best) ∧ (c.intersectPrefixes arith g best).transactions.Nonempty := by
  obtain ⟨runs, flat, -, listed⟩ := holds.runs arith
  have disjoint : ((List.range c.numChunksLeft).map c.getChunk).Pairwise
      fun a b => Disjoint a.transactions b.transactions := by
    rw [listed]
    exact pairwise_disjoint_runChunk g (flat ▸ nodup.filter _)
  have shortest : ShortestImprovingPrefix arith g ((List.range c.numChunksLeft).map c.getChunk) best
      (c.intersectPrefixes arith g best) := by
    apply LinearizationChunking.intersectLoop_spec arith g disjoint _ 0 default List.drop_zero
    · rw [unionUpTo_zero, Finset.inter_empty, DepGraph.feeRateOfSet_eq_sum, Finset.sum_empty]
      rfl
    · rw [unionUpTo_zero, Finset.inter_empty]
      exact nonempty.ne_empty.symm
    · intro n zero
      rw [Nat.le_zero.mp zero]
      exact not_improvingPrefix_zero arith g best
  rcases shortest with ⟨same, -⟩ | ⟨n, -, improving, -, result⟩
  · rw [same]
    exact ⟨candidate, nonempty⟩
  · rw [result]
    refine ⟨⟨Finset.inter_subset_left.trans candidate.subset, candidate.closed.inter ?_, rfl⟩, improving.1⟩
    rw [listed, unionUpTo_map_runChunk]
    apply closedUnder_of_isPrefix nodup preceded (T := c.todo)
    · intro a aL aLeft
      rw [agree]
      exact Finset.mem_inter.mpr ⟨List.mem_toFinset.mpr aL, aLeft⟩
    · rw [← flat]
      conv_rhs => rw [← List.take_append_drop n runs]
      rw [List.flatten_append]
      exact List.prefix_append _ _

end OldChunks

section Finders

variable {P : Type} (arith : FeeFrac.Arith P) [DecidableEq P]

theorem AncestorCandidateFinder.findCandidateSet_candidate (rep : Represents g U fee R) (order : PreorderOn U R)
    {f : AncestorCandidateFinder} (tracks : AncestorCandidateFinder.Tracks g f) (nonempty : f.todo.Nonempty) :
    Candidate g f.todo (f.findCandidateSet g arith) ∧ (f.findCandidateSet g arith).transactions.Nonempty := by
  have listed : members f.todo ≠ [] := by
    obtain ⟨x, member⟩ := nonempty
    exact List.ne_nil_of_mem (mem_members.mpr member)
  obtain ⟨b, member, kept⟩ := OrderedLoop.foldl_keepBest_mem (fun i b =>
    FeeFrac.threeWayCompare arith (f.ancestorSetFeerates.getD i default) (f.ancestorSetFeerates.getD b default) == .gt)
    listed
  rw [mem_members] at member
  have inside : b ∈ U := rep.positions ▸ tracks.todo_subset member
  rw [AncestorCandidateFinder.findCandidateSet]
  dsimp only
  rw [kept, Option.getD_some]
  refine ⟨⟨Finset.inter_subset_right, closed_ancestors rep order inside, ?_⟩,
    ⟨b, Finset.mem_inter.mpr ⟨rep.self_ancestor order inside, member⟩⟩⟩
  rw [tracks.sums b member, DepGraph.feeRateOfSet_eq_sum]

/-- `FindCandidateSet` only advances the random context. -/
@[simp] theorem SearchCandidateFinder.remaining_findCandidateSet (f : SearchCandidateFinder) (maxIterations : ℕ)
    (best : SetInfo) : (f.findCandidateSet arith maxIterations best).2.remaining = f.remaining := rfl

theorem SearchCandidateFinder.allDone_eq_false {f : SearchCandidateFinder} (nonempty : f.remaining.Nonempty) :
    f.allDone = false := by
  rw [SearchCandidateFinder.allDone, decide_eq_false_iff_not]
  intro empty
  rw [SearchCandidateFinder.remaining, SearchCandidateFinder.sortedToOriginalSet, empty, Finset.image_empty] at nonempty
  exact Finset.not_nonempty_empty nonempty

variable {f : SearchCandidateFinder} (indexed : Indexed g U fee R f)
include indexed

theorem Indexed.remaining_eq (all : f.todo = f.sortedDepgraph.positions) : f.remaining = U := by
  rw [SearchCandidateFinder.remaining, SearchCandidateFinder.sortedToOriginalSet, all,
    indexed.represents.positions, Finset.image_image]
  ext x
  rw [Finset.mem_image]
  constructor
  · rintro ⟨i, inside, rfl⟩
    rw [Function.comp_apply, indexed.back i inside]
    exact inside
  · intro inside
    exact ⟨x, inside, by rw [Function.comp_apply, indexed.back x inside]⟩

theorem Indexed.remaining_markDone {done : Finset ℕ} (within : done ⊆ U) :
    (f.markDone done).remaining = f.remaining \ done := by
  ext x
  simp only [SearchCandidateFinder.remaining, SearchCandidateFinder.sortedToOriginalSet,
    SearchCandidateFinder.markDone, SearchCandidateFinder.originalToSortedSet, Finset.mem_image, Finset.mem_sdiff]
  constructor
  · rintro ⟨a, ⟨left, notDone⟩, rfl⟩
    refine ⟨⟨a, left, rfl⟩, fun isDone => notDone ⟨_, isDone, ?_⟩⟩
    obtain ⟨i, inside, rfl⟩ := Finset.mem_image.mp (indexed.todo left)
    rw [indexed.back i inside]
  · rintro ⟨⟨a, left, rfl⟩, notDone⟩
    refine ⟨a, ⟨left, ?_⟩, rfl⟩
    rintro ⟨j, isDone, rfl⟩
    rw [indexed.back j (within isDone)] at notDone
    exact notDone isDone

end Finders

namespace LinearizeState

variable {P : Type} (arith : FeeFrac.Arith P) [DecidableEq P]

/-- What every pass of `Linearize` keeps, for the graph `g` on the positions `U` and the old
linearization `old`: the ancestor finder tracks the transactions left; the search finder, where
there is one, and the chunking of `old`, while it has chunks, have the same ones left; and the
output holds the others, each after its ancestors. -/
structure Valid (g : DepGraph) (U : Finset ℕ) (old : List ℕ) (s : LinearizeState) : Prop where
  tracks : AncestorCandidateFinder.Tracks g s.ancFinder
  searchFinder : ∀ f, s.srcFinder = some f →
    SearchCandidateFinder.Reachable arith g f ∧ f.remaining = s.ancFinder.todo
  chunking : s.oldChunking.numChunksLeft = 0 ∨
    LinearizationChunking.Holds arith g old s.oldChunking ∧ s.oldChunking.todo = old.toFinset ∩ s.ancFinder.todo
  linearized : Linearized g U s.ancFinder.todo s.linearization

theorem search_cases (s : LinearizeState) (best : SetInfo) :
    s.search arith best = ((best, 0, 0), s) ∨
      ∃ finder maxIterations iterationsLeft, s.srcFinder = some finder ∧
        (s.search arith best).1.1 = (finder.findCandidateSet arith maxIterations best).1.1 ∧
        (s.search arith best).2 =
          { s with iterationsLeft := iterationsLeft, srcFinder := some (finder.findCandidateSet arith maxIterations best).2 } := by
  cases found : s.srcFinder with
  | none =>
    left
    rw [LinearizeState.search, found]
  | some finder =>
    rw [LinearizeState.search, found]
    dsimp only
    split_ifs
    · exact Or.inr ⟨finder, _, _, rfl, rfl, rfl⟩
    · exact Or.inl rfl

variable {arith} {g : DepGraph} {old : List ℕ} {s : LinearizeState}
variable (rep : Represents g U fee R) (order : PartialOrderOn U R)
include rep order

theorem Valid.initialBest (nodup : old.Nodup) (preceded : PrecededByAncestors g old)
    (valid : Valid arith g U old s) (nonempty : s.ancFinder.todo.Nonempty) :
    Candidate g s.ancFinder.todo (s.initialBest arith g) ∧ (s.initialBest arith g).transactions.Nonempty := by
  rw [LinearizeState.initialBest]
  split_ifs with chunked chosen chosen
  · -- the first chunk left of the old linearization
    obtain ⟨holds, agree⟩ := valid.chunking.resolve_left chunked.ne'
    exact holds.candidate_getChunk_zero arith nodup preceded agree chunked
  · exact AncestorCandidateFinder.findCandidateSet_candidate arith rep order.toPreorderOn valid.tracks nonempty
  · exact absurd rfl chosen.1
  · exact AncestorCandidateFinder.findCandidateSet_candidate arith rep order.toPreorderOn valid.tracks nonempty

theorem Valid.search (valid : Valid arith g U old s) (nonempty : s.ancFinder.todo.Nonempty) {best : SetInfo}
    (candidate : Candidate g s.ancFinder.todo best) (bestNonempty : best.transactions.Nonempty) :
    Valid arith g U old (s.search arith best).2 ∧ (s.search arith best).2.ancFinder = s.ancFinder ∧
      Candidate g s.ancFinder.todo (s.search arith best).1.1 ∧ (s.search arith best).1.1.transactions.Nonempty := by
  rcases search_cases arith s best with unchanged | ⟨finder, maxIterations, iterationsLeft, found, result, after⟩
  · rw [unchanged]
    exact ⟨valid, rfl, candidate, bestNonempty⟩
  · obtain ⟨reached, remaining⟩ := valid.searchFinder finder found
    have indexed := reached.indexed arith rep order
    have notDone := SearchCandidateFinder.allDone_eq_false (remaining ▸ nonempty)
    obtain ⟨improved, improvedNonempty, -⟩ :=
      indexed.findCandidateSet_spec arith rep order.toPreorderOn notDone maxIterations (remaining ▸ candidate)
    rw [after, result]
    refine ⟨⟨valid.tracks, ?_, valid.chunking, valid.linearized⟩, rfl, remaining ▸ improved, improvedNonempty⟩
    intro f same
    injection same with picked
    rw [← picked]
    exact ⟨SearchCandidateFinder.Reachable.findCandidateSet maxIterations best reached, remaining⟩

theorem Valid.step (nodup : old.Nodup) (preceded : PrecededByAncestors g old)
    (valid : Valid arith g U old s) (positive : 0 < s.ancFinder.todo.card) :
    ((s.step arith g).2 = false ∧ Valid arith g U old (s.step arith g).1 ∧
        0 < (s.step arith g).1.ancFinder.todo.card ∧ (s.step arith g).1.ancFinder.todo.card < s.ancFinder.todo.card) ∨
      ((s.step arith g).2 = true ∧ Linearized g U ∅ (s.step arith g).1.linearization) := by
  have nonempty := Finset.card_pos.mp positive
  obtain ⟨started, startedNonempty⟩ := valid.initialBest rep order nodup preceded nonempty
  obtain ⟨searched, sameFinder, found, foundNonempty⟩ := valid.search rep order nonempty started startedNonempty
  rw [LinearizeState.step]
  dsimp only
  set after := s.search arith (s.initialBest arith g) with after_def
  rw [← sameFinder]
  rw [← sameFinder] at found
  -- the best of the pass is a non-empty candidate within what is left
  have chosen : Candidate g after.2.ancFinder.todo (finishBest arith g after) ∧
      (finishBest arith g after).transactions.Nonempty := by
    rw [finishBest]
    split_ifs with cutShort
    · obtain ⟨holds, agree⟩ := searched.chunking.resolve_left cutShort.2.ne'
      exact holds.candidate_intersectPrefixes arith nodup preceded agree found foundNonempty
    · exact ⟨found, foundNonempty⟩
  set best := finishBest arith g after with best_def
  have inside : after.2.ancFinder.todo ⊆ U := rep.positions ▸ searched.tracks.todo_subset
  have lin := searched.linearized.appendTopo rep order inside chosen.1.subset chosen.1.closed
  by_cases finished : (after.2.ancFinder.markDone g best.transactions).allDone = true
  · rw [if_pos finished]
    have empty : after.2.ancFinder.todo \ best.transactions = ∅ := of_decide_eq_true finished
    exact Or.inr ⟨rfl, empty ▸ lin⟩
  · rw [if_neg finished]
    have left : (after.2.ancFinder.todo \ best.transactions).Nonempty := by
      rw [Finset.nonempty_iff_ne_empty]
      exact fun empty => finished (decide_eq_true empty)
    refine Or.inl ⟨rfl, ⟨AncestorCandidateFinder.tracks_markDone rep searched.tracks chosen.1.subset, ?_, ?_, lin⟩,
      left.card_pos, Finset.card_lt_card (Finset.sdiff_ssubset chosen.1.subset chosen.2)⟩
    · -- the search finder marks the same set done
      intro f mapped
      obtain ⟨f₀, found₀, rfl⟩ := Option.map_eq_some_iff.mp mapped
      obtain ⟨reached, remaining⟩ := searched.searchFinder f₀ found₀
      refine ⟨SearchCandidateFinder.Reachable.markDone best.transactions reached, ?_⟩
      rw [(reached.indexed arith rep order).remaining_markDone (chosen.1.subset.trans inside), remaining]
      rfl
    · -- and so does the old chunking, while it has chunks
      by_cases chunked : 0 < after.2.oldChunking.numChunksLeft
      · obtain ⟨holds, agree⟩ := searched.chunking.resolve_left chunked.ne'
        rw [if_pos chunked]
        refine Or.inr ⟨LinearizationChunking.holds_markDone arith g nodup holds _, ?_⟩
        rw [LinearizationChunking.markDone_todo, agree, Finset.inter_sdiff_assoc]
        rfl
      · rw [if_neg chunked]
        exact Or.inl (Nat.eq_zero_of_not_pos chunked)

theorem valid_start (inside : old.toFinset ⊆ U) (iterationsLeft : UInt64) {srcFinder : Option SearchCandidateFinder}
    (searching : ∀ f, srcFinder = some f → SearchCandidateFinder.Reachable arith g f ∧ f.remaining = U) :
    Valid arith g U old ⟨iterationsLeft, [], AncestorCandidateFinder.init g, srcFinder, true,
      LinearizationChunking.init arith g old⟩ where
  tracks := AncestorCandidateFinder.tracks_init rep order.toPreorderOn
  searchFinder := fun f same => ⟨(searching f same).1, (searching f same).2.trans rep.positions.symm⟩
  chunking := by
    refine Or.inr ⟨LinearizationChunking.holds_init arith g, ?_⟩
    show (LinearizationChunking.init arith g old).todo = old.toFinset ∩ g.positions
    rw [LinearizationChunking.init_todo, rep.positions, Finset.inter_eq_left.mpr inside]
  linearized := by
    show Linearized g U g.positions []
    rw [rep.positions]
    exact linearized_nil

variable (arith) in
theorem linearized_run (nodup : old.Nodup) (preceded : PrecededByAncestors g old) (inside : old.toFinset ⊆ U)
    (nonempty : U.Nonempty) (iterationsLeft : UInt64) {srcFinder : Option SearchCandidateFinder}
    (searching : ∀ f, srcFinder = some f → SearchCandidateFinder.Reachable arith g f ∧ f.remaining = U) :
    let s : LinearizeState := LinearizeState.loop arith g g.txCount
      ⟨iterationsLeft, [], AncestorCandidateFinder.init g, srcFinder, true, LinearizationChunking.init arith g old⟩
    s.linearization.Nodup ∧ s.linearization.toFinset = U ∧ PrecededByAncestors g s.linearization := by
  intro s
  -- every pass keeps the invariant and takes a transaction out, or breaks with none left
  have lin := FuelLoop.run_done (step arith g) (LinearizeState.loop arith g) (fun _ _ => rfl) (Valid arith g U old)
    (fun s => Linearized g U ∅ s.linearization) (fun s => s.ancFinder.todo.card)
    (fun _ valid positive => valid.step rep order nodup preceded positive) g.txCount _
    (valid_start rep order inside iterationsLeft searching)
    (by show 0 < g.positions.card; rw [rep.positions]; exact nonempty.card_pos) le_rfl
  exact ⟨lin.nodup, lin.covers.trans Finset.sdiff_empty, lin.preceded⟩

end LinearizeState

variable {P : Type} (arith : FeeFrac.Arith P) [DecidableEq P] {depgraph : DepGraph}

/-- On a graph built by `AddTransaction` and `AddDependencies`, with an old linearization that
lists positions of the graph once each and after their ancestors (the empty one included),
`Linearize` returns every position once, each after its ancestors, with either build of the
feerate comparisons and whatever the iteration budget and seed. -/
theorem linearize_topological {size : ℕ} (built : Reachable size depgraph) (maxIterations rngSeed : UInt64)
    {old : List ℕ} (nodup : old.Nodup) (inside : old.toFinset ⊆ depgraph.positions)
    (preceded : PrecededByAncestors depgraph old) :
    (linearize arith depgraph maxIterations rngSeed old).1.Nodup ∧
      (linearize arith depgraph maxIterations rngSeed old).1.toFinset = depgraph.positions ∧
      PrecededByAncestors depgraph (linearize arith depgraph maxIterations rngSeed old).1 := by
  obtain ⟨U, fee, R, order, rep⟩ := built.represents
  have inside' : old.toFinset ⊆ U := rep.positions ▸ inside
  rw [linearize, rep.positions]
  split_ifs with empty
  · -- no transactions: nothing to output
    have none : U = ∅ := by
      rw [← rep.positions]
      exact Finset.card_eq_zero.mp empty
    exact ⟨List.nodup_nil, none ▸ rfl, fun k inside => absurd inside (Nat.not_lt_zero k)⟩
  · have nonempty : U.Nonempty := by
      rw [← rep.positions]
      exact Finset.card_pos.mp (Nat.pos_of_ne_zero empty)
    dsimp only
    split_ifs with started
    · -- with the iterations for it, the search finder is built on the whole graph
      apply LinearizeState.linearized_run arith rep order nodup preceded inside' nonempty
      intro f same
      injection same with picked
      rw [← picked]
      exact ⟨.init rngSeed, (indexed_init arith rep order rngSeed).remaining_eq rfl⟩
    · exact LinearizeState.linearized_run arith rep order nodup preceded inside' nonempty _
        fun f same => by cases same

theorem linearize_topological_chainAndSingle :
    PrecededByAncestors chainAndSingle [0, 2, 1] ∧
      (linearize FeeFrac.int128 chainAndSingle 100 0 [0, 2, 1]).1.Nodup ∧
      (linearize FeeFrac.int128 chainAndSingle 100 0 [0, 2, 1]).1.toFinset = chainAndSingle.positions ∧
      PrecededByAncestors chainAndSingle (linearize FeeFrac.int128 chainAndSingle 100 0 [0, 2, 1]).1 := by
  have preceded : PrecededByAncestors chainAndSingle [0, 2, 1] := by
    unfold PrecededByAncestors
    decide
  exact ⟨preceded, linearize_topological FeeFrac.int128 reachable_chainAndSingle 100 0 (by decide) (by decide) preceded⟩

end Freycoin.Cluster
