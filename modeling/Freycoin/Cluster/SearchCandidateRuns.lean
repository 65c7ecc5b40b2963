import Freycoin.Cluster.SearchCandidateSteps

/-! `SearchCandidateFinder` over its runs, in the positions of the graph it was built from. -/

namespace Freycoin.Cluster

open RelationOn ClosedSets Util SearchCandidateFinder

section Init

theorem getD_foldl_set (order : List ℕ) (nodup : order.Nodup) (m : List ℕ) (below : ∀ x ∈ order, x < m.length)
    (k : ℕ) (within : k ≤ order.length) :
    ((List.range k).foldl (fun m i => m.set (order.getD i 0) i) m).length = m.length ∧
      ∀ i < k, ((List.range k).foldl (fun m i => m.set (order.getD i 0) i) m).getD (order.getD i 0) 0 = i := by
  induction k with
  | zero => exact ⟨rfl, fun i lt => absurd lt (Nat.not_lt_zero i)⟩
  | succ k ih =>
      obtain ⟨length, written⟩ := ih (Nat.le_of_succ_le within)
      rw [List.range_succ, List.foldl_append, List.foldl_cons, List.foldl_nil]
      have kListed : order.getD k 0 ∈ order := by
        rw [List.getD_eq_getElem _ _ within]
        exact List.getElem_mem _
      refine ⟨by rw [List.length_set, length], ?_⟩
      intro i lt
      by_cases last : i = k
      · rw [last]
        exact getD_set_of_lt _ _ (length ▸ below _ kListed)
      · -- distinct sorted numbers hold distinct positions
        have differ : order.getD k 0 ≠ order.getD i 0 := by
          rw [List.getD_eq_getElem _ _ within, List.getD_eq_getElem _ _ (by omega), Ne,
            nodup.getElem_inj_iff]
          exact Ne.symm last
        rw [getD_set_of_ne _ _ differ]
        exact written i (by omega)

theorem sup_range_add_one (n : ℕ) : (Finset.range n).sup (· + 1) = n := by
  induction n with
  | zero => rfl
  | succ n ih =>
      rw [Finset.range_add_one, Finset.sup_insert, ih]
      exact sup_eq_left.mpr (Nat.le_succ n)

end Init

/-- What the constructor sets up and every operation of the finder keeps: `sortedToOriginal`
undoes `originalToSorted` on the positions, the sorted graph is the image of the original one,
with the feerates read through `sortedToOriginal`, and `todo` holds sorted positions. -/
structure Indexed (depgraph : DepGraph) (U : Finset ℕ) (fee : ℕ → FeeFrac) (R : ℕ → ℕ → Prop)
    (f : SearchCandidateFinder) : Prop where
  back : ∀ i ∈ U, f.sortedToOriginal.getD (f.originalToSorted.getD i 0) 0 = i
  represents : Represents f.sortedDepgraph (U.image (f.originalToSorted.getD · 0))
    (fun a => fee (f.sortedToOriginal.getD a 0)) (image (f.originalToSorted.getD · 0) R)
  order : PartialOrderOn (U.image (f.originalToSorted.getD · 0)) (image (f.originalToSorted.getD · 0) R)
  todo : f.todo ⊆ U.image (f.originalToSorted.getD · 0)

variable {P : Type} (arith : FeeFrac.Arith P) [DecidableEq P]
variable {depgraph : DepGraph} {U : Finset ℕ} {fee : ℕ → FeeFrac} {R : ℕ → ℕ → Prop}

theorem indexed_init (rep : Represents depgraph U fee R) (order : PartialOrderOn U R) (rngSeed : UInt64) :
    Indexed depgraph U fee R (init arith depgraph rngSeed) := by
  set sorted := (members depgraph.positions).insertionSort fun a b => sortsBefore arith depgraph b a = false
  have perm : sorted.Perm (members U) := rep.positions ▸ List.perm_insertionSort _ _
  have nodup : sorted.Nodup := perm.nodup_iff.mpr (nodup_members U)
  have listed : ∀ x, x ∈ sorted ↔ x ∈ U := fun x => perm.mem_iff.trans mem_members
  have below : ∀ x ∈ sorted, x < (List.replicate depgraph.positionRange 0).length := by
    intro x member
    rw [List.length_replicate, DepGraph.positionRange]
    exact rep.lt_length ((listed x).mp member)
  obtain ⟨-, written⟩ := getD_foldl_set sorted nodup _ below sorted.length le_rfl
  set numbers := (List.range sorted.length).foldl (fun m i => m.set (sorted.getD i 0) i)
    (List.replicate depgraph.positionRange 0)
  -- every position is listed once, at the number written for it
  have back : ∀ i ∈ U, sorted.getD (numbers.getD i 0) 0 = i := by
    intro i member
    obtain ⟨k, lt, rfl⟩ := List.mem_iff_getElem.mp ((listed i).mpr member)
    rw [← List.getD_eq_getElem sorted 0 lt, written k lt]
  have injective : Set.InjOn (numbers.getD · 0) U := by
    intro i iIn j jIn same
    rw [← back i iIn, ← back j jIn]
    exact congrArg (sorted.getD · 0) same
  have numbered : U.image (numbers.getD · 0) = Finset.range sorted.length := by
    ext k
    rw [Finset.mem_image, Finset.mem_range]
    constructor
    · rintro ⟨i, member, rfl⟩
      obtain ⟨k, lt, rfl⟩ := List.mem_iff_getElem.mp ((listed i).mpr member)
      rw [← List.getD_eq_getElem sorted 0 lt, written k lt]
      exact lt
    · intro lt
      refine ⟨sorted.getD k 0, (listed _).mp ?_, written k lt⟩
      rw [List.getD_eq_getElem sorted 0 lt]
      exact List.getElem_mem lt
  have range : sorted.length = U.sup fun i => numbers.getD i 0 + 1 := by
    rw [← sup_range_add_one sorted.length, ← numbered, Finset.sup_image]
    rfl
  obtain ⟨fee', fees, rep'⟩ := DepGraph.remap_spec rep order injective range
  refine ⟨back, { rep' with feeRate := ?_ }, order.image injective, rep'.positions.le⟩
  intro a member
  obtain ⟨i, inside, rfl⟩ := Finset.mem_image.mp member
  show (depgraph.remap numbers sorted.length).feeRate (numbers.getD i 0) = fee (sorted.getD (numbers.getD i 0) 0)
  rw [rep'.feeRate _ (Finset.mem_image_of_mem _ inside), fees i inside, back i inside]

namespace Indexed

variable {f : SearchCandidateFinder} (indexed : Indexed depgraph U fee R f)
include indexed

theorem toOriginal_mem {a : ℕ} (member : a ∈ U.image (f.originalToSorted.getD · 0)) :
    f.sortedToOriginal.getD a 0 ∈ U ∧ f.originalToSorted.getD (f.sortedToOriginal.getD a 0) 0 = a := by
  obtain ⟨i, inside, rfl⟩ := Finset.mem_image.mp member
  rw [indexed.back i inside]
  exact ⟨inside, rfl⟩

theorem injOn_toOriginal :
    Set.InjOn (f.sortedToOriginal.getD · 0) (U.image (f.originalToSorted.getD · 0)) := by
  intro a aIn b bIn same
  rw [← (indexed.toOriginal_mem aIn).2, ← (indexed.toOriginal_mem bIn).2]
  exact congrArg (f.originalToSorted.getD · 0) same

theorem injOn_toSorted : Set.InjOn (f.originalToSorted.getD · 0) U := by
  intro i iIn j jIn same
  rw [← indexed.back i iIn, ← indexed.back j jIn]
  exact congrArg (f.sortedToOriginal.getD · 0) same

variable (rep : Represents depgraph U fee R) (order : PreorderOn U R)
include rep order

theorem mem_ancestors_iff {a b : ℕ} (aIn : a ∈ U.image (f.originalToSorted.getD · 0))
    (bIn : b ∈ U.image (f.originalToSorted.getD · 0)) :
    b ∈ f.sortedDepgraph.ancestors a ↔
      f.sortedToOriginal.getD b 0 ∈ depgraph.ancestors (f.sortedToOriginal.getD a 0) := by
  obtain ⟨aOriginal, aBack⟩ := indexed.toOriginal_mem aIn
  obtain ⟨bOriginal, bBack⟩ := indexed.toOriginal_mem bIn
  rw [indexed.represents.ancestors a aIn b, rep.ancestors _ aOriginal]
  constructor
  · rintro ⟨-, i, j, related, rfl, rfl⟩
    rw [indexed.back i (order.support related).1, indexed.back j (order.support related).2]
    exact ⟨(order.support related).1, related⟩
  · rintro ⟨-, related⟩
    exact ⟨bIn, _, _, related, bBack, aBack⟩

omit order in
theorem feeRateOfSet_image {S : Finset ℕ} (within : S ⊆ U.image (f.originalToSorted.getD · 0)) :
    depgraph.feeRateOfSet (S.image (f.sortedToOriginal.getD · 0)) = f.sortedDepgraph.feeRateOfSet S := by
  rw [DepGraph.feeRateOfSet_eq_sum, DepGraph.feeRateOfSet_eq_sum,
    Finset.sum_image (indexed.injOn_toOriginal.mono within)]
  apply Finset.sum_congr rfl
  intro a member
  rw [rep.feeRate _ (indexed.toOriginal_mem (within member)).1, indexed.represents.feeRate a (within member)]

theorem candidate_out {s : SetInfo} (candidate : Candidate f.sortedDepgraph f.todo s) :
    Candidate depgraph f.remaining ⟨f.sortedToOriginalSet s.transactions, s.feerate⟩ where
  subset := Finset.image_subset_image candidate.subset
  closed := by
    intro x member y reached
    obtain ⟨a, aIn, rfl⟩ := Finset.mem_image.mp member
    obtain ⟨ancestor, remaining⟩ := Finset.mem_inter.mp reached
    obtain ⟨b, bIn, rfl⟩ := Finset.mem_image.mp remaining
    have aSorted := indexed.todo (candidate.subset aIn)
    have bSorted := indexed.todo bIn
    rw [← indexed.mem_ancestors_iff rep order aSorted bSorted] at ancestor
    exact Finset.mem_image_of_mem _ (candidate.closed a aIn (Finset.mem_inter.mpr ⟨ancestor, bIn⟩))
  feerate := by
    rw [SearchCandidateFinder.sortedToOriginalSet,
      indexed.feeRateOfSet_image rep (candidate.subset.trans indexed.todo)]
    exact candidate.feerate

theorem candidate_in {best : SetInfo} (candidate : Candidate depgraph f.remaining best) :
    Candidate f.sortedDepgraph f.todo ⟨f.originalToSortedSet best.transactions, best.feerate⟩ := by
  -- a remaining transaction is the original position of a sorted one of `todo`
  have numberedBack : ∀ x ∈ best.transactions, f.originalToSorted.getD x 0 ∈ f.todo ∧
      f.sortedToOriginal.getD (f.originalToSorted.getD x 0) 0 = x := by
    intro x member
    obtain ⟨b, bIn, rfl⟩ := Finset.mem_image.mp (candidate.subset member)
    rw [(indexed.toOriginal_mem (indexed.todo bIn)).2]
    exact ⟨bIn, rfl⟩
  have within : f.originalToSortedSet best.transactions ⊆ U.image (f.originalToSorted.getD · 0) := by
    intro a member
    obtain ⟨x, xIn, rfl⟩ := Finset.mem_image.mp member
    exact indexed.todo (numberedBack x xIn).1
  have roundTrip : (f.originalToSortedSet best.transactions).image (f.sortedToOriginal.getD · 0) =
      best.transactions := by
    ext x
    rw [SearchCandidateFinder.originalToSortedSet, Finset.image_image, Finset.mem_image]
    constructor
    · rintro ⟨y, yIn, rfl⟩
      rw [Function.comp_apply, (numberedBack y yIn).2]
      exact yIn
    · intro xIn
      exact ⟨x, xIn, (numberedBack x xIn).2⟩
  refine ⟨?_, ?_, ?_⟩
  · intro a member
    obtain ⟨x, xIn, rfl⟩ := Finset.mem_image.mp member
    exact (numberedBack x xIn).1
  · intro a member b reached
    obtain ⟨x, xIn, rfl⟩ := Finset.mem_image.mp member
    obtain ⟨ancestor, bTodo⟩ := Finset.mem_inter.mp reached
    rw [indexed.mem_ancestors_iff rep order (within member) (indexed.todo bTodo), (numberedBack x xIn).2] at ancestor
    have bBest : f.sortedToOriginal.getD b 0 ∈ best.transactions :=
      candidate.closed x xIn (Finset.mem_inter.mpr ⟨ancestor, Finset.mem_image_of_mem _ bTodo⟩)
    rw [← (indexed.toOriginal_mem (indexed.todo bTodo)).2]
    exact Finset.mem_image_of_mem _ bBest
  · show best.feerate = f.sortedDepgraph.feeRateOfSet (f.originalToSortedSet best.transactions)
    rw [← indexed.feeRateOfSet_image rep within, roundTrip]
    exact candidate.feerate

omit rep order in
theorem remaining_subset : f.remaining ⊆ U := by
  intro x member
  obtain ⟨a, aIn, rfl⟩ := Finset.mem_image.mp member
  exact (indexed.toOriginal_mem (indexed.todo aIn)).1

omit order in
theorem sized (positive : ∀ i ∈ depgraph.positions, 0 < (depgraph.feeRate i).size.toInt)
    (fits : ∑ i ∈ depgraph.positions, (depgraph.feeRate i).size.toInt < 2 ^ 31) :
    (∀ a ∈ f.sortedDepgraph.positions, 0 < (f.sortedDepgraph.feeRate a).size.toInt) ∧
      ∑ a ∈ f.sortedDepgraph.positions, (f.sortedDepgraph.feeRate a).size.toInt < 2 ^ 31 := by
  have renamed : ∀ i ∈ U, f.sortedDepgraph.feeRate (f.originalToSorted.getD i 0) = depgraph.feeRate i := by
    intro i inside
    rw [indexed.represents.feeRate _ (Finset.mem_image_of_mem _ inside), indexed.back i inside,
      rep.feeRate i inside]
  rw [indexed.represents.positions]
  rw [rep.positions] at positive fits
  constructor
  · intro a member
    obtain ⟨i, inside, rfl⟩ := Finset.mem_image.mp member
    rw [renamed i inside]
    exact positive i inside
  · rw [Finset.sum_image indexed.injOn_toSorted]
    calc ∑ i ∈ U, (f.sortedDepgraph.feeRate (f.originalToSorted.getD i 0)).size.toInt
        = ∑ i ∈ U, (depgraph.feeRate i).size.toInt := Finset.sum_congr rfl fun i inside => by rw [renamed i inside]
      _ < 2 ^ 31 := fits

end Indexed

/-- The finders a program reaches: the constructor, then `MarkDone` and `FindCandidateSet` in any
order, as `Linearize` calls them. -/
inductive SearchCandidateFinder.Reachable (depgraph : DepGraph) : SearchCandidateFinder → Prop
  | init (rngSeed : UInt64) : Reachable depgraph (init arith depgraph rngSeed)
  | markDone {f : SearchCandidateFinder} (done : Finset ℕ) :
      Reachable depgraph f → Reachable depgraph (f.markDone done)
  | findCandidateSet {f : SearchCandidateFinder} (maxIterations : ℕ) (best : SetInfo) :
      Reachable depgraph f → Reachable depgraph (f.findCandidateSet arith maxIterations best).2

theorem SearchCandidateFinder.Reachable.indexed (rep : Represents depgraph U fee R) (order : PartialOrderOn U R)
    {f : SearchCandidateFinder} (reached : Reachable arith depgraph f) : Indexed depgraph U fee R f := by
  induction reached with
  | init rngSeed => exact indexed_init arith rep order rngSeed
  | markDone done _ ih => exact ⟨ih.back, ih.represents, ih.order, Finset.sdiff_subset.trans ih.todo⟩
  | findCandidateSet maxIterations best _ ih => exact ⟨ih.back, ih.represents, ih.order, ih.todo⟩

section Improves

variable {g : DepGraph} {todo : Finset ℕ}
variable (positive : ∀ a ∈ g.positions, 0 < (g.feeRate a).size.toInt)
  (fits : ∑ a ∈ g.positions, (g.feeRate a).size.toInt < 2 ^ 31) (inside : todo ⊆ g.positions)
include positive fits inside

theorem Candidate.size_pos {s : SetInfo} (candidate : Candidate g todo s) (nonempty : s.transactions.Nonempty) :
    0 < s.feerate.size.toInt := by
  rw [candidate.feerate, DepGraph.feeRateOfSet_eq_sum]
  exact FeeFrac.toInt_size_sum_pos g.feeRate g.positions positive fits (candidate.subset.trans inside) nonempty

theorem Improves.key_le (agrees : ∀ a b, FeeFrac.threeWayCompare arith a b = FeeFrac.threeWayCompare FeeFrac.int128 a b)
    {b b' : SetInfo} (improves : Improves arith g todo b b') (start : Candidate g todo b)
    (nonempty : b.transactions.Nonempty) : FeeFrac.key b.feerate ≤ FeeFrac.key b'.feerate := by
  -- every `best` on the way is a non-empty candidate, so each step compares positive sizes
  suffices Candidate g todo b' ∧ b'.transactions.Nonempty ∧ FeeFrac.key b.feerate ≤ FeeFrac.key b'.feerate from
    this.2.2
  induction improves with
  | refl => exact ⟨start, nonempty, le_rfl⟩
  | tail _ step ih =>
      obtain ⟨candidate, nonempty', greater⟩ := step
      obtain ⟨previous, previousNonempty, below⟩ := ih
      rw [agrees] at greater
      have lower := (FeeFrac.threeWayCompare_int128_eq_gt
        (candidate.size_pos positive fits inside nonempty') (previous.size_pos positive fits inside previousNonempty)).mp greater
      exact ⟨candidate, nonempty', below.trans lower.le⟩

end Improves

theorem Indexed.findCandidateSet_spec {f : SearchCandidateFinder} (indexed : Indexed depgraph U fee R f)
    (rep : Represents depgraph U fee R) (order : PreorderOn U R) (notDone : f.allDone = false) (maxIterations : ℕ)
    {best : SetInfo} (candidate : Candidate depgraph f.remaining best) :
    Candidate depgraph f.remaining (f.findCandidateSet arith maxIterations best).1.1 ∧
      (f.findCandidateSet arith maxIterations best).1.1.transactions.Nonempty ∧
      (best.feerate.size ≠ 0 → ∃ found : SetInfo,
        Improves arith f.sortedDepgraph f.todo ⟨f.originalToSortedSet best.transactions, best.feerate⟩ found ∧
          found.feerate = (f.findCandidateSet arith maxIterations best).1.1.feerate) := by
  have nonempty : f.todo.Nonempty := by
    rw [Finset.nonempty_iff_ne_empty]
    intro empty
    rw [allDone, empty, decide_eq_false_iff_not] at notDone
    exact notDone rfl
  have rep' := indexed.represents
  have order' := indexed.order.toPreorderOn
  have start := indexed.candidate_in rep order candidate
  -- the queue is reserved for at least twice `todo`, and holds nothing yet
  have reserved := VecDeque.reserve_contents workItemTraits (VecDequeOp.represents_default (α := WorkItem)).valid
    (max 256 (2 * f.todo.card))
  have seeding : Seeding f.sortedDepgraph f.todo f.todo
      ((default : VecDeque WorkItem).reserve workItemTraits (max 256 (2 * f.todo.card)))
      ⟨f.originalToSortedSet best.transactions, best.feerate⟩ :=
    ⟨le_rfl, fun _ _ => Finset.inter_subset_right,
      ⟨[], VecDeque.represents_reserve _ VecDequeOp.represents_default _, fun w member => absurd member List.not_mem_nil⟩,
      le_trans (le_max_of_le_right (Nat.le_mul_of_pos_left _ two_pos)) reserved.2.2.2, start⟩
  obtain ⟨⟨left, seeded⟩, seededNonempty, kept⟩ :=
    seedComponents_spec rep' order' indexed.todo f.todo.card f.todo _ _ seeding nonempty
  set seed := seedComponents f.sortedDepgraph (f.todo.card + 1) f.todo
    ((default : VecDeque WorkItem).reserve workItemTraits (max 256 (2 * f.todo.card)))
    ⟨f.originalToSortedSet best.transactions, best.feerate⟩
  have valid : SearchState.Valid f.sortedDepgraph f.todo
      ⟨seed.1, seed.2, pruneImp arith f.sortedDepgraph seed.2.feerate f.todo, maxIterations, f.rng⟩ :=
    ⟨seeded.items, seeded.capacity, seeded.best, seededNonempty⟩
  obtain ⟨final, improves⟩ := SearchState.Valid.workLoop arith rep' order' indexed.todo
    (seed.1.size + 3 * maxIterations + 1) true _ valid fun top => Bool.noConfusion top
  rw [SearchCandidateFinder.findCandidateSet]
  dsimp only
  refine ⟨indexed.candidate_out rep order final.best, final.nonempty.image _, fun sized => ⟨_, ?_, rfl⟩⟩
  -- a `best` with a size is kept by the seeding loop
  have startEq : (⟨seed.1, seed.2, pruneImp arith f.sortedDepgraph seed.2.feerate f.todo, maxIterations, f.rng⟩ :
      SearchState).best = ⟨f.originalToSortedSet best.transactions, best.feerate⟩ := kept sized
  rw [startEq] at improves
  exact improves

/-- `FindCandidateSet` on any finder a program reaches from a graph it built, with transactions
left and a `best` that is a candidate (the empty set included), returns a non-empty candidate
within the remaining transactions, with its feerate, after at most `max_iterations` iterations. -/
theorem searchCandidateFinder_findCandidateSet_candidate {size : ℕ} (built : Freycoin.Cluster.Reachable size depgraph)
    {f : SearchCandidateFinder} (reached : SearchCandidateFinder.Reachable arith depgraph f)
    (notDone : f.allDone = false) (maxIterations : ℕ) {best : SetInfo}
    (valid : Candidate depgraph f.remaining best) :
    Candidate depgraph f.remaining (f.findCandidateSet arith maxIterations best).1.1 ∧
      (f.findCandidateSet arith maxIterations best).1.1.transactions.Nonempty ∧
      (f.findCandidateSet arith maxIterations best).1.2 ≤ maxIterations := by
  obtain ⟨U, fee, R, order, rep⟩ := built.represents
  have indexed := reached.indexed arith rep order
  obtain ⟨candidate, nonempty, -⟩ :=
    indexed.findCandidateSet_spec arith rep order.toPreorderOn notDone maxIterations valid
  exact ⟨candidate, nonempty, Nat.sub_le _ _⟩

/-- A transaction spending another, and one on its own, as `AddTransaction` and `AddDependencies`
build them. -/
def chainAndSingle : DepGraph :=
  DepGraph.addDependencies {0} 1 ⟨[⟨⟨1, 1⟩, {0}, {0}⟩, ⟨⟨5, 1⟩, {1}, {1}⟩, ⟨⟨2, 1⟩, {2}, {2}⟩], {2, 1, 0}⟩

theorem reachable_chainAndSingle : Freycoin.Cluster.Reachable 3 chainAndSingle :=
  Freycoin.Cluster.Reachable.addDependencies
    (@Freycoin.Cluster.Reachable.addTransaction 3 ⟨[⟨⟨1, 1⟩, {0}, {0}⟩, ⟨⟨5, 1⟩, {1}, {1}⟩], {1, 0}⟩ _ ⟨2, 1⟩ 2
      (@Freycoin.Cluster.Reachable.addTransaction 3 ⟨[⟨⟨1, 1⟩, {0}, {0}⟩], {0}⟩ _ ⟨5, 1⟩ 1
        (@Freycoin.Cluster.Reachable.addTransaction 3 DepGraph.empty _ ⟨1, 1⟩ 0
          Freycoin.Cluster.Reachable.empty rfl) rfl) rfl)
    (by decide) (by decide) (by decide)

theorem searchCandidateFinder_findCandidateSet_candidate_chainAndSingle :
    (SearchCandidateFinder.init FeeFrac.int128 chainAndSingle 0).allDone = false ∧
      Candidate chainAndSingle (SearchCandidateFinder.init FeeFrac.int128 chainAndSingle 0).remaining
        ((SearchCandidateFinder.init FeeFrac.int128 chainAndSingle 0).findCandidateSet FeeFrac.int128 10 default).1.1 :=
  ⟨by decide, (searchCandidateFinder_findCandidateSet_candidate FeeFrac.int128 reachable_chainAndSingle
    (.init 0) (by decide) 10 candidate_default).1⟩

/-- `FindCandidateSet` never returns worse than a non-empty `best` it is given: where the sizes
are positive and their total fits `int32_t`, and `operator>` decides as with `int128` (which the
fallback arithmetic does), the result is at least `best` in the order of `operator<=>`. -/
theorem searchCandidateFinder_findCandidateSet_not_worse {size : ℕ} (built : Freycoin.Cluster.Reachable size depgraph)
    {f : SearchCandidateFinder} (reached : SearchCandidateFinder.Reachable arith depgraph f)
    (notDone : f.allDone = false) (maxIterations : ℕ) {best : SetInfo}
    (valid : Candidate depgraph f.remaining best) (nonempty : best.transactions.Nonempty)
    (positive : ∀ i ∈ depgraph.positions, 0 < (depgraph.feeRate i).size.toInt)
    (fits : ∑ i ∈ depgraph.positions, (depgraph.feeRate i).size.toInt < 2 ^ 31)
    (agrees : ∀ a b, FeeFrac.threeWayCompare arith a b = FeeFrac.threeWayCompare FeeFrac.int128 a b) :
    FeeFrac.threeWayCompare FeeFrac.int128 best.feerate (f.findCandidateSet arith maxIterations best).1.1.feerate ≠ .gt := by
  obtain ⟨U, fee, R, order, rep⟩ := built.represents
  have indexed := reached.indexed arith rep order
  have within : f.remaining ⊆ depgraph.positions := rep.positions ▸ indexed.remaining_subset
  obtain ⟨found, foundNonempty, improving⟩ :=
    indexed.findCandidateSet_spec arith rep order.toPreorderOn notDone maxIterations valid
  have bestSized := valid.size_pos positive fits within nonempty
  have foundSized := found.size_pos positive fits within foundNonempty
  obtain ⟨final, improves, same⟩ := improving fun zero => by
    rw [zero] at bestSized
    exact lt_irrefl 0 bestSized
  -- in the sorted graph the chain of improvements starts at `best` and ends at the result
  obtain ⟨sortedPositive, sortedFits⟩ := indexed.sized rep positive fits
  have below := improves.key_le arith sortedPositive sortedFits (indexed.todo.trans indexed.represents.positions.ge)
    agrees (indexed.candidate_in rep order.toPreorderOn valid) (nonempty.image _)
  rw [same] at below
  intro greater
  have above := (FeeFrac.threeWayCompare_int128_eq_gt bestSized foundSized).mp greater
  exact absurd below (not_le.mpr above)

theorem searchCandidateFinder_findCandidateSet_not_worse_chainAndSingle :
    (SearchCandidateFinder.init FeeFrac.int128 chainAndSingle 0).allDone = false ∧
      Candidate chainAndSingle (SearchCandidateFinder.init FeeFrac.int128 chainAndSingle 0).remaining ⟨{0}, ⟨1, 1⟩⟩ ∧
      FeeFrac.threeWayCompare FeeFrac.int128 ⟨1, 1⟩
        ((SearchCandidateFinder.init FeeFrac.int128 chainAndSingle 0).findCandidateSet FeeFrac.int128 10
          ⟨{0}, ⟨1, 1⟩⟩).1.1.feerate ≠ .gt := by
  have valid : Candidate chainAndSingle (SearchCandidateFinder.init FeeFrac.int128 chainAndSingle 0).remaining
      ⟨{0}, ⟨1, 1⟩⟩ := ⟨by decide, by unfold ClosedUnder; decide, by decide⟩
  exact ⟨by decide, valid, searchCandidateFinder_findCandidateSet_not_worse FeeFrac.int128 reachable_chainAndSingle
    (.init 0) (by decide) 10 valid ⟨0, Finset.mem_singleton_self 0⟩ (by decide) (by decide) fun _ _ => rfl⟩

end Freycoin.Cluster
