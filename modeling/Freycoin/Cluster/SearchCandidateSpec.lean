import Freycoin.Cluster.SearchCandidateFinder
import Freycoin.Cluster.AncestorCandidateSpec
import Freycoin.Library.ClosedSets
import Freycoin.Util.VecDequeRuns

/-! What `FindCandidateSet` keeps while it searches, in the graph sorted by feerate. -/

namespace Freycoin.Cluster

open RelationOn ClosedSets Util SearchCandidateFinder

/-- A set of transactions of `todo` that holds their ancestors within `todo`, with its feerate. -/
structure Candidate (g : DepGraph) (todo : Finset ℕ) (s : SetInfo) : Prop where
  subset : s.transactions ⊆ todo
  closed : ClosedUnder g.ancestors todo s.transactions
  feerate : s.feerate = g.feeRateOfSet s.transactions

/-- A `WorkItem` as the comments of `FindCandidateSet` require it. -/
structure WorkItem.Valid (g : DepGraph) (todo : Finset ℕ) (w : WorkItem) : Prop where
  inc : Candidate g todo w.inc
  und : w.und ⊆ todo
  disjoint : Disjoint w.inc.transactions w.und
  closed : ClosedUnder g.ancestors todo (w.inc.transactions ∪ w.und)
  nonempty : w.und.Nonempty

/-- The descendants and the ancestors of a transaction: what `GetConnectedComponent` adds. -/
def DepGraph.linked (g : DepGraph) (x : ℕ) : Finset ℕ := g.descendants x ∪ g.ancestors x

section Feerates

variable (g : DepGraph)

@[simp] theorem DepGraph.feeRateOfSet_empty : g.feeRateOfSet ∅ = 0 := rfl

theorem DepGraph.feeRateOfSet_insert {x : ℕ} {S : Finset ℕ} (fresh : x ∉ S) :
    g.feeRateOfSet (insert x S) = g.feeRateOfSet S + g.feeRate x := by
  rw [g.feeRateOfSet_eq_sum, g.feeRateOfSet_eq_sum, Finset.sum_insert fresh, add_comm]

theorem DepGraph.feeRateOfSet_add_sdiff (S T : Finset ℕ) :
    g.feeRateOfSet S + g.feeRateOfSet (T \ S) = g.feeRateOfSet (S ∪ T) := by
  rw [g.feeRateOfSet_eq_sum, g.feeRateOfSet_eq_sum, g.feeRateOfSet_eq_sum,
    ← Finset.sum_union Finset.disjoint_sdiff, Finset.union_sdiff_self_eq_union]

variable {g} {todo S : Finset ℕ} {s : SetInfo}

theorem candidate_default : Candidate g todo default :=
  ⟨Finset.empty_subset todo, closedUnder_empty, rfl⟩

theorem candidate_ofSet (inside : S ⊆ todo) (closed : ClosedUnder g.ancestors todo S) :
    Candidate g todo (SetInfo.ofSet g S) :=
  ⟨inside, closed, rfl⟩

theorem Candidate.add (candidate : Candidate g todo s) (inside : S ⊆ todo)
    (closed : ClosedUnder g.ancestors todo S) : Candidate g todo (s.add g S) where
  subset := Finset.union_subset candidate.subset inside
  closed := candidate.closed.union closed
  feerate := by
    rw [SetInfo.add, candidate.feerate]
    exact g.feeRateOfSet_add_sdiff s.transactions S

theorem Candidate.nonempty_of_size (candidate : Candidate g todo s) (sized : s.feerate.size ≠ 0) :
    s.transactions.Nonempty := by
  rw [Finset.nonempty_iff_ne_empty]
  intro empty
  rw [candidate.feerate, empty, DepGraph.feeRateOfSet_empty] at sized
  exact sized rfl

end Feerates

section Graph

variable {g : DepGraph} {U : Finset ℕ} {fee : ℕ → FeeFrac} {R : ℕ → ℕ → Prop}
variable (rep : Represents g U fee R) (order : PreorderOn U R)
include rep order

theorem descendants_subset_of_mem {i j : ℕ} (member : i ∈ U) (descendant : j ∈ g.descendants i) :
    g.descendants j ⊆ g.descendants i := by
  obtain ⟨inside, above⟩ := (rep.descendants i member j).mp descendant
  intro k further
  obtain ⟨kInside, kAbove⟩ := (rep.descendants j inside k).mp further
  exact (rep.descendants i member k).mpr ⟨kInside, order.trans above kAbove⟩

theorem closed_ancestors {todo : Finset ℕ} {i : ℕ} (member : i ∈ U) :
    ClosedUnder g.ancestors todo (g.ancestors i ∩ todo) :=
  closedUnder_inter fun _ reached =>
    AncestorCandidateFinder.ancestors_subset_of_mem rep order member (Finset.mem_inter.mp reached).1

theorem closed_descendants {todo : Finset ℕ} {i : ℕ} (member : i ∈ U) :
    ClosedUnder g.descendants todo (g.descendants i) :=
  fun _ reached => Finset.inter_subset_left.trans (descendants_subset_of_mem rep order member reached)

omit order in
theorem closedUnder_sdiff_descendants (order : PreorderOn U R) {todo A : Finset ℕ}
    (closed : ClosedUnder g.ancestors todo A) (inside : A ⊆ U) {i : ℕ} (member : i ∈ U) :
    ClosedUnder g.ancestors todo (A \ g.descendants i) := by
  apply closed.sdiff (closed_descendants rep order member : ClosedUnder g.descendants U _) inside
  intro x inA y descendant ancestor
  have yInside := ((rep.descendants i member y).mp descendant).1
  exact (AncestorCandidateFinder.mem_descendants_iff rep yInside (inside inA)).mpr ancestor

omit order in
theorem mem_linked_comm {x y : ℕ} (xInside : x ∈ U) (yInside : y ∈ U) (linked : y ∈ g.linked x) :
    x ∈ g.linked y := by
  rw [DepGraph.linked, Finset.mem_union, AncestorCandidateFinder.mem_descendants_iff rep xInside yInside] at linked
  rw [DepGraph.linked, Finset.mem_union, AncestorCandidateFinder.mem_descendants_iff rep yInside xInside]
  exact linked.symm

end Graph

section Components

variable {g : DepGraph} {U : Finset ℕ} {fee : ℕ → FeeFrac} {R : ℕ → ℕ → Prop}

theorem connectedLoop_eq_grow (todo : Finset ℕ) (fuel : ℕ) :
    ∀ toAdd ret, g.connectedLoop todo fuel toAdd ret = grow g.linked todo members fuel toAdd ret := by
  have pass : (fun ret add => ret ∪ g.descendants add ∪ g.ancestors add) = fun acc b => acc ∪ g.linked b := by
    funext ret add
    rw [DepGraph.linked, Finset.union_assoc]
  induction fuel with
  | zero => intro toAdd ret; rfl
  | succ fuel ih =>
      intro toAdd ret
      rw [DepGraph.connectedLoop, grow, pass]
      split_ifs
      · exact ih _ _
      · rfl

theorem closedUnder_ancestors_of_component {todo toCover C : Finset ℕ}
    (closed : ClosedUnder g.linked todo toCover) (component : ClosedUnder g.linked toCover C)
    (within : C ⊆ toCover) : ClosedUnder g.ancestors todo C :=
  (component.trans closed within).mono fun _ _ => Finset.subset_union_right

variable (rep : Represents g U fee R) (order : PreorderOn U R)
include rep order

theorem findConnectedComponent_spec {toCover : Finset ℕ} (nonempty : toCover.Nonempty)
    (inside : toCover ⊆ U) :
    (g.findConnectedComponent toCover).Nonempty ∧ g.findConnectedComponent toCover ⊆ toCover ∧
      ClosedUnder g.linked toCover (g.findConnectedComponent toCover) := by
  have first := (firstPosition_spec nonempty).1
  rw [DepGraph.findConnectedComponent, if_neg (Finset.nonempty_iff_ne_empty.mp nonempty),
    DepGraph.getConnectedComponent, connectedLoop_eq_grow]
  obtain ⟨-, stays, frontier, closed⟩ := grow_spec g.linked toCover members (fun _ _ => mem_members)
    (toCover.card + 1) {firstPosition toCover} ∅ (Finset.empty_subset _)
    (fun x member => absurd member (Finset.notMem_empty x)) (by simp)
  -- the first transaction is its own ancestor, so the first pass already holds it
  have self : firstPosition toCover ∈ g.linked (firstPosition toCover) ∩ toCover :=
    Finset.mem_inter.mpr ⟨Finset.mem_union_right _ (rep.self_ancestor order (inside first)), first⟩
  exact ⟨⟨_, frontier _ (Finset.mem_singleton_self _) self⟩, stays, closed⟩

omit order in
theorem closedUnder_sdiff_component {todo toCover C : Finset ℕ} (closed : ClosedUnder g.linked todo toCover)
    (inside : toCover ⊆ U) (component : ClosedUnder g.linked toCover C) (within : C ⊆ toCover) :
    ClosedUnder g.linked todo (toCover \ C) :=
  closed.sdiff component le_rfl fun _ xIn _ yIn linked =>
    mem_linked_comm rep (inside xIn) (inside (within yIn)) linked

end Components

section Seed

variable {g : DepGraph} {todo : Finset ℕ}

/-- The seeding loop between two passes: what is left to cover is a part of `todo` closed under
links, the queue holds valid items and room for `todo`, and `best` is a candidate. -/
structure Seeding (g : DepGraph) (todo toCover : Finset ℕ) (queue : VecDeque WorkItem) (best : SetInfo) :
    Prop where
  cover : toCover ⊆ todo
  linked : ClosedUnder g.linked todo toCover
  items : ∃ items, queue.Represents items ∧ ∀ w ∈ items, w.Valid g todo
  capacity : todo.card ≤ queue.capacity
  best : Candidate g todo best

theorem capacity_le_emplaceBack {α : Type} (traits : Traits) (d : VecDeque α) (value : α) :
    d.capacity ≤ (d.emplaceBack traits value).capacity := by
  rw [VecDeque.emplaceBack]
  split_ifs with full
  · show d.capacity ≤ (d.size + 1) * 2
    omega
  · exact le_rfl

variable {U : Finset ℕ} {fee : ℕ → FeeFrac} {R : ℕ → ℕ → Prop}
variable (rep : Represents g U fee R) (order : PreorderOn U R) (inside : todo ⊆ U)
include rep order inside

theorem Seeding.pass {toCover : Finset ℕ} {queue : VecDeque WorkItem} {best : SetInfo}
    (seeding : Seeding g todo toCover queue best) (nonempty : toCover.Nonempty) :
    Seeding g todo (toCover \ g.findConnectedComponent toCover)
        (queue.emplaceBack workItemTraits ⟨default, g.findConnectedComponent toCover, default⟩)
        (if best.feerate.size = 0 then SetInfo.ofSet g (g.findConnectedComponent toCover) else best) ∧
      (if best.feerate.size = 0 then SetInfo.ofSet g (g.findConnectedComponent toCover) else best).transactions.Nonempty := by
  obtain ⟨found, within, closed⟩ := findConnectedComponent_spec rep order nonempty (seeding.cover.trans inside)
  set C := g.findConnectedComponent toCover
  have valid : ClosedUnder g.ancestors todo C := closedUnder_ancestors_of_component seeding.linked closed within
  obtain ⟨items, represents, allValid⟩ := seeding.items
  have item : WorkItem.Valid g todo ⟨default, C, default⟩ :=
    ⟨candidate_default, within.trans seeding.cover, Finset.disjoint_empty_left C,
      by rw [show (default : SetInfo).transactions = ∅ from rfl, Finset.empty_union]; exact valid, found⟩
  refine ⟨⟨Finset.sdiff_subset.trans seeding.cover,
    closedUnder_sdiff_component rep seeding.linked (seeding.cover.trans inside) closed within,
    ⟨items ++ [⟨default, C, default⟩], VecDeque.represents_emplaceBack workItemTraits represents _, ?_⟩,
    seeding.capacity.trans (capacity_le_emplaceBack _ _ _), ?_⟩, ?_⟩
  · intro w listed
    rcases List.mem_append.mp listed with old | new
    · exact allValid w old
    · rw [List.mem_singleton.mp new]
      exact item
  · split_ifs
    · exact candidate_ofSet (within.trans seeding.cover) valid
    · exact seeding.best
  · split_ifs with empty
    · exact found
    · exact seeding.best.nonempty_of_size empty

theorem seedComponents_spec (fuel : ℕ) : ∀ (toCover : Finset ℕ) (queue : VecDeque WorkItem) (best : SetInfo),
    Seeding g todo toCover queue best → toCover.Nonempty →
    (∃ left, Seeding g todo left (seedComponents g (fuel + 1) toCover queue best).1
        (seedComponents g (fuel + 1) toCover queue best).2) ∧
      (seedComponents g (fuel + 1) toCover queue best).2.transactions.Nonempty ∧
      (best.feerate.size ≠ 0 → (seedComponents g (fuel + 1) toCover queue best).2 = best) := by
  induction fuel with
  | zero =>
      intro toCover queue best seeding nonempty
      obtain ⟨seeded, found⟩ := seeding.pass rep order inside nonempty
      rw [seedComponents]
      -- with one pass of fuel both branches stop after the pass
      by_cases more : (toCover \ g.findConnectedComponent toCover).Nonempty
      · rw [if_pos more]
        exact ⟨⟨_, seeded⟩, found, fun sized => if_neg sized⟩
      · rw [if_neg more]
        exact ⟨⟨_, seeded⟩, found, fun sized => if_neg sized⟩
  | succ fuel ih =>
      intro toCover queue best seeding nonempty
      obtain ⟨seeded, found⟩ := seeding.pass rep order inside nonempty
      rw [seedComponents]
      by_cases more : (toCover \ g.findConnectedComponent toCover).Nonempty
      · rw [if_pos more]
        obtain ⟨left, nonempty', kept⟩ := ih _ _ _ seeded more
        refine ⟨left, nonempty', fun sized => ?_⟩
        rw [if_neg sized] at kept ⊢
        exact kept sized
      · rw [if_neg more]
        exact ⟨⟨_, seeded⟩, found, fun sized => if_neg sized⟩

end Seed

end Freycoin.Cluster
