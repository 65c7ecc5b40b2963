import Freycoin.Cluster.DepGraphRemap

/-! Runs of `DepGraph`: every object a program reaches from the empty graph by the updates,
each called within its documented preconditions, represents a partial order, and each update
acts on the represented graph as its abstract counterpart. -/

namespace Freycoin.Cluster

open RelationOn

/-- The graphs reached from `DepGraph()` by `AddTransaction` (with a free position below the
capacity `size`), `AddDependencies` (parents and child used, no parent a descendant of the
child), `RemoveTransactions`, and the remapping constructor (with `mapping` injective on the
positions and `pos_range` as documented). -/
inductive Reachable (size : ℕ) : DepGraph → Prop
  | empty : Reachable size DepGraph.empty
  | addTransaction {g g' : DepGraph} {feefrac : FeeFrac} {n : ℕ} :
      Reachable size g → g.addTransaction size feefrac = some (g', n) → Reachable size g'
  | addDependencies {g : DepGraph} {parents : Finset ℕ} {child : ℕ} :
      Reachable size g → child ∈ g.positions → parents ⊆ g.positions →
        (∀ p ∈ parents, p ∉ g.descendants child) → Reachable size (g.addDependencies parents child)
  | removeTransactions {g : DepGraph} (del : Finset ℕ) :
      Reachable size g → Reachable size (g.removeTransactions del)
  | remap {g : DepGraph} {mapping : List ℕ} {posRange : ℕ} :
      Reachable size g → Set.InjOn (mapping.getD · 0) g.positions →
        posRange = g.positions.sup (fun i => mapping.getD i 0 + 1) →
          Reachable size (g.remap mapping posRange)

theorem transGen_union_eq {U : Finset ℕ} {R : ℕ → ℕ → Prop} {P : Finset ℕ} {c : ℕ}
    (order : PreorderOn U R) (parents : P ⊆ U) (child : c ∈ U) :
    (Relation.TransGen fun a b => R a b ∨ a ∈ P ∧ b = c) = addEdges R P c :=
  funext fun a => funext fun d => propext (transGen_union_iff order parents child a d)

theorem Reachable.represents {size : ℕ} {g : DepGraph} (reached : Reachable size g) :
    ∃ (U : Finset ℕ) (fee : ℕ → FeeFrac) (R : ℕ → ℕ → Prop),
      PartialOrderOn U R ∧ Represents g U fee R := by
  induction reached with
  | empty => exact ⟨∅, fun _ => default, _, partialOrderOn_empty, represents_empty _⟩
  | @addTransaction g g' feefrac n _ added ih =>
      obtain ⟨U, fee, R, order, rep⟩ := ih
      have nonempty := DepGraph.addTransaction_isSome added
      obtain ⟨free, member, unused⟩ : ∃ n ∈ Finset.range size, n ∉ g.used := by
        obtain ⟨free, inside⟩ := nonempty
        exact ⟨free, (Finset.mem_sdiff.mp inside).1, (Finset.mem_sdiff.mp inside).2⟩
      have usedEq : g.used = U := rep.positions
      obtain ⟨g'', n', added', fresh, -, rep'⟩ := addTransaction_spec rep order.toPreorderOn size
        feefrac ⟨free, Finset.mem_range.mp member, usedEq ▸ unused⟩
      rw [added] at added'
      cases added'
      exact ⟨_, _, _, order.insertPoint fresh, rep'⟩
  | @addDependencies g parents child _ childUsed parentsUsed acyclic ih =>
      obtain ⟨U, fee, R, order, rep⟩ := ih
      have usedEq : g.positions = U := rep.positions
      rw [usedEq] at childUsed parentsUsed
      -- a parent that is no descendant of the child is not above it in `R`
      have notAbove : ∀ p ∈ parents, ¬R child p := fun p parent above =>
        acyclic p parent ((rep.descendants child childUsed p).mpr ⟨parentsUsed parent, above⟩)
      exact ⟨U, fee, _, order.addEdges notAbove,
        addDependencies_spec rep order.toPreorderOn parentsUsed childUsed⟩
  | removeTransactions del _ ih =>
      obtain ⟨U, fee, R, order, rep⟩ := ih
      exact ⟨_, fee, _, order.restrict, removeTransactions_spec rep del⟩
  | @remap g mapping posRange _ injective range ih =>
      obtain ⟨U, fee, R, order, rep⟩ := ih
      have usedEq : g.positions = U := rep.positions
      rw [usedEq] at injective range
      obtain ⟨fee', -, rep'⟩ := DepGraph.remap_spec rep order injective range
      exact ⟨_, fee', _, order.image injective, rep'⟩

theorem Reachable.isAcyclic {size : ℕ} {g : DepGraph} (reached : Reachable size g) :
    g.isAcyclic = true := by
  obtain ⟨U, fee, R, order, rep⟩ := reached.represents
  exact rep.isAcyclic order

theorem depGraph_tracks_exact_ancestor_relation (size : ℕ) :
    (∀ g : DepGraph, Reachable size g → ∃ (U : Finset ℕ) (fee : ℕ → FeeFrac) (R : ℕ → ℕ → Prop),
      PartialOrderOn U R ∧ Represents g U fee R ∧ g.isAcyclic = true) ∧
    (∀ (g : DepGraph) U fee R, Represents g U fee R → PartialOrderOn U R →
      ∀ feefrac, (∃ n < size, n ∉ U) →
        ∃ g' n, g.addTransaction size feefrac = some (g', n) ∧ n ∉ U ∧ (∀ m < n, m ∈ U) ∧
          Represents g' (insert n U) (Function.update fee n feefrac) (insertPoint R n) ∧
          PartialOrderOn (insert n U) (insertPoint R n)) ∧
    (∀ (g : DepGraph) U fee R (P : Finset ℕ) c, Represents g U fee R → PartialOrderOn U R →
      c ∈ U → P ⊆ U → (∀ p ∈ P, ¬R c p) →
        Represents (g.addDependencies P c) U fee (Relation.TransGen fun a b => R a b ∨ a ∈ P ∧ b = c) ∧
        PartialOrderOn U (Relation.TransGen fun a b => R a b ∨ a ∈ P ∧ b = c)) ∧
    (∀ (g : DepGraph) U fee R (D : Finset ℕ), Represents g U fee R → PartialOrderOn U R →
      Represents (g.removeTransactions D) (U \ D) fee (restrict R D) ∧
        PartialOrderOn (U \ D) (restrict R D)) ∧
    (∀ (g : DepGraph) U fee R (mapping : List ℕ) posRange, Represents g U fee R →
      PartialOrderOn U R → Set.InjOn (mapping.getD · 0) U →
        posRange = U.sup (fun i => mapping.getD i 0 + 1) →
          ∃ fee' : ℕ → FeeFrac, (∀ i ∈ U, fee' (mapping.getD i 0) = fee i) ∧
            Represents (g.remap mapping posRange) (U.image (mapping.getD · 0)) fee'
              (image (mapping.getD · 0) R)) := by
  refine ⟨?_, ?_, ?_, ?_, ?_⟩
  · intro g reached
    obtain ⟨U, fee, R, order, rep⟩ := reached.represents
    exact ⟨U, fee, R, order, rep, rep.isAcyclic order⟩
  · intro g U fee R rep order feefrac room
    obtain ⟨g', n, added, fresh, least, rep'⟩ :=
      addTransaction_spec rep order.toPreorderOn size feefrac room
    exact ⟨g', n, added, fresh, least, rep', order.insertPoint fresh⟩
  · intro g U fee R P c rep order child parents acyclic
    rw [transGen_union_eq order.toPreorderOn parents child]
    exact ⟨addDependencies_spec rep order.toPreorderOn parents child, order.addEdges acyclic⟩
  · intro g U fee R D rep order
    exact ⟨removeTransactions_spec rep D, order.restrict⟩
  · intro g U fee R mapping posRange rep order injective range
    exact DepGraph.remap_spec rep order injective range

/-- Two transactions and the dependency of the second on the first, as a program adds them:
the graph reached represents a partial order and is acyclic. -/
theorem two_transactions_with_dependency_represented :
    ∃ (U : Finset ℕ) (fee : ℕ → FeeFrac) (R : ℕ → ℕ → Prop), PartialOrderOn U R ∧
      Represents (DepGraph.addDependencies {0} 1
        ⟨[⟨⟨5, 1⟩, {0}, {0}⟩, ⟨⟨7, 2⟩, {1}, {1}⟩], {1, 0}⟩) U fee R ∧
      (DepGraph.addDependencies {0} 1
        ⟨[⟨⟨5, 1⟩, {0}, {0}⟩, ⟨⟨7, 2⟩, {1}, {1}⟩], {1, 0}⟩).isAcyclic = true :=
  (depGraph_tracks_exact_ancestor_relation 2).1 _
    (Reachable.addDependencies
      (@Reachable.addTransaction 2 ⟨[⟨⟨5, 1⟩, {0}, {0}⟩], {0}⟩ _ ⟨7, 2⟩ 1
        (@Reachable.addTransaction 2 DepGraph.empty _ ⟨5, 1⟩ 0 Reachable.empty rfl) rfl)
      (by decide) (by decide) (by decide))

end Freycoin.Cluster
