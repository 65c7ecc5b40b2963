import Freycoin.Cluster.DepGraph
import Freycoin.Library.RelationOn

/-! What a `DepGraph` stands for, and what each update does to it. -/

namespace Freycoin.Cluster

open RelationOn

structure Represents (g : DepGraph) (U : Finset ℕ) (fee : ℕ → FeeFrac) (R : ℕ → ℕ → Prop) :
    Prop where
  positions : g.positions = U
  positionRange : g.positionRange = U.sup (· + 1)
  feeRate : ∀ i ∈ U, g.feeRate i = fee i
  ancestors : ∀ i ∈ U, ∀ j, j ∈ g.ancestors i ↔ j ∈ U ∧ R j i
  descendants : ∀ i ∈ U, ∀ j, j ∈ g.descendants i ↔ j ∈ U ∧ R i j

namespace Represents

variable {g : DepGraph} {U : Finset ℕ} {fee : ℕ → FeeFrac} {R : ℕ → ℕ → Prop}

theorem lt_length (rep : Represents g U fee R) {i : ℕ} (member : i ∈ U) :
    i < g.entries.length := by
  have range := rep.positionRange
  have atMost : i + 1 ≤ U.sup (· + 1) := Finset.le_sup member
  rw [DepGraph.positionRange] at range
  omega

theorem congr (rep : Represents g U fee R) {R' : ℕ → ℕ → Prop}
    (same : ∀ a ∈ U, ∀ b ∈ U, R a b ↔ R' a b) : Represents g U fee R' where
  positions := rep.positions
  positionRange := rep.positionRange
  feeRate := rep.feeRate
  ancestors := by
    intro i member j
    rw [rep.ancestors i member j]
    exact ⟨fun ⟨inside, related⟩ => ⟨inside, (same j inside i member).mp related⟩,
      fun ⟨inside, related⟩ => ⟨inside, (same j inside i member).mpr related⟩⟩
  descendants := by
    intro i member j
    rw [rep.descendants i member j]
    exact ⟨fun ⟨inside, related⟩ => ⟨inside, (same i member j inside).mp related⟩,
      fun ⟨inside, related⟩ => ⟨inside, (same i member j inside).mpr related⟩⟩

theorem self_ancestor (rep : Represents g U fee R) (order : PreorderOn U R) {i : ℕ}
    (member : i ∈ U) : i ∈ g.ancestors i :=
  (rep.ancestors i member i).mpr ⟨member, order.refl i member⟩

theorem isAcyclic (rep : Represents g U fee R) (order : PartialOrderOn U R) :
    g.isAcyclic = true := by
  rw [DepGraph.isAcyclic, List.all_eq_true]
  intro i member
  rw [mem_members, rep.positions] at member
  rw [decide_eq_true_eq]
  ext j
  rw [Finset.mem_inter, rep.ancestors i member j, rep.descendants i member j,
    Finset.mem_singleton]
  constructor
  · rintro ⟨⟨-, below⟩, ⟨-, above⟩⟩
    exact order.antisymm below above
  · rintro rfl
    exact ⟨⟨member, order.refl j member⟩, ⟨member, order.refl j member⟩⟩

end Represents

theorem represents_empty (fee : ℕ → FeeFrac) :
    Represents DepGraph.empty ∅ fee (fun _ _ => False) where
  positions := rfl
  positionRange := rfl
  feeRate := by simp
  ancestors := by simp
  descendants := by simp

theorem partialOrderOn_empty : PartialOrderOn (∅ : Finset ℕ) (fun _ _ => False) where
  support := False.elim
  refl := by simp
  trans := False.elim
  antisymm := False.elim

section AddTransaction

variable {g : DepGraph} {U : Finset ℕ} {fee : ℕ → FeeFrac} {R : ℕ → ℕ → Prop}

theorem addTransaction_position (rep : Represents g U fee R) {size : ℕ}
    (nonempty : (Finset.range size \ g.used).Nonempty) :
    (Finset.range size \ g.used).min' nonempty ∉ U ∧
      (∀ m < (Finset.range size \ g.used).min' nonempty, m ∈ U) ∧
      (Finset.range size \ g.used).min' nonempty ≤ g.entries.length := by
  have fresh := Finset.min'_mem _ nonempty
  rw [Finset.mem_sdiff, Finset.mem_range] at fresh
  have usedEq : g.used = U := rep.positions
  have below : ∀ m < (Finset.range size \ g.used).min' nonempty, m ∈ U := by
    intro m smaller
    by_contra unused
    have available : m ∈ Finset.range size \ g.used := by
      rw [Finset.mem_sdiff, Finset.mem_range, usedEq]
      exact ⟨by omega, unused⟩
    have := Finset.min'_le _ m available
    omega
  refine ⟨usedEq ▸ fresh.2, below, ?_⟩
  -- the position just below is used, so the position range reaches the new one
  rcases Nat.eq_zero_or_pos ((Finset.range size \ g.used).min' nonempty) with zero | positive
  · rw [zero]
    exact Nat.zero_le _
  · have := rep.lt_length (below _ (Nat.sub_lt positive Nat.one_pos))
    omega

theorem addTransaction_spec (rep : Represents g U fee R) (order : PreorderOn U R) (size : ℕ)
    (feefrac : FeeFrac) (room : ∃ n < size, n ∉ U) :
    ∃ g' n, g.addTransaction size feefrac = some (g', n) ∧ n ∉ U ∧ (∀ m < n, m ∈ U) ∧
      Represents g' (insert n U) (Function.update fee n feefrac) (insertPoint R n) := by
  have nonempty : (Finset.range size \ g.used).Nonempty := by
    obtain ⟨n, below, unused⟩ := room
    have usedEq : g.used = U := rep.positions
    exact ⟨n, Finset.mem_sdiff.mpr ⟨Finset.mem_range.mpr below, usedEq ▸ unused⟩⟩
  obtain ⟨fresh, least, within⟩ := addTransaction_position rep nonempty
  set n := (Finset.range size \ g.used).min' nonempty with nDef
  have entries := getElem?_appendOrSet g.entries n ⟨feefrac, {n}, {n}⟩ within
  refine ⟨_, n, by rw [DepGraph.addTransaction, dif_pos nonempty], fresh, least, ?_⟩
  -- the new point reads its own entry; every other point reads its old one
  have outside : ∀ {a b}, R a b → a ≠ n ∧ b ≠ n := fun related =>
    ⟨fun same => fresh (same ▸ (order.support related).1),
      fun same => fresh (same ▸ (order.support related).2)⟩
  constructor
  · rw [← rep.positions]
    rfl
  · have range := rep.positionRange
    rw [DepGraph.positionRange] at range ⊢
    rw [Finset.sup_insert]
    split_ifs with last
    · rw [List.length_append, List.length_singleton, ← range, ← last]
      exact (max_eq_left (Nat.le_succ n)).symm
    · rw [List.length_set, ← range]
      exact (max_eq_right (by omega)).symm
  · intro i member
    rw [DepGraph.feeRate_eq, entries]
    by_cases here : i = n
    · rw [if_pos here, here, Function.update_self]
      rfl
    · rw [if_neg here, Function.update_of_ne here, ← DepGraph.feeRate_eq]
      exact rep.feeRate i ((Finset.mem_insert.mp member).resolve_left here)
  · intro i member j
    rw [DepGraph.ancestors_eq, entries, insertPoint]
    by_cases here : i = n
    · rw [if_pos here, here]
      rw [Option.getD_some, Finset.mem_singleton, Finset.mem_insert]
      constructor
      · intro same
        exact ⟨Or.inl same, Or.inr ⟨same, rfl⟩⟩
      · intro both
        exact both.2.elim (fun r => absurd rfl (outside r).2) And.left
    · have inside := (Finset.mem_insert.mp member).resolve_left here
      rw [if_neg here, ← DepGraph.ancestors_eq, rep.ancestors i inside j, Finset.mem_insert]
      constructor
      · intro both
        exact ⟨Or.inr both.1, Or.inl both.2⟩
      · intro both
        exact both.2.elim (fun r => ⟨(order.support r).1, r⟩) (fun pair => absurd pair.2 here)
  · intro i member j
    rw [DepGraph.descendants_eq, entries, insertPoint]
    by_cases here : i = n
    · rw [if_pos here, here]
      rw [Option.getD_some, Finset.mem_singleton, Finset.mem_insert]
      constructor
      · intro same
        exact ⟨Or.inl same, Or.inr ⟨rfl, same⟩⟩
      · intro both
        exact both.2.elim (fun r => absurd rfl (outside r).1) And.right
    · have inside := (Finset.mem_insert.mp member).resolve_left here
      rw [if_neg here, ← DepGraph.descendants_eq, rep.descendants i inside j, Finset.mem_insert]
      constructor
      · intro both
        exact ⟨Or.inr both.1, Or.inl both.2⟩
      · intro both
        exact both.2.elim (fun r => ⟨(order.support r).2, r⟩) (fun pair => absurd pair.1 here)

end AddTransaction

section RemoveTransactions

variable {g : DepGraph} {U : Finset ℕ} {fee : ℕ → FeeFrac} {R : ℕ → ℕ → Prop}

theorem removeTransactions_spec (rep : Represents g U fee R) (del : Finset ℕ) :
    Represents (g.removeTransactions del) (U \ del) fee (restrict R del) := by
  have usedEq : g.positions = U := rep.positions
  have kept : DepGraph.keptLength (U \ del) g.entries.length = (U \ del).sup (· + 1) :=
    DepGraph.keptLength_eq_sup _ _ fun u member => rep.lt_length (Finset.mem_sdiff.mp member).1
  -- a position still used lies below the new position range, so it keeps its entry
  have entry : ∀ i ∈ U \ del, _ := fun i member => by
    have bound : i + 1 ≤ (U \ del).sup (· + 1) := Finset.le_sup member
    have kept' : i < DepGraph.keptLength (g.positions \ del) g.entries.length := by
      rw [usedEq, kept]
      exact bound
    exact g.entry_removeTransactions del kept'
  constructor
  · rw [DepGraph.positions_removeTransactions, usedEq]
  · rw [DepGraph.positionRange_removeTransactions, usedEq, kept]
  · intro i member
    rw [(entry i member).1]
    exact rep.feeRate i (Finset.mem_sdiff.mp member).1
  · intro i member j
    have inside := Finset.mem_sdiff.mp member
    rw [(entry i member).2.1, Finset.mem_inter, rep.ancestors i inside.1 j, usedEq,
      Finset.mem_sdiff, restrict]
    exact ⟨fun ⟨⟨_, related⟩, jIn, jKept⟩ => ⟨⟨jIn, jKept⟩, related, jKept, inside.2⟩,
      fun ⟨⟨jIn, jKept⟩, related, _⟩ => ⟨⟨jIn, related⟩, jIn, jKept⟩⟩
  · intro i member j
    have inside := Finset.mem_sdiff.mp member
    rw [(entry i member).2.2, Finset.mem_inter, rep.descendants i inside.1 j, usedEq,
      Finset.mem_sdiff, restrict]
    exact ⟨fun ⟨⟨_, related⟩, jIn, jKept⟩ => ⟨⟨jIn, jKept⟩, related, inside.2, jKept⟩,
      fun ⟨⟨jIn, jKept⟩, related, _⟩ => ⟨⟨jIn, related⟩, jIn, jKept⟩⟩

end RemoveTransactions

section AddDependencies

variable {g : DepGraph} {U : Finset ℕ} {fee : ℕ → FeeFrac} {R : ℕ → ℕ → Prop}
  {P : Finset ℕ} {c : ℕ}

theorem mem_parentAncestors (rep : Represents g U fee R) (parents : P ⊆ U) (child : c ∈ U)
    (a : ℕ) :
    a ∈ g.parentAncestors P c ↔ a ∈ U ∧ (∃ p ∈ P, ¬R p c ∧ R a p) ∧ ¬R a c := by
  rw [DepGraph.parentAncestors, Finset.mem_sdiff, Finset.mem_biUnion, rep.ancestors c child a]
  constructor
  · rintro ⟨⟨p, newParent, below⟩, notBelow⟩
    rw [Finset.mem_sdiff, rep.ancestors c child p] at newParent
    rw [rep.ancestors p (parents newParent.1) a] at below
    exact ⟨below.1, ⟨p, newParent.1, fun pc => newParent.2 ⟨parents newParent.1, pc⟩, below.2⟩,
      fun ac => notBelow ⟨below.1, ac⟩⟩
  · rintro ⟨inside, ⟨p, parent, pc, ap⟩, ac⟩
    refine ⟨⟨p, ?_, ?_⟩, fun below => ac below.2⟩
    · rw [Finset.mem_sdiff, rep.ancestors c child p]
      exact ⟨parent, fun below => pc below.2⟩
    · rw [rep.ancestors p (parents parent) a]
      exact ⟨inside, ap⟩

theorem addDependencies_spec (rep : Represents g U fee R) (order : PreorderOn U R)
    (parents : P ⊆ U) (child : c ∈ U) :
    Represents (g.addDependencies P c) U fee (addEdges R P c) := by
  have selfAncestor := rep.self_ancestor order child
  constructor
  · rw [DepGraph.positions_addDependencies, rep.positions]
  · rw [DepGraph.positionRange, DepGraph.length_addDependencies]
    exact rep.positionRange
  · intro i member
    rw [DepGraph.feeRate_addDependencies selfAncestor]
    exact rep.feeRate i member
  · intro i member j
    rw [DepGraph.ancestors_addDependencies selfAncestor (rep.lt_length member), addEdges]
    split_ifs with below
    · have ci : R c i := ((rep.descendants c child i).mp below).2
      rw [Finset.mem_union, rep.ancestors i member j, mem_parentAncestors rep parents child j]
      constructor
      · rintro (⟨inside, ji⟩ | ⟨inside, ⟨p, parent, -, jp⟩, -⟩)
        · exact ⟨inside, Or.inl ji⟩
        · exact ⟨inside, Or.inr ⟨p, parent, jp, ci⟩⟩
      · rintro ⟨inside, ji | ⟨p, parent, jp, -⟩⟩
        · exact Or.inl ⟨inside, ji⟩
        -- below a new parent: already below `i` through `c`, or one of `par_anc`
        · by_cases pc : R p c
          · exact Or.inl ⟨inside, order.trans jp (order.trans pc ci)⟩
          · by_cases jc : R j c
            · exact Or.inl ⟨inside, order.trans jc ci⟩
            · exact Or.inr ⟨inside, ⟨p, parent, pc, jp⟩, jc⟩
    · rw [rep.ancestors i member j]
      constructor
      · rintro ⟨inside, ji⟩
        exact ⟨inside, Or.inl ji⟩
      · rintro ⟨inside, ji | ⟨p, -, -, ci⟩⟩
        · exact ⟨inside, ji⟩
        · exact absurd ((rep.descendants c child i).mpr ⟨member, ci⟩) below
  · intro i member x
    rw [DepGraph.descendants_addDependencies selfAncestor (rep.lt_length member), addEdges]
    split_ifs with above
    · obtain ⟨-, ⟨p, parent, -, ip⟩, -⟩ := (mem_parentAncestors rep parents child i).mp above
      rw [Finset.mem_union, rep.descendants i member x, rep.descendants c child x]
      constructor
      · rintro (⟨inside, ix⟩ | ⟨inside, cx⟩)
        · exact ⟨inside, Or.inl ix⟩
        · exact ⟨inside, Or.inr ⟨p, parent, ip, cx⟩⟩
      · rintro ⟨inside, ix | ⟨-, -, -, cx⟩⟩
        · exact Or.inl ⟨inside, ix⟩
        · exact Or.inr ⟨inside, cx⟩
    · rw [rep.descendants i member x]
      constructor
      · rintro ⟨inside, ix⟩
        exact ⟨inside, Or.inl ix⟩
      · rintro ⟨inside, ix | ⟨p, parent, ip, cx⟩⟩
        · exact ⟨inside, ix⟩
        -- `i` is not in `par_anc`, so it was below `c` already
        · by_cases ic : R i c
          · exact ⟨inside, order.trans ic cx⟩
          · by_cases pc : R p c
            · exact absurd (order.trans ip pc) ic
            · exact absurd ((mem_parentAncestors rep parents child i).mpr
                ⟨member, ⟨p, parent, pc, ip⟩, ic⟩) above

end AddDependencies

end Freycoin.Cluster
