import Mathlib.Data.Finset.Card

/-! Sets closed under a neighbour function, within a set. -/

namespace ClosedSets

variable {α β : Type*} [DecidableEq α] {nbr nbr' : α → Finset α} {T T' A B D : Finset α}

/-- What a member of `A` reaches by `nbr` inside `T` is in `A`. -/
def ClosedUnder (nbr : α → Finset α) (T A : Finset α) : Prop := ∀ x ∈ A, nbr x ∩ T ⊆ A

theorem closedUnder_empty : ClosedUnder nbr T ∅ := by
  intro x member
  exact absurd member (Finset.notMem_empty x)

theorem ClosedUnder.union (closedA : ClosedUnder nbr T A) (closedB : ClosedUnder nbr T B) :
    ClosedUnder nbr T (A ∪ B) := by
  intro x member
  rcases Finset.mem_union.mp member with inA | inB
  · exact (closedA x inA).trans Finset.subset_union_left
  · exact (closedB x inB).trans Finset.subset_union_right

theorem ClosedUnder.inter (closedA : ClosedUnder nbr T A) (closedB : ClosedUnder nbr T B) :
    ClosedUnder nbr T (A ∩ B) := by
  intro x member
  obtain ⟨inA, inB⟩ := Finset.mem_inter.mp member
  exact Finset.subset_inter (closedA x inA) (closedB x inB)

theorem ClosedUnder.sdiff (closedA : ClosedUnder nbr T A) (closedD : ClosedUnder nbr' T' D)
    (within : A ⊆ T') (converse : ∀ x ∈ A, ∀ y ∈ D, y ∈ nbr x → x ∈ nbr' y) :
    ClosedUnder nbr T (A \ D) := by
  intro x member y reached
  obtain ⟨inA, notD⟩ := Finset.mem_sdiff.mp member
  have yInA : y ∈ A := closedA x inA reached
  refine Finset.mem_sdiff.mpr ⟨yInA, fun yInD => notD ?_⟩
  apply closedD y yInD
  exact Finset.mem_inter.mpr ⟨converse x inA y yInD (Finset.mem_inter.mp reached).1, within inA⟩

theorem ClosedUnder.trans (closedA : ClosedUnder nbr T' A) (closedT' : ClosedUnder nbr T T')
    (within : A ⊆ T') : ClosedUnder nbr T A := by
  intro x member y reached
  have inT' : y ∈ T' := closedT' x (within member) reached
  exact closedA x member (Finset.mem_inter.mpr ⟨(Finset.mem_inter.mp reached).1, inT'⟩)

theorem ClosedUnder.mono (closed : ClosedUnder nbr' T A) (fewer : ∀ x ∈ A, nbr x ⊆ nbr' x) :
    ClosedUnder nbr T A :=
  fun x member => (Finset.inter_subset_inter_right (fewer x member)).trans (closed x member)

theorem closedUnder_inter {x : α} (transitive : ∀ y ∈ nbr x ∩ T, nbr y ⊆ nbr x) :
    ClosedUnder nbr T (nbr x ∩ T) :=
  fun y member => Finset.inter_subset_inter_right (transitive y member)

theorem mem_foldl_union (f : β → Finset α) (l : List β) (init : Finset α) (y : α) :
    y ∈ l.foldl (fun acc b => acc ∪ f b) init ↔ y ∈ init ∨ ∃ b ∈ l, y ∈ f b := by
  induction l generalizing init with
  | nil => simp
  | cons b l ih =>
      rw [List.foldl_cons, ih, Finset.mem_union]
      constructor
      · rintro ((inInit | here) | ⟨c, listed, reached⟩)
        · exact Or.inl inInit
        · exact Or.inr ⟨b, List.mem_cons_self, here⟩
        · exact Or.inr ⟨c, List.mem_cons_of_mem b listed, reached⟩
      · rintro (inInit | ⟨c, listed, reached⟩)
        · exact Or.inl (Or.inl inInit)
        · rcases List.mem_cons.mp listed with rfl | later
          · exact Or.inl (Or.inr reached)
          · exact Or.inr ⟨c, later, reached⟩

section Grow

variable (nbr T) (members : Finset α → List α) (listed : ∀ s x, x ∈ members s ↔ x ∈ s)

/-- The loop that grows `ret` within `T` by the neighbours of the points it added last, for at
most `fuel` passes. -/
def grow : ℕ → Finset α → Finset α → Finset α
  | 0, _, ret => ret
  | fuel + 1, toAdd, ret =>
    let next := (members toAdd).foldl (fun acc b => acc ∪ nbr b) ret ∩ T
    if (next \ ret).Nonempty then grow fuel (next \ ret) next else next

include listed

theorem mem_grow_pass {toAdd ret : Finset α} {y : α} :
    y ∈ (members toAdd).foldl (fun acc b => acc ∪ nbr b) ret ∩ T ↔
      (y ∈ ret ∨ ∃ b ∈ toAdd, y ∈ nbr b) ∧ y ∈ T := by
  rw [Finset.mem_inter, mem_foldl_union]
  simp only [listed]

theorem grow_spec (fuel : ℕ) : ∀ toAdd ret : Finset α, ret ⊆ T →
    (∀ x ∈ ret, x ∉ toAdd → nbr x ∩ T ⊆ ret) → T.card - ret.card < fuel →
    ret ⊆ grow nbr T members fuel toAdd ret ∧ grow nbr T members fuel toAdd ret ⊆ T ∧
      (∀ b ∈ toAdd, nbr b ∩ T ⊆ grow nbr T members fuel toAdd ret) ∧
      ClosedUnder nbr T (grow nbr T members fuel toAdd ret) := by
  induction fuel with
  | zero => intro toAdd ret _ _ enough; omega
  | succ fuel ih =>
      intro toAdd ret inside settled enough
      set next := (members toAdd).foldl (fun acc b => acc ∪ nbr b) ret ∩ T with next_def
      have grows : ret ⊆ next := fun y member =>
        (mem_grow_pass nbr T members listed).mpr ⟨Or.inl member, inside member⟩
      have nextInside : next ⊆ T := fun y member => ((mem_grow_pass nbr T members listed).mp member).2
      have reaches : ∀ b ∈ toAdd, nbr b ∩ T ⊆ next := by
        intro b frontier y reached
        obtain ⟨near, inT⟩ := Finset.mem_inter.mp reached
        exact (mem_grow_pass nbr T members listed).mpr ⟨Or.inr ⟨b, frontier, near⟩, inT⟩
      -- the points of `ret` were settled before this pass or are settled by it
      have settled' : ∀ x ∈ next, x ∉ next \ ret → nbr x ∩ T ⊆ next := by
        intro x member notNew
        have old : x ∈ ret := by
          by_contra fresh
          exact notNew (Finset.mem_sdiff.mpr ⟨member, fresh⟩)
        by_cases frontier : x ∈ toAdd
        · exact reaches x frontier
        · exact (settled x old frontier).trans grows
      rw [grow, ← next_def]
      split_ifs with added
      · obtain ⟨y, new⟩ := added
        have bigger : ret.card < next.card :=
          Finset.card_lt_card ((Finset.ssubset_iff_of_subset grows).mpr
            ⟨y, (Finset.mem_sdiff.mp new).1, (Finset.mem_sdiff.mp new).2⟩)
        have bounded : next.card ≤ T.card := Finset.card_le_card nextInside
        obtain ⟨holds, stays, frontier, closed⟩ := ih (next \ ret) next nextInside settled' (by omega)
        exact ⟨grows.trans holds, stays, fun b member => (reaches b member).trans holds, closed⟩
      · -- nothing new: every point of `next` is settled
        have same : next \ ret = ∅ := Finset.not_nonempty_iff_eq_empty.mp added
        refine ⟨grows, nextInside, reaches, ?_⟩
        intro x member
        apply settled' x member
        rw [same]
        exact Finset.notMem_empty x

end Grow

end ClosedSets
