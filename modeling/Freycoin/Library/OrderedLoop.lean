import Mathlib.Data.Finset.Lattice.Lemmas
import Mathlib.Data.Finset.Dedup
import Mathlib.Data.Finset.Insert

/-! Loops over distinct keys in increasing order, as `for (auto i : set)` runs over a bitset. -/

namespace OrderedLoop

variable {α β : Type*}

section Invariant

variable [LinearOrder α] (U : Finset α) (Inv : Finset α → β → Prop) (step : β → α → β)

theorem foldl_sorted_invariant
    (preserve : ∀ D b i, i ∈ U → i ∉ D → (∀ j ∈ U, j < i → j ∈ D) → Inv D b → Inv (insert i D) (step b i)) :
    ∀ (l : List α) (D : Finset α) (b : β), l.Pairwise (· < ·) → (∀ i ∈ l, i ∈ U ∧ i ∉ D) →
      (∀ j ∈ U, j ∈ D ∨ j ∈ l) → Inv D b → Inv (D ∪ l.toFinset) (l.foldl step b) := by
  intro l
  induction l with
  | nil =>
      intro D b _ _ _ start
      rw [List.toFinset_nil, Finset.union_empty]
      exact start
  | cons i rest ih =>
      intro D b sorted fresh covers start
      rw [List.pairwise_cons] at sorted
      have later : ∀ j ∈ rest, i < j := sorted.1
      have visited : ∀ j ∈ U, j < i → j ∈ D := by
        intro j member below
        rcases covers j member with done | ahead
        · exact done
        · rcases List.mem_cons.mp ahead with same | inRest
          · exact absurd (same ▸ below) (lt_irrefl i)
          · exact absurd (later j inRest) (not_lt.mpr below.le)
      have next := preserve D b i (fresh i List.mem_cons_self).1 (fresh i List.mem_cons_self).2 visited start
      have result := ih (insert i D) (step b i) sorted.2
        (fun j member => ⟨(fresh j (List.mem_cons_of_mem i member)).1, by
          rw [Finset.mem_insert, not_or]
          exact ⟨(ne_of_lt (later j member)).symm, (fresh j (List.mem_cons_of_mem i member)).2⟩⟩)
        (fun j member => by
          rcases covers j member with done | ahead
          · exact Or.inl (Finset.mem_insert_of_mem done)
          · rcases List.mem_cons.mp ahead with same | inRest
            · exact Or.inl (same ▸ Finset.mem_insert_self i D)
            · exact Or.inr inRest)
        next
      rw [List.foldl_cons]
      convert result using 1
      ext j
      simp only [Finset.mem_union, List.mem_toFinset, List.mem_cons, Finset.mem_insert]
      tauto

theorem foldl_sorted_all
    (preserve : ∀ D b i, i ∈ U → i ∉ D → (∀ j ∈ U, j < i → j ∈ D) → Inv D b → Inv (insert i D) (step b i))
    (l : List α) (sorted : l.Pairwise (· < ·)) (exact : ∀ i, i ∈ l ↔ i ∈ U) (b : β) (start : Inv ∅ b) :
    Inv U (l.foldl step b) := by
  have whole := foldl_sorted_invariant U Inv step preserve l ∅ b sorted
    (fun i member => ⟨(exact i).mp member, Finset.notMem_empty i⟩)
    (fun j member => Or.inr ((exact j).mpr member)) start
  convert whole using 1
  ext j
  rw [Finset.empty_union, List.mem_toFinset, exact]

end Invariant

section Best

/-- The body of a loop that keeps the best element seen so far and replaces it only by a
strictly better one. -/
def keepBest (better : α → α → Bool) : Option α → α → Option α
  | none, i => some i
  | some b, i => if better i b then some i else some b

variable {K : Type*} [LinearOrder K] (better : α → α → Bool) (key : α → K)

theorem foldl_keepBest_some :
    ∀ (l : List α) (b : α), (∀ i ∈ b :: l, ∀ c ∈ b :: l, better i c = true ↔ key c < key i) →
      ∃ c ∈ b :: l, l.foldl (keepBest better) (some b) = some c ∧ ∀ i ∈ b :: l, key i ≤ key c := by
  intro l
  induction l with
  | nil =>
      intro b _
      exact ⟨b, List.mem_singleton_self b, rfl, fun i member => by rw [List.mem_singleton.mp member]⟩
  | cons i rest ih =>
      intro b compares
      rw [List.foldl_cons, keepBest]
      by_cases improves : better i b = true
      · -- `i` replaces `b`, whose key is below it
        have below := (compares i (by simp) b (by simp)).mp improves
        rw [if_pos improves]
        obtain ⟨c, member, ends, greatest⟩ :=
          ih i fun x xm y ym => compares x (List.mem_cons_of_mem b xm) y (List.mem_cons_of_mem b ym)
        refine ⟨c, List.mem_cons_of_mem b member, ends, fun x xm => ?_⟩
        rcases List.mem_cons.mp xm with same | inRest
        · exact same ▸ (below.le.trans (greatest i List.mem_cons_self))
        · exact greatest x inRest
      · -- `b` stays, and `i` is not above it
        have notAbove : ¬key b < key i := fun above => improves ((compares i (by simp) b (by simp)).mpr above)
        have within : ∀ x ∈ b :: rest, x ∈ b :: i :: rest := by
          intro x xm
          rcases List.mem_cons.mp xm with same | inRest
          · exact same ▸ List.mem_cons_self
          · exact List.mem_cons_of_mem b (List.mem_cons_of_mem i inRest)
        rw [if_neg improves]
        obtain ⟨c, member, ends, greatest⟩ :=
          ih b fun x xm y ym => compares x (within x xm) y (within y ym)
        refine ⟨c, within c member, ends, fun x xm => ?_⟩
        rcases List.mem_cons.mp xm with same | inRest
        · exact same ▸ greatest b List.mem_cons_self
        · rcases List.mem_cons.mp inRest with same | inRest'
          · exact same ▸ (not_lt.mp notAbove).trans (greatest b List.mem_cons_self)
          · exact greatest x (List.mem_cons_of_mem b inRest')

theorem foldl_keepBest {l : List α} (nonempty : l ≠ [])
    (compares : ∀ i ∈ l, ∀ c ∈ l, better i c = true ↔ key c < key i) :
    ∃ c ∈ l, l.foldl (keepBest better) none = some c ∧ ∀ i ∈ l, key i ≤ key c := by
  obtain ⟨b, rest, rfl⟩ := List.exists_cons_of_ne_nil nonempty
  rw [List.foldl_cons, keepBest]
  exact foldl_keepBest_some better key rest b compares

theorem foldl_keepBest_some_mem : ∀ (l : List α) (b : α),
    ∃ c ∈ b :: l, l.foldl (keepBest better) (some b) = some c
  | [], b => ⟨b, List.mem_singleton_self b, rfl⟩
  | i :: rest, b => by
      rw [List.foldl_cons, keepBest]
      split_ifs
      · obtain ⟨c, member, ends⟩ := foldl_keepBest_some_mem rest i
        exact ⟨c, List.mem_cons_of_mem b member, ends⟩
      · obtain ⟨c, member, ends⟩ := foldl_keepBest_some_mem rest b
        refine ⟨c, ?_, ends⟩
        rcases List.mem_cons.mp member with same | later
        · exact same ▸ List.mem_cons_self
        · exact List.mem_cons_of_mem b (List.mem_cons_of_mem i later)

theorem foldl_keepBest_mem {l : List α} (nonempty : l ≠ []) :
    ∃ c ∈ l, l.foldl (keepBest better) none = some c := by
  obtain ⟨b, rest, rfl⟩ := List.exists_cons_of_ne_nil nonempty
  rw [List.foldl_cons, keepBest]
  exact foldl_keepBest_some_mem better rest b

end Best

end OrderedLoop
