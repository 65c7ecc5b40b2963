import Mathlib.Data.List.Basic

/-! Lists in which no element is followed by one it must come after. -/

namespace ListOrder

variable {α : Type*} {r : α → α → Prop}

/-- No element of `l` is followed by another one it must come after. -/
def Ordered (r : α → α → Prop) (l : List α) : Prop := l.Pairwise fun x y => r x y → y = x

theorem Ordered.append_singleton {l : List α} {x : α} (ordered : Ordered r l)
    (free : ∀ y ∈ l, r y x → x = y) : Ordered r (l ++ [x]) := by
  refine List.pairwise_append.mpr ⟨ordered, List.pairwise_singleton _ x, ?_⟩
  intro y member z single
  rw [List.mem_singleton.mp single]
  exact free y member

theorem Ordered.swap {A B C D : List α} (ordered : Ordered r (A ++ B ++ C ++ D))
    (free : ∀ c ∈ C, ∀ b ∈ B, ¬r c b) : Ordered r (A ++ C ++ B ++ D) := by
  unfold Ordered at ordered ⊢
  rw [List.append_assoc, List.append_assoc, List.pairwise_append, List.pairwise_append,
    List.pairwise_append] at ordered
  obtain ⟨orderedA, ⟨orderedB, ⟨orderedC, orderedD, cBeforeD⟩, bBeforeRest⟩, aBeforeRest⟩ := ordered
  rw [List.append_assoc, List.append_assoc, List.pairwise_append, List.pairwise_append,
    List.pairwise_append]
  refine ⟨orderedA, ⟨orderedC, ⟨orderedB, orderedD, ?_⟩, ?_⟩, ?_⟩
  · exact fun b member d later => bBeforeRest b member d (List.mem_append_right C later)
  · -- `C` now comes before `B`, which `free` allows
    intro c member x later
    rcases List.mem_append.mp later with inB | inD
    · exact fun must => absurd must (free c member x inB)
    · exact cBeforeD c member x inD
  · intro a member x later
    apply aBeforeRest a member x
    rcases List.mem_append.mp later with inC | inBD
    · exact List.mem_append_right B (List.mem_append_left D inC)
    · rcases List.mem_append.mp inBD with inB | inD
      · exact List.mem_append_left _ inB
      · exact List.mem_append_right B (List.mem_append_right C inD)

theorem Ordered.eq_of_mem_take {l : List α} (ordered : Ordered r l) {i : ℕ} (inside : i < l.length)
    {y : α} (before : y ∈ l.take i) (must : r y l[i]) : l[i] = y := by
  have split : l = l.take i ++ l.drop i := (List.take_append_drop i l).symm
  have later : l[i] ∈ l.drop i := by
    rw [List.drop_eq_getElem_cons inside]
    exact List.mem_cons_self
  unfold Ordered at ordered
  rw [split, List.pairwise_append] at ordered
  exact ordered.2.2 y before l[i] later must

theorem Ordered.reverse {s : α → α → Prop} {l : List α} (ordered : Ordered r l)
    (converse : ∀ x ∈ l, ∀ y ∈ l, s y x → r x y) : Ordered s l.reverse := by
  unfold Ordered at ordered ⊢
  rw [List.pairwise_reverse]
  exact ordered.imp_of_mem fun {x y} inX inY must back => (must (converse x inX y inY back)).symm

end ListOrder
