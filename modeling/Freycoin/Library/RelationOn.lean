import Mathlib.Data.Finset.Card
import Mathlib.Data.Finset.Image
import Mathlib.Logic.Relation

/-! Relations on a finite set of points. -/

namespace RelationOn

variable {α β : Type*}

/-- `R` is a preorder on the points `V`: it relates only points of `V`, and it is reflexive
and transitive there. -/
structure PreorderOn (V : Finset α) (R : α → α → Prop) : Prop where
  support : ∀ {a b}, R a b → a ∈ V ∧ b ∈ V
  refl : ∀ a ∈ V, R a a
  trans : ∀ {a b c}, R a b → R b c → R a c

/-- A preorder on `V` that is antisymmetric. -/
structure PartialOrderOn (V : Finset α) (R : α → α → Prop) : Prop extends PreorderOn V R where
  antisymm : ∀ {a b}, R a b → R b a → a = b

/-- The relation with one more point, related only to itself. -/
def insertPoint (R : α → α → Prop) (n : α) (a b : α) : Prop :=
  R a b ∨ a = n ∧ b = n

/-- The relation restricted to the points outside `D`. -/
def restrict (R : α → α → Prop) (D : Finset α) (a b : α) : Prop :=
  R a b ∧ a ∉ D ∧ b ∉ D

/-- The relation with the edges `p → c` for `p ∈ P`, closed transitively (when `R` is a
preorder, see `transGen_union_iff`). -/
def addEdges (R : α → α → Prop) (P : Finset α) (c : α) (a d : α) : Prop :=
  R a d ∨ ∃ p ∈ P, R a p ∧ R c d

/-- The image of a relation under a map. -/
def image (m : α → β) (R : α → α → Prop) (a b : β) : Prop :=
  ∃ i j, R i j ∧ m i = a ∧ m j = b

section Insert

variable [DecidableEq α] {V : Finset α} {R : α → α → Prop} {n : α}

theorem PartialOrderOn.insertPoint (order : PartialOrderOn V R) (fresh : n ∉ V) :
    PartialOrderOn (insert n V) (insertPoint R n) where
  support := by
    rintro a b (related | ⟨rfl, rfl⟩)
    · exact ⟨Finset.mem_insert_of_mem (order.support related).1,
        Finset.mem_insert_of_mem (order.support related).2⟩
    · exact ⟨Finset.mem_insert_self _ V, Finset.mem_insert_self _ V⟩
  refl := by
    intro a member
    rcases Finset.mem_insert.mp member with rfl | inside
    · exact Or.inr ⟨rfl, rfl⟩
    · exact Or.inl (order.refl a inside)
  trans := by
    -- a chain through the new point never leaves it, since `R` does not reach it
    rintro a b c (ab | ⟨an, bn⟩) (bc | ⟨bn', cn⟩)
    · exact Or.inl (order.trans ab bc)
    · exact absurd (bn' ▸ (order.support ab).2) fresh
    · exact absurd (bn ▸ (order.support bc).1) fresh
    · exact Or.inr ⟨an, cn⟩
  antisymm := by
    rintro a b (ab | ⟨an, bn⟩) (ba | ⟨bn', an'⟩)
    · exact order.antisymm ab ba
    · exact absurd (bn' ▸ (order.support ab).2) fresh
    · exact absurd (an ▸ (order.support ba).2) fresh
    · rw [an, bn]

end Insert

section Restrict

variable [DecidableEq α] {V : Finset α} {R : α → α → Prop} {D : Finset α}

theorem PartialOrderOn.restrict (order : PartialOrderOn V R) :
    PartialOrderOn (V \ D) (restrict R D) where
  support := by
    rintro a b ⟨related, aKept, bKept⟩
    exact ⟨Finset.mem_sdiff.mpr ⟨(order.support related).1, aKept⟩,
      Finset.mem_sdiff.mpr ⟨(order.support related).2, bKept⟩⟩
  refl := by
    intro a member
    rw [Finset.mem_sdiff] at member
    exact ⟨order.refl a member.1, member.2, member.2⟩
  trans := by
    rintro a b c ⟨ab, aKept, -⟩ ⟨bc, -, cKept⟩
    exact ⟨order.trans ab bc, aKept, cKept⟩
  antisymm := by
    rintro a b ⟨ab, -, -⟩ ⟨ba, -, -⟩
    exact order.antisymm ab ba

end Restrict

section AddEdges

variable {V : Finset α} {R : α → α → Prop} {P : Finset α} {c : α}

theorem transGen_union_iff (order : PreorderOn V R) (parents : P ⊆ V) (child : c ∈ V)
    (a d : α) :
    Relation.TransGen (fun x y => R x y ∨ x ∈ P ∧ y = c) a d ↔ addEdges R P c a d := by
  constructor
  · intro path
    induction path with
    | single step =>
        rcases step with related | ⟨parent, rfl⟩
        · exact Or.inl related
        · exact Or.inr ⟨_, parent, order.refl _ (parents parent), order.refl _ child⟩
    | tail _ step ih =>
        rcases ih with before | ⟨p, parent, ap, cb⟩ <;> rcases step with after | ⟨last, rfl⟩
        · exact Or.inl (order.trans before after)
        · exact Or.inr ⟨_, last, before, order.refl _ child⟩
        · exact Or.inr ⟨p, parent, ap, order.trans cb after⟩
        · exact Or.inr ⟨p, parent, ap, order.refl _ child⟩
  · rintro (related | ⟨p, parent, ap, cd⟩)
    · exact Relation.TransGen.single (Or.inl related)
    · have toChild : Relation.TransGen (fun x y => R x y ∨ x ∈ P ∧ y = c) a c :=
        Relation.TransGen.tail (Relation.TransGen.single (Or.inl ap)) (Or.inr ⟨parent, rfl⟩)
      exact Relation.TransGen.tail toChild (Or.inl cd)

theorem PreorderOn.addEdges (order : PreorderOn V R) : PreorderOn V (addEdges R P c) where
  support := by
    rintro a d (related | ⟨p, -, ap, cd⟩)
    · exact order.support related
    · exact ⟨(order.support ap).1, (order.support cd).2⟩
  refl := fun a member => Or.inl (order.refl a member)
  trans := by
    rintro a b d (ab | ⟨p, parent, ap, cb⟩) (bd | ⟨q, parent', bq, cd⟩)
    · exact Or.inl (order.trans ab bd)
    · exact Or.inr ⟨q, parent', order.trans ab bq, cd⟩
    · exact Or.inr ⟨p, parent, ap, order.trans cb bd⟩
    · exact Or.inr ⟨p, parent, ap, cd⟩

theorem PartialOrderOn.addEdges (order : PartialOrderOn V R) (acyclic : ∀ p ∈ P, ¬R c p) :
    PartialOrderOn V (addEdges R P c) where
  toPreorderOn := order.toPreorderOn.addEdges
  antisymm := by
    -- a cycle through a new edge would put one of its parents above `c`
    rintro a d (ad | ⟨p, parent, ap, cd⟩) (da | ⟨q, parent', dq, ca⟩)
    · exact order.antisymm ad da
    · exact absurd (order.trans ca (order.trans ad dq)) (acyclic q parent')
    · exact absurd (order.trans cd (order.trans da ap)) (acyclic p parent)
    · exact absurd (order.trans ca ap) (acyclic p parent)

end AddEdges

section Image

variable [DecidableEq β] {V : Finset α} {R : α → α → Prop} {m : α → β}

theorem PartialOrderOn.image (order : PartialOrderOn V R) (injective : Set.InjOn m V) :
    PartialOrderOn (V.image m) (image m R) where
  support := by
    rintro a b ⟨i, j, related, rfl, rfl⟩
    exact ⟨Finset.mem_image_of_mem m (order.support related).1,
      Finset.mem_image_of_mem m (order.support related).2⟩
  refl := by
    intro a member
    obtain ⟨i, inside, rfl⟩ := Finset.mem_image.mp member
    exact ⟨i, i, order.refl i inside, rfl, rfl⟩
  trans := by
    -- the middle point has one preimage, since `m` is injective on the points
    rintro a b c ⟨i, j, ij, rfl, rfl⟩ ⟨j', k, jk, same, rfl⟩
    have : j' = j := injective (order.support jk).1 (order.support ij).2 same
    subst this
    exact ⟨i, k, order.trans ij jk, rfl, rfl⟩
  antisymm := by
    rintro a b ⟨i, j, ij, rfl, rfl⟩ ⟨j', i', ji, same, same'⟩
    have jEq : j' = j := injective (order.support ji).1 (order.support ij).2 same
    have iEq : i' = i := injective (order.support ji).2 (order.support ij).1 same'
    subst jEq iEq
    rw [order.antisymm ij ji]

end Image

section Covers

variable {V : Finset α} {R Q : α → α → Prop}

theorem le_of_covers (order : PartialOrderOn V R) (covers : α → Finset α)
    (below : ∀ i ∈ V, ∀ s ∈ covers i, R s i ∧ s ≠ i)
    (cover : ∀ i ∈ V, ∀ j, R j i → j = i ∨ ∃ s ∈ covers i, R j s)
    (reflQ : ∀ i ∈ V, Q i i) (transQ : ∀ {a b c}, Q a b → Q b c → Q a c)
    (edges : ∀ i ∈ V, ∀ s ∈ covers i, Q s i) : ∀ i ∈ V, ∀ j, R j i → Q j i := by
  classical
  intro i
  induction hCount : (V.filter (R · i)).card using Nat.strong_induction_on generalizing i with
  | _ count ih =>
      intro member j related
      rcases cover i member j related with rfl | ⟨s, isCover, js⟩
      · exact reflQ j member
      · obtain ⟨si, distinct⟩ := below i member s isCover
        have fewer : (V.filter (R · s)).card < count := by
          rw [← hCount]
          apply Finset.card_lt_card
          constructor
          · intro x below_s
            rw [Finset.mem_filter] at below_s ⊢
            exact ⟨below_s.1, order.trans below_s.2 si⟩
          · intro above
            have iBelow : i ∈ V.filter (R · s) := above (Finset.mem_filter.mpr ⟨member, order.refl i member⟩)
            exact distinct (order.antisymm si (Finset.mem_filter.mp iBelow).2)
        exact transQ (ih _ fewer s rfl (order.support si).1 j js) (edges i member s isCover)

end Covers

end RelationOn
