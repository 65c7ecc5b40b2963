import Mathlib.Algebra.Order.Field.Basic
import Mathlib.Tactic.FieldSimp
import Mathlib.Tactic.Linarith
import Mathlib.Tactic.Ring

/-! Polylines: piecewise linear functions given by a start point and a list of segments. -/

namespace Polyline

variable {α : Type*} [Field α] [LinearOrder α]

/-- The value at `x` of the polyline from `start` along `segments`, level after the last. -/
def value (start : α × α) : List (α × α) → α → α
  | [], _ => start.2
  | seg :: rest, x =>
    if x ≤ start.1 + seg.1 then start.2 + seg.2 * (x - start.1) / seg.1
    else value (start.1 + seg.1, start.2 + seg.2) rest x

/-- The end point of a segment from `start`. -/
def next (start seg : α × α) : α × α := (start.1 + seg.1, start.2 + seg.2)

@[simp] theorem value_nil (start : α × α) (x : α) : value start [] x = start.2 := rfl

omit [LinearOrder α] in
theorem next_sub (start seg : α × α) : next start seg - start = seg :=
  Prod.ext (add_sub_cancel_left _ _) (add_sub_cancel_left _ _)

theorem value_of_mem_segment {start seg : α × α} (rest : List (α × α)) {x : α}
    (within : x ≤ start.1 + seg.1) :
    value start (seg :: rest) x = start.2 + seg.2 * (x - start.1) / seg.1 := by
  rw [value, if_pos within]

variable [IsStrictOrderedRing α]

/-- Every run positive. -/
def Rising (segments : List (α × α)) : Prop := ∀ seg ∈ segments, 0 < seg.1

theorem value_start {start : α × α} {segments : List (α × α)} (rising : Rising segments) :
    value start segments start.1 = start.2 := by
  cases segments with
  | nil => rfl
  | cons seg rest =>
      rw [value_of_mem_segment rest (by linarith [rising seg (List.mem_cons_self ..)]), sub_self,
        mul_zero, zero_div, add_zero]

theorem value_of_le {start seg : α × α} {rest : List (α × α)} (rising : Rising (seg :: rest))
    {x : α} (past : (next start seg).1 ≤ x) :
    value start (seg :: rest) x = value (next start seg) rest x := by
  have positive := rising seg (List.mem_cons_self ..)
  rcases past.lt_or_eq with beyond | rfl
  · rw [value, if_neg (show ¬x ≤ start.1 + seg.1 from not_le.mpr beyond)]
    rfl
  · rw [value_start (fun s inside => rising s (List.mem_cons_of_mem _ inside))]
    show value start (seg :: rest) (start.1 + seg.1) = start.2 + seg.2
    rw [value_of_mem_segment rest le_rfl, add_sub_cancel_left, mul_div_assoc,
      div_self positive.ne', mul_one]

theorem exists_pos_iff_endpoints {g : α → α} {a b c r : α} (ordered : a ≤ b)
    (affine : ∀ x, a ≤ x → x ≤ b → g x = c + r * x) :
    (∃ x, a ≤ x ∧ x ≤ b ∧ 0 < g x) ↔ 0 < g a ∨ 0 < g b := by
  constructor
  · rintro ⟨x, low, high, positive⟩
    rw [affine x low high] at positive
    rcases le_total 0 r with rising | falling
    · right
      rw [affine b ordered le_rfl]
      nlinarith
    · left
      rw [affine a le_rfl ordered]
      nlinarith
  · rintro (start | finish)
    · exact ⟨a, le_rfl, ordered, start⟩
    · exact ⟨b, ordered, le_rfl, finish⟩

theorem segment_affine (start seg : α × α) (x : α) :
    start.2 + seg.2 * (x - start.1) / seg.1 =
      (start.2 - seg.2 * start.1 / seg.1) + seg.2 / seg.1 * x := by
  ring

theorem exists_pos_extend {g : α → α} {a b c r : α} (start : 0 ≤ a) (ordered : a ≤ b)
    (affine : ∀ x, a ≤ x → x ≤ b → g x = c + r * x) :
    (∃ x, 0 ≤ x ∧ x ≤ b ∧ 0 < g x) ↔ (∃ x, 0 ≤ x ∧ x ≤ a ∧ 0 < g x) ∨ 0 < g b := by
  constructor
  · rintro ⟨x, low, high, positive⟩
    rcases le_total x a with before | after
    · exact Or.inl ⟨x, low, before, positive⟩
    · rcases (exists_pos_iff_endpoints ordered affine).mp ⟨x, after, high, positive⟩ with
        atA | atB
      · exact Or.inl ⟨a, start, le_rfl, atA⟩
      · exact Or.inr atB
  · rintro (⟨x, low, high, positive⟩ | atB)
    · exact ⟨x, low, high.trans ordered, positive⟩
    · exact ⟨b, start.trans ordered, le_rfl, atB⟩

theorem exists_lt_extend {f g : α → α} {a b : α} (start : 0 ≤ a) (ordered : a ≤ b)
    (affineF : ∃ c r, ∀ x, a ≤ x → x ≤ b → f x = c + r * x)
    (affineG : ∃ c r, ∀ x, a ≤ x → x ≤ b → g x = c + r * x) :
    (∃ x, 0 ≤ x ∧ x ≤ b ∧ g x < f x) ↔ (∃ x, 0 ≤ x ∧ x ≤ a ∧ g x < f x) ∨ g b < f b := by
  obtain ⟨cF, rF, hF⟩ := affineF
  obtain ⟨cG, rG, hG⟩ := affineG
  have extend := exists_pos_extend (g := fun x => f x - g x) (c := cF - cG) (r := rF - rG) start
    ordered (fun x low high => by rw [hF x low high, hG x low high]; ring)
  simpa only [sub_pos] using extend

section Side

/-! Which side of a segment's line a point `(x, y)` lies on, by the cross product of the
segment with the point seen from the segment's start. -/

variable {start seg : α × α} {x y : α}

omit [LinearOrder α] [IsStrictOrderedRing α] in
theorem cross_sub (nonzero : seg.1 ≠ 0) :
    (y - start.2) * seg.1 - seg.2 * (x - start.1) =
      (y - (start.2 + seg.2 * (x - start.1) / seg.1)) * seg.1 := by
  field_simp
  ring

theorem segment_lt_iff (positive : 0 < seg.1) :
    start.2 + seg.2 * (x - start.1) / seg.1 < y ↔ seg.2 * (x - start.1) < (y - start.2) * seg.1 :=
  calc start.2 + seg.2 * (x - start.1) / seg.1 < y
      ↔ 0 < (y - (start.2 + seg.2 * (x - start.1) / seg.1)) * seg.1 := by
        rw [mul_pos_iff_of_pos_right positive, sub_pos]
    _ ↔ seg.2 * (x - start.1) < (y - start.2) * seg.1 := by
        rw [← cross_sub positive.ne', sub_pos]

theorem lt_segment_iff (positive : 0 < seg.1) :
    y < start.2 + seg.2 * (x - start.1) / seg.1 ↔ (y - start.2) * seg.1 < seg.2 * (x - start.1) :=
  calc y < start.2 + seg.2 * (x - start.1) / seg.1
      ↔ 0 < (start.2 + seg.2 * (x - start.1) / seg.1 - y) * seg.1 := by
        rw [mul_pos_iff_of_pos_right positive, sub_pos]
    _ ↔ 0 < seg.2 * (x - start.1) - (y - start.2) * seg.1 := by
        rw [← neg_sub y, neg_mul, ← cross_sub positive.ne', neg_sub]
    _ ↔ (y - start.2) * seg.1 < seg.2 * (x - start.1) := sub_pos

end Side

end Polyline
