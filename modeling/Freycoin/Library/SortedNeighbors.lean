import Mathlib.Data.List.Sort

/-! The neighbours of an element in a list kept sorted by a key. -/

namespace SortedNeighbors

variable {α β : Type*}

section Neighbours

variable [DecidableEq α]

/-- What precedes the first `x`. -/
def before (l : List α) (x : α) : List α :=
  l.takeWhile (· != x)

/-- What follows the first `x`. -/
def after (l : List α) (x : α) : List α :=
  (l.dropWhile (· != x)).drop 1

/-- The element right after the first `x`. -/
def next (l : List α) (x : α) : Option α :=
  (after l x).head?

/-- The element right before the first `x`. -/
def prev (l : List α) (x : α) : Option α :=
  (before l x).getLast?

theorem dropWhile_of_mem {l : List α} {x : α} (mem : x ∈ l) :
    l.dropWhile (· != x) = x :: after l x := by
  induction l with
  | nil => cases mem
  | cons y l ih =>
    by_cases same : y = x
    · subst same
      simp [after]
    · have rest : x ∈ l := (List.mem_cons.mp mem).resolve_left (Ne.symm same)
      rw [List.dropWhile_cons, if_pos (bne_iff_ne.mpr same), ih rest]
      simp [after, same]

theorem split_of_mem {l : List α} {x : α} (mem : x ∈ l) :
    l = before l x ++ x :: after l x := by
  rw [before, ← dropWhile_of_mem mem, List.takeWhile_append_dropWhile]

theorem ne_of_mem_before {l : List α} {x y : α} (mem : y ∈ before l x) : y ≠ x := by
  simpa using List.all_eq_true.mp List.all_takeWhile y mem

theorem mem_of_prev {l : List α} {x q : α} (found : prev l x = some q) : q ∈ before l x :=
  List.mem_of_getLast? found

theorem mem_of_next {l : List α} {x n : α} (found : next l x = some n) : n ∈ after l x :=
  List.mem_of_mem_head? found

theorem prev_ne {l : List α} {x q : α} (found : prev l x = some q) : q ≠ x :=
  ne_of_mem_before (mem_of_prev found)

theorem next_ne {l : List α} {x n : α} (nodup : l.Nodup) (mem : x ∈ l)
    (found : next l x = some n) : n ≠ x := by
  have split := split_of_mem mem
  rw [split, List.nodup_append, List.nodup_cons] at nodup
  rintro rfl
  exact nodup.2.1.1 (mem_of_next found)

end Neighbours

section Sorted

variable [LinearOrder β] (key : α → β)

theorem le_getLast_of_pairwise {l : List α} (sorted : l.Pairwise (fun a b => key a ≤ key b))
    (nonempty : l ≠ []) {y : α} (mem : y ∈ l) : key y ≤ key (l.getLast nonempty) := by
  have whole := List.dropLast_append_getLast nonempty
  rw [← whole] at sorted mem
  rcases List.mem_append.mp mem with early | last
  · exact (List.pairwise_append.mp sorted).2.2 _ early _ (List.mem_singleton_self _)
  · rw [List.mem_singleton.mp last]

theorem head_le_of_pairwise {l : List α} (sorted : l.Pairwise (fun a b => key a ≤ key b))
    (nonempty : l ≠ []) {y : α} (mem : y ∈ l) : key (l.head nonempty) ≤ key y := by
  obtain ⟨first, rest, rfl⟩ := List.exists_cons_of_ne_nil nonempty
  rcases List.mem_cons.mp mem with same | later
  · rw [same]
    rfl
  · exact List.rel_of_pairwise_cons sorted later

variable {key} [DecidableEq α]

theorem sandwich {l : List α} {x y : α} (sorted : l.Pairwise (fun a b => key a ≤ key b))
    (mem : x ∈ l) (other : y ∈ l) (ne : y ≠ x) :
    (∃ q, prev l x = some q ∧ key y ≤ key q ∧ key q ≤ key x) ∨
      (∃ n, next l x = some n ∧ key x ≤ key n ∧ key n ≤ key y) := by
  have split := split_of_mem mem
  rw [split] at sorted other
  have front := sorted.sublist (List.sublist_append_left _ _)
  have back := (List.pairwise_append.mp sorted).2.1
  rcases List.mem_append.mp other with early | late
  · have nonempty : before l x ≠ [] := List.ne_nil_of_mem early
    refine .inl ⟨_, List.getLast?_eq_some_getLast nonempty, le_getLast_of_pairwise key front nonempty early, ?_⟩
    exact (List.pairwise_append.mp sorted).2.2 _ (List.getLast_mem nonempty) _ List.mem_cons_self
  · rcases List.mem_cons.mp late with same | late
    · exact absurd same ne
    · have nonempty : after l x ≠ [] := List.ne_nil_of_mem late
      refine .inr ⟨_, List.head?_eq_some_head nonempty, ?_, head_le_of_pairwise key back.of_cons nonempty late⟩
      exact List.rel_of_pairwise_cons back (List.head_mem nonempty)

theorem prev_le {l : List α} {x q : α} (sorted : l.Pairwise (fun a b => key a ≤ key b))
    (mem : x ∈ l) (found : prev l x = some q) : key q ≤ key x := by
  have split := split_of_mem mem
  rw [split] at sorted
  exact (List.pairwise_append.mp sorted).2.2 _ (mem_of_prev found) _ List.mem_cons_self

theorem le_next {l : List α} {x n : α} (sorted : l.Pairwise (fun a b => key a ≤ key b))
    (mem : x ∈ l) (found : next l x = some n) : key x ≤ key n := by
  have split := split_of_mem mem
  rw [split] at sorted
  exact List.rel_of_pairwise_cons (List.pairwise_append.mp sorted).2.1 (mem_of_next found)

theorem mem_of_prev_of_mem {l : List α} {x q : α} (mem : x ∈ l) (found : prev l x = some q) :
    q ∈ l := by
  rw [split_of_mem mem]
  exact List.mem_append_left _ (mem_of_prev found)

theorem mem_of_next_of_mem {l : List α} {x n : α} (mem : x ∈ l) (found : next l x = some n) :
    n ∈ l := by
  rw [split_of_mem mem]
  exact List.mem_append_right _ (List.mem_cons_of_mem _ (mem_of_next found))

theorem le_prev_of_mem_before {l : List α} {x y : α} (sorted : l.Pairwise (fun a b => key a ≤ key b))
    (mem : x ∈ l) (early : y ∈ before l x) :
    ∃ q, prev l x = some q ∧ key y ≤ key q ∧ key q ≤ key x := by
  have nonempty : before l x ≠ [] := List.ne_nil_of_mem early
  have split := split_of_mem mem
  rw [split] at sorted
  refine ⟨_, List.getLast?_eq_some_getLast nonempty,
    le_getLast_of_pairwise key (sorted.sublist (List.sublist_append_left _ _)) nonempty early, ?_⟩
  exact (List.pairwise_append.mp sorted).2.2 _ (List.getLast_mem nonempty) _ List.mem_cons_self

theorem le_of_mem_after {l : List α} {x y : α} (sorted : l.Pairwise (fun a b => key a ≤ key b))
    (mem : x ∈ l) (late : y ∈ after l x) : key x ≤ key y := by
  have split := split_of_mem mem
  rw [split] at sorted
  exact List.rel_of_pairwise_cons (List.pairwise_append.mp sorted).2.1 late

omit [DecidableEq α] in
theorem le_of_mem_dropWhile {v : β} : ∀ {l : List α}, l.Pairwise (fun a b => key a ≤ key b) →
    ∀ {y : α}, y ∈ l.dropWhile (fun a => key a < v) → v ≤ key y
  | [], _, _, inside => by cases inside
  | x :: rest, sorted, y, inside => by
    rw [List.pairwise_cons] at sorted
    by_cases below : key x < v
    · rw [List.dropWhile_cons, if_pos (decide_eq_true below)] at inside
      exact le_of_mem_dropWhile sorted.2 inside
    · rw [List.dropWhile_cons, if_neg (by simpa using below)] at inside
      rcases List.mem_cons.mp inside with rfl | later
      · exact not_lt.mp below
      · exact (not_lt.mp below).trans (sorted.1 y later)

omit [DecidableEq α] in
theorem mem_dropWhile_of_le {l : List α} {v : β} {y : α} (mem : y ∈ l) (above : v ≤ key y) :
    y ∈ l.dropWhile (fun a => key a < v) := by
  have split := List.takeWhile_append_dropWhile (p := fun a => decide (key a < v)) (l := l)
  rw [← split] at mem
  rcases List.mem_append.mp mem with skipped | kept
  · exact absurd (of_decide_eq_true (List.all_eq_true.mp List.all_takeWhile y skipped)) (not_lt.mpr above)
  · exact kept

omit [DecidableEq α] in
theorem head_dropWhile_le {l : List α} {v : β} (sorted : l.Pairwise (fun a b => key a ≤ key b))
    {x y : α} (found : (l.dropWhile (fun a => key a < v)).head? = some x) (mem : y ∈ l)
    (above : v ≤ key y) : key x ≤ key y := by
  have kept := mem_dropWhile_of_le mem above
  have nonempty : l.dropWhile (fun a => key a < v) ≠ [] := List.ne_nil_of_mem kept
  rw [List.head?_eq_some_head nonempty, Option.some_inj] at found
  rw [← found]
  exact head_le_of_pairwise key (sorted.sublist (List.dropWhile_sublist _)) nonempty kept

omit [DecidableEq α] in
variable (key) in
theorem pairwise_orderedInsert (a : α) {l : List α}
    (sorted : l.Pairwise (fun x y => key x ≤ key y)) :
    (l.orderedInsert (fun x y => key x ≤ key y) a).Pairwise (fun x y => key x ≤ key y) := by
  have : Std.Total (fun x y : α => key x ≤ key y) := ⟨fun x y => le_total (key x) (key y)⟩
  have : IsTrans α (fun x y => key x ≤ key y) := ⟨fun _ _ _ => le_trans⟩
  exact sorted.orderedInsert a l

end Sorted

end SortedNeighbors
