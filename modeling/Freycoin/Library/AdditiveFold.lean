import Mathlib.Data.List.Basic

/-! Folds whose step is additive. -/

namespace AdditiveFold

variable {σ α : Type*}

/-- `step` maps a sum of states and a sum of inputs to the sum of the two steps. -/
def Additive (step : σ → α → σ) (plus : σ → σ → σ) (add : α → α → α) : Prop :=
  ∀ c d u v, step (plus c d) (add u v) = plus (step c u) (step d v)

variable {step : σ → α → σ} {plus : σ → σ → σ} {add : α → α → α}

theorem foldl_zipWith (additive : Additive step plus add) :
    ∀ (us vs : List α) (c d : σ), us.length = vs.length →
      (List.zipWith add us vs).foldl step (plus c d) = plus (us.foldl step c) (vs.foldl step d) := by
  intro us
  induction us with
  | nil =>
      intro vs c d same
      rw [List.eq_nil_of_length_eq_zero same.symm]
      rfl
  | cons u us ih =>
      intro vs c d same
      cases vs with
      | nil => cases same
      | cons v vs =>
          rw [List.zipWith_cons_cons, List.foldl_cons, additive]
          exact ih vs (step c u) (step d v) (by simpa using same)

theorem foldl_add_error (additive : Additive step plus add) (zero : σ)
    (right : ∀ c, plus c zero = c) {word error : List α} (same : word.length = error.length)
    {c t δ : σ} (accepted : word.foldl step c = t) (residue : error.foldl step zero = δ) :
    (List.zipWith add word error).foldl step c = plus t δ := by
  rw [← right c, foldl_zipWith additive word error c zero same, accepted, residue]

section Differences

variable [DecidableEq α]

/-- The number of positions at which two words differ. -/
def differences (xs ys : List α) : ℕ :=
  (List.zipWith (fun x y => decide (x ≠ y)) xs ys).count true

/-- The number of letters of a word that are not `zero`. -/
def weight (zero : α) (e : List α) : ℕ := e.countP (· ≠ zero)

theorem weight_cons (zero v : α) (e : List α) :
    weight zero (v :: e) = weight zero e + if v = zero then 0 else 1 := by
  by_cases clear : v = zero <;> simp [weight, clear]

@[simp] theorem differences_nil_left (ys : List α) : differences [] ys = 0 := rfl

theorem differences_cons (x y : α) (xs ys : List α) :
    differences (x :: xs) (y :: ys) = differences xs ys + if x = y then 0 else 1 := by
  by_cases equal : x = y <;> simp [differences, equal]

theorem differences_append {xs ys : List α} (same : xs.length = ys.length) (xs' ys' : List α) :
    differences (xs ++ xs') (ys ++ ys') = differences xs ys + differences xs' ys' := by
  induction xs generalizing ys with
  | nil =>
      rw [List.eq_nil_of_length_eq_zero same.symm]
      simp
  | cons x xs ih =>
      cases ys with
      | nil => cases same
      | cons y ys =>
          rw [List.cons_append, List.cons_append, differences_cons, differences_cons,
            ih (by simpa using same)]
          omega

theorem differences_self (xs : List α) : differences xs xs = 0 := by
  induction xs with
  | nil => rfl
  | cons x xs ih => rw [differences_cons, ih, if_pos rfl]

theorem differences_map {β : Type*} [DecidableEq β] (f : α → β) :
    ∀ (xs ys : List α), (∀ x ∈ xs, ∀ y ∈ ys, f x = f y → x = y) →
      differences (xs.map f) (ys.map f) = differences xs ys := by
  intro xs
  induction xs with
  | nil => intro ys _; rfl
  | cons x xs ih =>
      intro ys injective
      cases ys with
      | nil => rfl
      | cons y ys =>
          have tail : ∀ x' ∈ xs, ∀ y' ∈ ys, f x' = f y' → x' = y' := fun x' inX y' inY =>
            injective x' (List.mem_cons_of_mem _ inX) y' (List.mem_cons_of_mem _ inY)
          have equal : f x = f y ↔ x = y :=
            ⟨injective x (List.mem_cons_self ..) y (List.mem_cons_self ..), congrArg f⟩
          rw [List.map_cons, List.map_cons, differences_cons, differences_cons, ih ys tail]
          simp only [equal]

theorem differences_zipWith (zero : α) (cancel : ∀ u v, add u v = u ↔ v = zero) :
    ∀ (word error : List α), word.length = error.length →
      differences (List.zipWith add word error) word = weight zero error := by
  intro word
  induction word with
  | nil =>
      intro error same
      rw [List.eq_nil_of_length_eq_zero same.symm]
      rfl
  | cons u word ih =>
      intro error same
      cases error with
      | nil => cases same
      | cons v error =>
          rw [List.zipWith_cons_cons, differences_cons, ih error (by simpa using same),
            weight_cons]
          by_cases clear : v = zero <;> simp [clear, cancel]

end Differences

end AdditiveFold
