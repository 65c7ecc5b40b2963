import Mathlib.Data.List.Chain
import Mathlib.Logic.Function.Basic

/-! Singly-linked lists kept in an array of back pointers. -/

namespace BackLinks

variable {α : Type*} {ptr ptr' : α → α} {p x : α} {xs ys : List α}

/-- Following `ptr` back from the last element of `xs` visits `xs` backwards, then `p`. -/
def BackLinked (ptr : α → α) (p : α) (xs : List α) : Prop :=
  List.IsChain (fun x y => ptr y = x) (p :: xs)

@[simp] theorem backLinked_nil : BackLinked ptr p [] := List.isChain_singleton p

@[simp] theorem backLinked_cons : BackLinked ptr p (x :: xs) ↔ ptr x = p ∧ BackLinked ptr x xs :=
  List.isChain_cons_cons

theorem getLastD_append (xs ys : List α) (p : α) :
    (xs ++ ys).getLastD p = ys.getLastD (xs.getLastD p) := by
  induction xs generalizing p with
  | nil => rfl
  | cons x xs ih => rw [List.cons_append, List.getLastD_cons, List.getLastD_cons, ih]

theorem backLinked_append :
    BackLinked ptr p (xs ++ ys) ↔ BackLinked ptr p xs ∧ BackLinked ptr (xs.getLastD p) ys := by
  induction xs generalizing p with
  | nil => simp
  | cons x xs ih => rw [List.cons_append, backLinked_cons, backLinked_cons, ih, List.getLastD_cons, and_assoc]

theorem backLinked_append_cons :
    BackLinked ptr p (xs ++ x :: ys) ↔
      BackLinked ptr p xs ∧ ptr x = xs.getLastD p ∧ BackLinked ptr x ys := by
  rw [backLinked_append, backLinked_cons]

theorem BackLinked.congr (linked : BackLinked ptr p xs) (same : ∀ y ∈ xs, ptr' y = ptr y) :
    BackLinked ptr' p xs :=
  linked.imp_of_mem_tail_imp fun _ y _ later link => (same y later).trans link

theorem BackLinked.update [DecidableEq α] (linked : BackLinked ptr p xs) {i : α} (v : α)
    (notMem : i ∉ xs) : BackLinked (Function.update ptr i v) p xs :=
  linked.congr fun y member => Function.update_of_ne (by rintro rfl; exact notMem member) v ptr

end BackLinks
