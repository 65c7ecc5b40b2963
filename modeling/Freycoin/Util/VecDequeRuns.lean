import Freycoin.Util.VecDequeSpec

/-! A program's deques refine lists over any run of operations. -/

namespace Freycoin.Util

open VecDeque

namespace VecDequeOp

variable {α : Type}

/-- Every deque stands for its list. -/
def Refines (store : ℕ → VecDeque α) (lists : ℕ → List α) : Prop := ∀ d, (store d).Represents (lists d)

variable {store : ℕ → VecDeque α} {lists : ℕ → List α}

theorem Refines.update (refines : Refines store lists) (d : ℕ) {deque : VecDeque α} {l : List α}
    (represents : deque.Represents l) : Refines (Function.update store d deque) (Function.update lists d l) := by
  intro e
  by_cases here : e = d
  · subst here
    rw [Function.update_self, Function.update_self]
    exact represents
  · rw [Function.update_of_ne here, Function.update_of_ne here]
    exact refines e

theorem Refines.swapIn (refines : Refines store lists) (a b : ℕ) :
    Refines (swapIn store a b) (swapIn lists a b) :=
  (refines.update a (refines b)).update b (refines a)

theorem represents_default : (default : VecDeque α).Represents [] :=
  ⟨⟨le_rfl, Or.inr ⟨rfl, rfl⟩⟩, rfl⟩

variable [Inhabited α] (traits : Traits)

/-- What each operation does to the lists the deques stand for. -/
def apply (lists : ℕ → List α) : VecDequeOp α → ℕ → List α
  | emplaceBack d value => Function.update lists d (lists d ++ [value])
  | emplaceFront d value => Function.update lists d (value :: lists d)
  | popFront d => Function.update lists d (lists d).tail
  | popBack d => Function.update lists d (lists d).dropLast
  | resize d size => Function.update lists d ((lists d).take size ++ List.replicate (size - (lists d).length) default)
  | clear d => Function.update lists d []
  | reserve _ _ => lists
  | shrinkToFit _ => lists
  | copyAssign d other => Function.update lists d (lists other)
  | moveAssign d other => swapIn lists d other
  | copyConstruct d other => Function.update lists d (lists other)
  | moveConstruct d other => Function.update (Function.update lists other []) d (lists other)
  | swap d other => swapIn lists d other

/-- `pop_front()` and `pop_back()` require a deque that is not empty. -/
def Allowed (lists : ℕ → List α) : VecDequeOp α → Prop
  | popFront d => lists d ≠ []
  | popBack d => lists d ≠ []
  | _ => True

theorem refines_run (refines : Refines store lists) (op : VecDequeOp α) (allowed : op.Allowed lists) :
    Refines (op.run traits store) (op.apply lists) := by
  cases op with
  | emplaceBack d value => exact refines.update d (represents_emplaceBack traits (refines d) value)
  | emplaceFront d value => exact refines.update d (represents_emplaceFront traits (refines d) value)
  | popFront d => exact refines.update d (represents_popFront (refines d) allowed)
  | popBack d => exact refines.update d (represents_popBack (refines d) allowed)
  | resize d size => exact refines.update d (represents_resize traits (refines d) size)
  | clear d => exact refines.update d (represents_clear traits (refines d))
  | reserve d capacity =>
    -- only the capacity changes
    intro e
    by_cases here : e = d
    · rw [run, here, Function.update_self]
      exact represents_reserve traits (refines d) capacity
    · rw [run, Function.update_of_ne here]
      exact refines e
  | shrinkToFit d =>
    intro e
    by_cases here : e = d
    · rw [run, here, Function.update_self]
      exact represents_shrinkToFit traits (refines d)
    · rw [run, Function.update_of_ne here]
      exact refines e
  | copyAssign d other =>
    -- a copy into itself returns at once and changes nothing
    by_cases same : d = other
    · rw [run, apply, if_pos same, same, Function.update_eq_self]
      exact refines
    · rw [run, if_neg same]
      exact refines.update d (represents_copyAssign traits (refines d) (refines other))
  | moveAssign d other => exact refines.swapIn d other
  | copyConstruct d other => exact refines.update d (represents_copyAssign traits represents_default (refines other))
  | moveConstruct d other => exact (refines.update other represents_default).update d (refines other)
  | swap d other => exact refines.swapIn d other

/-- The deques and lists of a program from the empty deques, after any operations it may make. -/
inductive Reachable : (ℕ → VecDeque α) → (ℕ → List α) → Prop
  | start : Reachable (fun _ => default) fun _ => []
  | step {store : ℕ → VecDeque α} {lists : ℕ → List α} (op : VecDequeOp α) :
      Reachable store lists → op.Allowed lists → Reachable (op.run traits store) (op.apply lists)

theorem Reachable.refines (reached : Reachable traits store lists) : Refines store lists := by
  induction reached with
  | start => exact fun _ => represents_default
  | step op _ allowed refines => exact refines_run traits refines op allowed

theorem vecDeque_refines_list [BEq α] [Ord α] (reached : Reachable traits store lists) (d e : ℕ) :
    (store d).size = (lists d).length ∧
    (∀ pos (inside : pos < (lists d).length), (store d).get pos = some (lists d)[pos]) ∧
    (∀ nonempty : lists d ≠ [],
      (store d).front = some ((lists d).head nonempty) ∧ (store d).back = some ((lists d).getLast nonempty)) ∧
    (store d).beq (store e) = (lists d == lists e) ∧
    (store d).threeWayCompare (store e) = compare (lists d) (lists e) ∧
    (store d).size ≤ (store d).capacity ∧
    ((store d).offset < (store d).capacity ∨ (store d).offset = 0 ∧ (store d).capacity = 0) ∧
    Set.InjOn (store d).bufferIndex (Set.Iio (store d).size) ∧
    ∀ pos < (store d).size, (store d).bufferIndex pos < (store d).capacity := by
  have represents := reached.refines traits d
  have other := reached.refines traits e
  refine ⟨represents.size_eq, fun pos inside => represents.get_eq inside, ?_, represents.beq_eq other,
    represents.threeWayCompare_eq other, represents.valid.size_le, represents.valid.offset_lt,
    represents.valid.bufferIndex_injOn, fun pos inside => represents.valid.bufferIndex_lt inside⟩
  intro nonempty
  exact ⟨represents.front_eq nonempty, represents.back_eq nonempty⟩

/-- `push_back(5)` then `push_front(7)` on deque `0`, for a type that is neither trivially copyable
nor trivially destructible. -/
def pushedBothEnds : ℕ → VecDeque ℕ :=
  (emplaceFront 0 7).run ⟨false, false⟩ ((emplaceBack 0 5).run ⟨false, false⟩ fun _ => default)

def pushedBothEndsLists : ℕ → List ℕ := (emplaceFront 0 7).apply ((emplaceBack 0 5).apply fun _ => [])

theorem vecDeque_refines_list_pushed_both_ends :
    Reachable ⟨false, false⟩ pushedBothEnds pushedBothEndsLists ∧ pushedBothEndsLists 0 = [7, 5] ∧
      (pushedBothEnds 0).size = (pushedBothEndsLists 0).length ∧
      (pushedBothEnds 0).beq (pushedBothEnds 1) = (pushedBothEndsLists 0 == pushedBothEndsLists 1) := by
  have reached : Reachable ⟨false, false⟩ pushedBothEnds pushedBothEndsLists :=
    .step _ (.step _ .start trivial) trivial
  obtain ⟨size, -, -, beq, -⟩ := vecDeque_refines_list ⟨false, false⟩ reached 0 1
  exact ⟨reached, rfl, size, beq⟩

end VecDequeOp

end Freycoin.Util
