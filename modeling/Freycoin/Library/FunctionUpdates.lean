import Mathlib.Logic.Function.Basic
import Mathlib.Data.List.Basic

/-! A map edited key by key: a list of edits applied in order with `Function.update`. -/

namespace FunctionUpdates

variable {α β : Type*}

/-- The edits that remove each key of a list. -/
def removeKeys (keys : List α) : List (α × Option β) :=
  keys.map fun key => (key, none)

/-- The edits that set each key of a list of entries to its value. -/
def setEntries (entries : List (α × β)) : List (α × Option β) :=
  entries.map fun entry => (entry.1, some entry.2)

@[simp] theorem keys_removeKeys (keys : List α) :
    (removeKeys keys : List (α × Option β)).map Prod.fst = keys := by
  simp [removeKeys, Function.comp_def]

@[simp] theorem keys_setEntries (entries : List (α × β)) :
    (setEntries entries).map Prod.fst = entries.map Prod.fst := by
  simp [setEntries, Function.comp_def]

variable [DecidableEq α]

/-- Sets each key in turn to its value. -/
def updateAll (f : α → β) (edits : List (α × β)) : α → β :=
  edits.foldl (fun f edit => Function.update f edit.1 edit.2) f

@[simp] theorem updateAll_nil (f : α → β) : updateAll f [] = f := rfl

@[simp] theorem updateAll_cons (f : α → β) (edit : α × β) (edits : List (α × β)) :
    updateAll f (edit :: edits) = updateAll (Function.update f edit.1 edit.2) edits := rfl

theorem updateAll_of_notMem {f : α → β} {key : α} :
    ∀ {edits : List (α × β)}, key ∉ edits.map Prod.fst → updateAll f edits key = f key
  | [], _ => rfl
  | edit :: edits, outside => by
      rw [List.map_cons, List.mem_cons, not_or] at outside
      rw [updateAll_cons, updateAll_of_notMem outside.2,
        Function.update_of_ne outside.1]

theorem updateAll_of_mem {f : α → β} {key : α} {value : β} :
    ∀ {edits : List (α × β)}, (edits.map Prod.fst).Nodup → (key, value) ∈ edits →
      updateAll f edits key = value
  | [], _, inside => absurd inside List.not_mem_nil
  | edit :: edits, distinct, inside => by
      rw [List.map_cons, List.nodup_cons] at distinct
      rw [updateAll_cons]
      rcases List.mem_cons.mp inside with rfl | later
      · -- the first edit of the key is its only one
        rw [updateAll_of_notMem distinct.1, Function.update_self]
      · exact updateAll_of_mem distinct.2 later

theorem updateAll_eq_or_mem (f : α → β) (key : α) :
    ∀ edits : List (α × β), updateAll f edits key = f key ∨ (key, updateAll f edits key) ∈ edits
  | [] => Or.inl rfl
  | edit :: edits => by
      rw [updateAll_cons]
      rcases updateAll_eq_or_mem (Function.update f edit.1 edit.2) key edits with kept | later
      · by_cases edited : key = edit.1
        · subst edited
          right
          rw [kept, Function.update_self]
          exact List.mem_cons_self
        · left
          rw [kept, Function.update_of_ne edited]
      · exact Or.inr (List.mem_cons_of_mem _ later)

theorem updateAll_of_agree {f : α → β} :
    ∀ {edits : List (α × β)}, (∀ edit ∈ edits, f edit.1 = edit.2) → updateAll f edits = f
  | [], _ => rfl
  | edit :: edits, agree => by
      have unchanged : Function.update f edit.1 edit.2 = f :=
        Function.update_eq_self_iff.mpr (agree edit List.mem_cons_self).symm
      rw [updateAll_cons, unchanged]
      exact updateAll_of_agree fun later inside => agree later (List.mem_cons_of_mem _ inside)

theorem updateAll_override {f : α → β} {edits later : List (α × β)}
    (covered : ∀ key ∈ edits.map Prod.fst, key ∈ later.map Prod.fst)
    (distinct : (later.map Prod.fst).Nodup) :
    updateAll (updateAll f edits) later = updateAll f later := by
  funext key
  by_cases overridden : key ∈ later.map Prod.fst
  · obtain ⟨⟨key', value⟩, inside, rfl⟩ := List.mem_map.mp overridden
    rw [updateAll_of_mem distinct inside, updateAll_of_mem distinct inside]
  · have untouched : key ∉ edits.map Prod.fst := fun edited => overridden (covered key edited)
    rw [updateAll_of_notMem overridden, updateAll_of_notMem overridden,
      updateAll_of_notMem untouched]

section Curried

variable {γ δ : Type*} [DecidableEq γ]

theorem eq_update_update {f g : α → γ → δ} {x : α} {y : γ} {v : δ} (here : g x y = v)
    (elsewhere : ∀ a b, ¬(a = x ∧ b = y) → g a b = f a b) :
    g = Function.update f x (Function.update (f x) y v) := by
  funext a b
  by_cases row : a = x
  · subst row
    by_cases column : b = y
    · subst column
      rw [Function.update_self, Function.update_self, here]
    · rw [Function.update_self, Function.update_of_ne column,
        elsewhere a b fun both => column both.2]
  · rw [Function.update_of_ne row, elsewhere a b fun both => row both.1]

end Curried

end FunctionUpdates
