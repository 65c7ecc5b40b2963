import Mathlib.Data.Nat.ModEq
import Mathlib.Logic.Function.Basic

/-! Ring buffers: a sequence laid out in a ring of slots from a head slot. -/

namespace RingBuffer

variable {α : Type*}

/-- The slot of logical position `pos` in a ring of `capacity` slots starting at `head`. -/
def slot (head capacity pos : ℕ) : ℕ := (head + pos) % capacity

/-- The first `count` positions, each read from its slot. -/
def window (cells : ℕ → Option α) (head capacity count : ℕ) : List (Option α) :=
  (List.range count).map fun pos => cells (slot head capacity pos)

section Slot

variable {head capacity : ℕ}

theorem slot_lt (nonempty : 0 < capacity) (pos : ℕ) : slot head capacity pos < capacity :=
  Nat.mod_lt _ nonempty

theorem slot_inj {pos pos' : ℕ} (inside : pos < capacity) (inside' : pos' < capacity)
    (same : slot head capacity pos = slot head capacity pos') : pos = pos' :=
  (Nat.ModEq.add_left_cancel' head same).eq_of_lt_of_lt inside inside'

theorem slot_zero_head {pos : ℕ} (inside : pos < capacity) : slot 0 capacity pos = pos := by
  rw [slot, Nat.zero_add, Nat.mod_eq_of_lt inside]

theorem slot_slot (pos pos' : ℕ) : slot (slot head capacity pos) capacity pos' = slot head capacity (pos + pos') := by
  rw [slot, slot, slot, Nat.mod_add_mod, Nat.add_assoc]

theorem slot_add_capacity (pos : ℕ) : slot head capacity (pos + capacity) = slot head capacity pos := by
  rw [slot, slot, ← Nat.add_assoc, Nat.add_mod_right]

theorem slot_succ (nonempty : 0 < capacity) (pos : ℕ) :
    slot head capacity (pos + 1) = if slot head capacity pos + 1 = capacity then 0 else slot head capacity pos + 1 := by
  have inside : slot head capacity pos < capacity := slot_lt nonempty pos
  rw [← slot_slot pos 1, slot]
  split
  · rename_i wrap
    rw [wrap, Nat.mod_self]
  · exact Nat.mod_eq_of_lt (by omega)

theorem slot_eq_of_lt (within : head < capacity) {pos : ℕ} (inside : pos < capacity) :
    slot head capacity pos = if head + pos < capacity then head + pos else head + pos - capacity := by
  rw [slot]
  split
  · exact Nat.mod_eq_of_lt ‹_›
  · rw [Nat.mod_eq_sub_mod (by omega), Nat.mod_eq_of_lt (by omega)]

end Slot

section Window

variable {cells : ℕ → Option α} {head capacity count : ℕ}

@[simp] theorem length_window : (window cells head capacity count).length = count := by
  rw [window, List.length_map, List.length_range]

theorem getElem_window {pos : ℕ} (inside : pos < (window cells head capacity count).length) :
    (window cells head capacity count)[pos] = cells (slot head capacity pos) := by
  simp only [window, List.getElem_map, List.getElem_range]

theorem window_congr {cells' : ℕ → Option α} {head' capacity' : ℕ}
    (same : ∀ pos < count, cells (slot head capacity pos) = cells' (slot head' capacity' pos)) :
    window cells head capacity count = window cells' head' capacity' count := by
  apply List.map_congr_left
  intro pos inside
  exact same pos (List.mem_range.mp inside)

theorem window_update_outside {i : ℕ} (value : Option α)
    (outside : ∀ pos < count, slot head capacity pos ≠ i) :
    window (Function.update cells i value) head capacity count = window cells head capacity count := by
  apply window_congr
  intro pos inside
  exact Function.update_of_ne (outside pos inside) value cells

theorem window_take {count' : ℕ} (shorter : count' ≤ count) :
    window cells head capacity count' = (window cells head capacity count).take count' := by
  rw [window, window, ← List.map_take, List.take_range, Nat.min_eq_left shorter]

theorem window_push_back (room : count < capacity) (value : Option α) :
    window (Function.update cells (slot head capacity count) value) head capacity (count + 1) =
      window cells head capacity count ++ [value] := by
  have kept : window (Function.update cells (slot head capacity count) value) head capacity count =
      window cells head capacity count := by
    apply window_update_outside value
    intro pos inside same
    exact absurd (slot_inj (inside.trans room) room same) inside.ne
  rw [window, List.range_succ, List.map_append, List.map_singleton, Function.update_self, ← window, kept]

theorem window_push_front (room : count < capacity) (value : Option α) :
    window (Function.update cells (slot head capacity (capacity - 1)) value) (slot head capacity (capacity - 1))
        capacity (count + 1) = value :: window cells head capacity count := by
  have nonempty : 0 < capacity := Nat.lt_of_le_of_lt (Nat.zero_le count) room
  -- position `pos + 1` from the new head is position `pos` from the old one
  have shifted : ∀ pos, slot (slot head capacity (capacity - 1)) capacity (pos + 1) = slot head capacity pos := by
    intro pos
    rw [slot_slot, show capacity - 1 + (pos + 1) = pos + capacity by omega, slot_add_capacity]
  rw [window, List.range_succ_eq_map, List.map_cons, List.map_map]
  congr 1
  · rw [slot_slot, Nat.add_zero, Function.update_self]
  · apply List.map_congr_left
    intro pos inside
    have before : pos < count := List.mem_range.mp inside
    rw [Function.comp_apply, shifted, Function.update_of_ne]
    intro same
    have := slot_inj (by omega) (by omega) same
    omega

theorem window_pop_front (fits : count ≤ capacity) :
    window (Function.update cells (slot head capacity 0) none) (slot head capacity 1) capacity (count - 1) =
      (window cells head capacity count).tail := by
  cases count with
  | zero => rfl
  | succ count =>
    rw [Nat.add_sub_cancel, window, window, List.range_succ_eq_map, List.map_cons, List.tail_cons, List.map_map]
    apply List.map_congr_left
    intro pos inside
    have later : pos < count := List.mem_range.mp inside
    rw [Function.comp_apply, slot_slot, Function.update_of_ne, Nat.add_comm]
    intro same
    have := slot_inj (by omega) (by omega) same
    omega

theorem window_pop_back (fits : count ≤ capacity) :
    window (Function.update cells (slot head capacity (count - 1)) none) head capacity (count - 1) =
      (window cells head capacity count).dropLast := by
  rw [window_update_outside, List.dropLast_eq_take, length_window, window_take (Nat.sub_le count 1)]
  intro pos inside same
  have := slot_inj (by omega) (by omega) same
  omega

theorem window_update_slot (fits : count ≤ capacity) {pos : ℕ} (inside : pos < count) (value : Option α) :
    window (Function.update cells (slot head capacity pos) value) head capacity count =
      (window cells head capacity count).set pos value := by
  apply List.ext_getElem
  · rw [List.length_set, length_window, length_window]
  · intro n inWindow inSet
    rw [getElem_window, List.getElem_set]
    by_cases same : pos = n
    · rw [if_pos same, same, Function.update_self]
    · have shown : n < (window cells head capacity count).length := by
        rw [List.length_set] at inSet
        exact inSet
      rw [if_neg same, getElem_window shown, Function.update_of_ne]
      intro slotSame
      rw [length_window] at shown
      exact same (slot_inj (by omega) (by omega) slotSame.symm)

end Window

end RingBuffer
