import Mathlib.Data.Set.Function
import Mathlib.Order.Interval.Set.Defs
import Freycoin.Util.VecDeque
import Freycoin.Library.RingBuffer

/-! A `VecDeque` is its objects from `m_offset` on, as a ring buffer of `m_capacity` slots. -/

namespace Freycoin.Util

open RingBuffer

namespace VecDeque

variable {α : Type} (traits : Traits)

/-- The slots of the deque's objects, in order: `m_size` of them from `m_offset`. -/
def contents (d : VecDeque α) : List (Option α) := window d.buffer d.offset d.capacity d.size

/-- The representation invariant of `vecdeque.h`. -/
structure Valid (d : VecDeque α) : Prop where
  size_le : d.size ≤ d.capacity
  offset_lt : d.offset < d.capacity ∨ d.offset = 0 ∧ d.capacity = 0

/-- A deque stands for a list: the invariant holds and its slots hold the list's objects. -/
structure Represents (d : VecDeque α) (l : List α) : Prop where
  valid : d.Valid
  contents_eq : d.contents = l.map some

section Slots

variable {d : VecDeque α}

@[simp] theorem length_contents : d.contents.length = d.size := length_window

theorem Represents.size_eq {l : List α} (represents : d.Represents l) : d.size = l.length := by
  rw [← length_contents, represents.contents_eq, List.length_map]

theorem Represents.size_pos {l : List α} (represents : d.Represents l) (nonempty : l ≠ []) : 0 < d.size := by
  rw [represents.size_eq]
  exact List.length_pos_iff.mpr nonempty

theorem Valid.offset_lt_of_full (valid : d.Valid) (full : 0 < d.capacity) : d.offset < d.capacity := by
  rcases valid.offset_lt with inside | ⟨_, none⟩
  · exact inside
  · omega

theorem Valid.lt_capacity (valid : d.Valid) {pos : ℕ} (inside : pos < d.size) : pos < d.capacity :=
  Nat.lt_of_lt_of_le inside valid.size_le

theorem Valid.offset_lt_of_pos (valid : d.Valid) (nonempty : 0 < d.size) : d.offset < d.capacity :=
  valid.offset_lt_of_full (valid.lt_capacity nonempty)

theorem Valid.bufferIndex_eq_slot (valid : d.Valid) {pos : ℕ} (inside : pos < d.capacity) :
    d.bufferIndex pos = slot d.offset d.capacity pos := by
  have within := valid.offset_lt_of_full (Nat.lt_of_le_of_lt (Nat.zero_le pos) inside)
  rw [slot_eq_of_lt within inside, bufferIndex]
  split <;> split <;> omega

theorem Valid.offset_eq_slot (valid : d.Valid) : d.offset = slot d.offset d.capacity 0 := by
  rcases valid.offset_lt with within | ⟨none, empty⟩
  · rw [slot, Nat.add_zero, Nat.mod_eq_of_lt within]
  · rw [slot, none, empty, Nat.mod_zero]

theorem Valid.bufferIndex_injOn (valid : d.Valid) : Set.InjOn d.bufferIndex (Set.Iio d.size) := by
  intro pos inside pos' inside' same
  have below : pos < d.capacity := valid.lt_capacity inside
  have below' : pos' < d.capacity := valid.lt_capacity inside'
  rw [valid.bufferIndex_eq_slot below, valid.bufferIndex_eq_slot below'] at same
  exact slot_inj below below' same

theorem Valid.bufferIndex_lt (valid : d.Valid) {pos : ℕ} (inside : pos < d.size) : d.bufferIndex pos < d.capacity := by
  have below : pos < d.capacity := valid.lt_capacity inside
  rw [valid.bufferIndex_eq_slot below]
  exact slot_lt (Nat.lt_of_le_of_lt (Nat.zero_le pos) below) pos

theorem Valid.contents_eq_map_get (valid : d.Valid) : d.contents = (List.range d.size).map d.get := by
  apply List.map_congr_left
  intro pos inside
  rw [get, valid.bufferIndex_eq_slot (valid.lt_capacity (List.mem_range.mp inside))]

theorem Valid.get_eq_getElem (valid : d.Valid) {pos : ℕ} (inside : pos < d.contents.length) :
    d.get pos = d.contents[pos] := by
  have below : pos < d.capacity := valid.lt_capacity (length_contents ▸ inside)
  rw [get, valid.bufferIndex_eq_slot below]
  exact (getElem_window inside).symm

end Slots

section Reallocate

variable {d : VecDeque α}

theorem Valid.copyParts_eq (valid : d.Valid) {pos : ℕ} (inside : pos < d.size) :
    d.copyParts pos = d.buffer (slot d.offset d.capacity pos) := by
  have within := valid.offset_lt_of_pos (Nat.lt_of_le_of_lt (Nat.zero_le pos) inside)
  have below : pos < d.capacity := valid.lt_capacity inside
  rw [copyParts, slot_eq_of_lt within below, firstPart]
  by_cases first : pos < d.capacity - d.offset
  · rw [if_pos (by omega), if_pos (by omega)]
  · rw [if_neg (by omega), if_pos inside, if_neg (by omega)]
    congr 1
    omega

theorem moveParts_eq (old : ℕ → Option α) {capacity : ℕ} (nonempty : 0 < capacity) (head : ℕ) :
    ∀ (left newPos : ℕ) (new : ℕ → Option α) (j : ℕ),
      moveParts old capacity left newPos (slot head capacity newPos) new j =
        if newPos ≤ j ∧ j < newPos + left then old (slot head capacity j) else new j := by
  intro left
  induction left with
  | zero =>
    intro newPos new j
    rw [moveParts, if_neg (by omega)]
  | succ left ih =>
    intro newPos new j
    simp only [moveParts]
    rw [← slot_succ nonempty, ih]
    by_cases here : j = newPos
    · rw [here, if_neg (by omega), Function.update_self, if_pos (by omega)]
    · rw [Function.update_of_ne here]
      split_ifs <;> first | rfl | omega

@[simp] theorem reallocate_size (d : VecDeque α) (capacity : ℕ) : (reallocate traits d capacity).size = d.size := rfl

@[simp] theorem reallocate_offset (d : VecDeque α) (capacity : ℕ) : (reallocate traits d capacity).offset = 0 := rfl

@[simp] theorem reallocate_capacity (d : VecDeque α) (capacity : ℕ) :
    (reallocate traits d capacity).capacity = capacity := rfl

theorem reallocate_contents (valid : d.Valid) {capacity : ℕ} (enough : d.size ≤ capacity) :
    (reallocate traits d capacity).Valid ∧ (reallocate traits d capacity).contents = d.contents := by
  constructor
  · constructor
    · exact enough
    · rcases Nat.eq_zero_or_pos capacity with empty | nonempty
      · exact Or.inr ⟨rfl, empty⟩
      · exact Or.inl nonempty
  · apply window_congr
    intro pos inside
    -- the new deque has the old size
    replace inside : pos < d.size := inside
    have room : pos < capacity := Nat.lt_of_lt_of_le inside enough
    have nonempty : 0 < capacity := Nat.lt_of_le_of_lt (Nat.zero_le pos) room
    have full : 0 < d.capacity := Nat.lt_of_le_of_lt (Nat.zero_le pos) (valid.lt_capacity inside)
    show (reallocate traits d capacity).buffer (slot 0 capacity pos) = _
    rw [slot_zero_head room, reallocate, if_neg nonempty.ne']
    split
    · exact valid.copyParts_eq inside
    · have moved := moveParts_eq d.buffer full d.offset d.size 0 (fun _ => none) pos
      rw [← valid.offset_eq_slot, if_pos ⟨Nat.zero_le pos, by omega⟩] at moved
      exact moved

end Reallocate

section Ends

variable {d : VecDeque α}

theorem constructLast_contents (valid : d.Valid) (room : d.size < d.capacity) (value : Option α) :
    ({ d with buffer := Function.update d.buffer (d.bufferIndex d.size) value, size := d.size + 1 } : VecDeque α).Valid ∧
      ({ d with buffer := Function.update d.buffer (d.bufferIndex d.size) value, size := d.size + 1 } : VecDeque α).contents =
        d.contents ++ [value] := by
  refine ⟨⟨room, valid.offset_lt⟩, ?_⟩
  rw [contents, valid.bufferIndex_eq_slot room]
  exact window_push_back room value

theorem popBack_contents (valid : d.Valid) (nonempty : 0 < d.size) :
    d.popBack.Valid ∧ d.popBack.contents = d.contents.dropLast := by
  refine ⟨⟨Nat.le_trans (Nat.sub_le _ _) valid.size_le, valid.offset_lt⟩, ?_⟩
  have below : d.size - 1 < d.capacity := by
    have := valid.size_le
    omega
  rw [popBack, contents, valid.bufferIndex_eq_slot below]
  exact window_pop_back valid.size_le

theorem popFront_contents (valid : d.Valid) (nonempty : 0 < d.size) :
    d.popFront.Valid ∧ d.popFront.contents = d.contents.tail := by
  have within := valid.offset_lt_of_pos nonempty
  have full : 0 < d.capacity := Nat.lt_of_le_of_lt (Nat.zero_le _) within
  have next : (if d.offset + 1 = d.capacity then 0 else d.offset + 1) = slot d.offset d.capacity 1 := by
    rw [slot_succ full 0, ← valid.offset_eq_slot]
  refine ⟨⟨Nat.le_trans (Nat.sub_le _ _) valid.size_le, ?_⟩, ?_⟩
  · exact Or.inl (by rw [popFront, next]; exact slot_lt full 1)
  · show window (Function.update d.buffer d.offset none) (if d.offset + 1 = d.capacity then 0 else d.offset + 1)
        d.capacity (d.size - 1) = (window d.buffer d.offset d.capacity d.size).tail
    rw [next, ← window_pop_front valid.size_le, ← valid.offset_eq_slot]

theorem Valid.front_slot (valid : d.Valid) (full : 0 < d.capacity) :
    d.bufferIndex (d.capacity - 1) = slot d.offset d.capacity (d.capacity - 1) ∧
      (if d.offset = 0 then d.capacity else d.offset) - 1 = slot d.offset d.capacity (d.capacity - 1) := by
  have within := valid.offset_lt_of_full full
  refine ⟨valid.bufferIndex_eq_slot (by omega), ?_⟩
  rw [slot_eq_of_lt within (by omega)]
  split <;> split <;> omega

theorem constructFirst_contents (valid : d.Valid) (room : d.size < d.capacity) (value : Option α) :
    ({ d with buffer := Function.update d.buffer (d.bufferIndex (d.capacity - 1)) value,
              offset := (if d.offset = 0 then d.capacity else d.offset) - 1, size := d.size + 1 } : VecDeque α).Valid ∧
      ({ d with buffer := Function.update d.buffer (d.bufferIndex (d.capacity - 1)) value,
                offset := (if d.offset = 0 then d.capacity else d.offset) - 1, size := d.size + 1 } : VecDeque α).contents =
        value :: d.contents := by
  have full : 0 < d.capacity := Nat.lt_of_le_of_lt (Nat.zero_le _) room
  obtain ⟨index, offset⟩ := valid.front_slot full
  refine ⟨⟨room, Or.inl ?_⟩, ?_⟩
  · show (if d.offset = 0 then d.capacity else d.offset) - 1 < d.capacity
    rw [offset]
    exact slot_lt full _
  · show window (Function.update d.buffer (d.bufferIndex (d.capacity - 1)) value)
        ((if d.offset = 0 then d.capacity else d.offset) - 1) d.capacity (d.size + 1) = value :: d.contents
    rw [index, offset]
    exact window_push_front room value

theorem grow_contents (valid : d.Valid) {grown : VecDeque α}
    (reallocated : grown = if d.size = d.capacity then reallocate traits d ((d.size + 1) * 2) else d) :
    grown.Valid ∧ grown.contents = d.contents ∧ grown.size < grown.capacity := by
  subst reallocated
  split
  · obtain ⟨valid', same⟩ := reallocate_contents traits valid (by omega : d.size ≤ (d.size + 1) * 2)
    refine ⟨valid', same, ?_⟩
    rw [reallocate_size, reallocate_capacity]
    omega
  · rename_i notFull
    exact ⟨valid, rfl, Nat.lt_of_le_of_ne valid.size_le notFull⟩

end Ends

section Loops

theorem constructBack_contents (value : ℕ → Option α) :
    ∀ (count : ℕ) (d : VecDeque α), d.Valid → d.size + count ≤ d.capacity →
      (constructBack value count d).Valid ∧
        (constructBack value count d).contents = d.contents ++ (List.range' d.size count).map value := by
  intro count
  induction count with
  | zero =>
    intro d valid _
    rw [constructBack, List.range'_zero, List.map_nil, List.append_nil]
    exact ⟨valid, rfl⟩
  | succ count ih =>
    intro d valid room
    obtain ⟨valid', pushed⟩ := constructLast_contents valid (by omega) (value d.size)
    obtain ⟨valid'', built⟩ := ih _ valid' (by dsimp only; omega)
    refine ⟨valid'', ?_⟩
    rw [constructBack, built, pushed, List.range'_succ, List.map_cons, List.append_assoc, List.singleton_append]

theorem destroyBack_contents :
    ∀ (count : ℕ) (d : VecDeque α), d.Valid → count ≤ d.size →
      (destroyBack count d).Valid ∧ (destroyBack count d).contents = d.contents.take (d.size - count) := by
  intro count
  induction count with
  | zero =>
    intro d valid _
    rw [destroyBack, Nat.sub_zero, ← length_contents, List.take_length]
    exact ⟨valid, rfl⟩
  | succ count ih =>
    intro d valid enough
    have step : destroyBack (count + 1) d = destroyBack count d.popBack := rfl
    obtain ⟨valid', popped⟩ := popBack_contents valid (by omega)
    obtain ⟨valid'', rest⟩ := ih _ valid' (by rw [popBack]; dsimp only; omega)
    refine ⟨step ▸ valid'', ?_⟩
    rw [step, rest, popped, List.dropLast_eq_take, List.take_take, length_contents]
    congr 1
    rw [popBack]
    dsimp only
    omega

end Loops

section Methods

variable {d : VecDeque α}

theorem resizeDown_contents (valid : d.Valid) {size : ℕ} (shrinks : size ≤ d.size) :
    (d.resizeDown traits size).Valid ∧ (d.resizeDown traits size).contents = d.contents.take size := by
  rw [resizeDown]
  split
  · exact ⟨⟨Nat.le_trans shrinks valid.size_le, valid.offset_lt⟩, window_take shrinks⟩
  · obtain ⟨valid', kept⟩ := destroyBack_contents (d.size - size) d valid (Nat.sub_le _ _)
    rw [Nat.sub_sub_self shrinks] at kept
    exact ⟨valid', kept⟩

variable {l : List α}

theorem represents_emplaceBack (represents : d.Represents l) (value : α) :
    (d.emplaceBack traits value).Represents (l ++ [value]) := by
  obtain ⟨valid', same, room⟩ := grow_contents traits represents.valid rfl
  obtain ⟨valid'', pushed⟩ := constructLast_contents valid' room (some value)
  refine ⟨valid'', ?_⟩
  rw [emplaceBack]
  rw [pushed, same, represents.contents_eq, List.map_append, List.map_singleton]

theorem represents_emplaceFront (represents : d.Represents l) (value : α) :
    (d.emplaceFront traits value).Represents (value :: l) := by
  obtain ⟨valid', same, room⟩ := grow_contents traits represents.valid rfl
  obtain ⟨valid'', pushed⟩ := constructFirst_contents valid' room (some value)
  refine ⟨valid'', ?_⟩
  rw [emplaceFront]
  rw [pushed, same, represents.contents_eq, List.map_cons]

theorem represents_popFront (represents : d.Represents l) (nonempty : l ≠ []) : d.popFront.Represents l.tail := by
  obtain ⟨valid', popped⟩ := popFront_contents represents.valid (represents.size_pos nonempty)
  exact ⟨valid', by rw [popped, represents.contents_eq, List.map_tail]⟩

theorem represents_popBack (represents : d.Represents l) (nonempty : l ≠ []) : d.popBack.Represents l.dropLast := by
  obtain ⟨valid', popped⟩ := popBack_contents represents.valid (represents.size_pos nonempty)
  exact ⟨valid', by rw [popped, represents.contents_eq, List.map_dropLast]⟩

theorem reserve_contents (valid : d.Valid) (capacity : ℕ) :
    (d.reserve traits capacity).Valid ∧ (d.reserve traits capacity).contents = d.contents ∧
      (d.reserve traits capacity).size = d.size ∧ capacity ≤ (d.reserve traits capacity).capacity := by
  rw [reserve]
  split
  · rename_i grows
    have enough : d.size ≤ capacity := Nat.le_trans valid.size_le (Nat.le_of_lt grows)
    obtain ⟨valid', same⟩ := reallocate_contents traits valid enough
    exact ⟨valid', same, rfl, le_rfl⟩
  · rename_i fits
    exact ⟨valid, rfl, rfl, Nat.le_of_not_lt fits⟩

theorem represents_reserve (represents : d.Represents l) (capacity : ℕ) :
    (d.reserve traits capacity).Represents l := by
  obtain ⟨valid', same, -⟩ := reserve_contents traits represents.valid capacity
  exact ⟨valid', same.trans represents.contents_eq⟩

theorem represents_shrinkToFit (represents : d.Represents l) : (d.shrinkToFit traits).Represents l := by
  rw [shrinkToFit]
  split
  · obtain ⟨valid', same⟩ := reallocate_contents traits represents.valid le_rfl
    exact ⟨valid', same.trans represents.contents_eq⟩
  · exact represents

theorem clear_contents (valid : d.Valid) : (d.clear traits).Valid ∧ (d.clear traits).contents = [] := by
  obtain ⟨valid', emptied⟩ := resizeDown_contents traits valid (Nat.zero_le d.size)
  exact ⟨valid', emptied.trans List.take_zero⟩

theorem represents_clear (represents : d.Represents l) : (d.clear traits).Represents [] := by
  obtain ⟨valid', emptied⟩ := clear_contents traits represents.valid
  exact ⟨valid', emptied⟩

theorem represents_resize [Inhabited α] (represents : d.Represents l) (size : ℕ) :
    (d.resize traits size).Represents (l.take size ++ List.replicate (size - l.length) default) := by
  have length := represents.size_eq
  rw [resize]
  split
  · rename_i shrinks
    obtain ⟨valid', kept⟩ := resizeDown_contents traits represents.valid (Nat.le_of_lt shrinks)
    refine ⟨valid', ?_⟩
    rw [kept, represents.contents_eq, Nat.sub_eq_zero_of_le (by omega), List.replicate_zero, List.append_nil,
      List.map_take]
  · split
    · rename_i _ grows
      -- the growing branch reserves room first: its test is the one of `reserve`
      obtain ⟨valid', same, size', room⟩ := reserve_contents traits represents.valid size
      have built := constructBack_contents (fun _ => some default) (size - (d.reserve traits size).size)
        (d.reserve traits size) valid' (by omega)
      refine ⟨built.1, ?_⟩
      show (constructBack (fun _ => some default) (size - (d.reserve traits size).size) (d.reserve traits size)).contents = _
      rw [built.2, same, represents.contents_eq, size', List.map_const', List.length_range', length,
        List.take_of_length_le (by omega), List.map_append, List.map_replicate]
    · rename_i notShrinks notGrows
      have same : size = l.length := by omega
      rw [same, List.take_length, Nat.sub_self, List.replicate_zero, List.append_nil]
      exact represents

theorem represents_copyAssign (represents : d.Represents l) {other : VecDeque α} {l' : List α}
    (copied : other.Represents l') : (d.copyAssign traits other).Represents l' := by
  obtain ⟨cleared, emptied⟩ := clear_contents traits represents.valid
  have empty : (d.clear traits).size = 0 := by
    rw [← length_contents]
    exact List.length_eq_zero_iff.mpr emptied
  obtain ⟨fresh, same⟩ := reallocate_contents traits cleared (empty ▸ Nat.zero_le other.size)
  rw [copyAssign]
  split
  · -- the two `memcpy`, into the new buffer from its first slot
    refine ⟨⟨le_rfl, fresh.offset_lt⟩, ?_⟩
    rw [← copied.contents_eq]
    apply window_congr
    intro pos inside
    show (if slot 0 other.size pos < other.size then other.copyParts (slot 0 other.size pos) else _) = _
    rw [slot_zero_head inside, if_pos inside, copied.valid.copyParts_eq inside]
  · -- one copy constructed after the last, for each object of the other
    have built := constructBack_contents (fun pos => other.buffer (other.bufferIndex pos))
      (other.size - (reallocate traits (d.clear traits) other.size).size) (reallocate traits (d.clear traits) other.size)
      fresh (by rw [reallocate_size, reallocate_capacity, empty]; omega)
    refine ⟨built.1, ?_⟩
    rw [built.2, same, emptied, List.nil_append, reallocate_size, empty, Nat.sub_zero, ← List.range_eq_range',
      ← copied.contents_eq, copied.valid.contents_eq_map_get]
    rfl

end Methods

section Observers

variable {d : VecDeque α} {l : List α}

theorem Represents.get_eq (represents : d.Represents l) {pos : ℕ} (inside : pos < l.length) :
    d.get pos = some l[pos] := by
  have listed : pos < d.contents.length := by
    rw [length_contents, represents.size_eq]
    exact inside
  rw [represents.valid.get_eq_getElem listed]
  simp only [represents.contents_eq, List.getElem_map]

theorem Represents.front_eq (represents : d.Represents l) (nonempty : l ≠ []) : d.front = some (l.head nonempty) := by
  have full : 0 < d.capacity := represents.valid.lt_capacity (represents.size_pos nonempty)
  have first : d.front = d.get 0 := by
    rw [front, get, represents.valid.bufferIndex_eq_slot full, ← represents.valid.offset_eq_slot]
  rw [first, represents.get_eq (List.length_pos_iff.mpr nonempty), List.head_eq_getElem]

theorem Represents.back_eq (represents : d.Represents l) (nonempty : l ≠ []) : d.back = some (l.getLast nonempty) := by
  have last : d.back = d.get (l.length - 1) := by
    rw [back, get, represents.size_eq]
  rw [last, represents.get_eq (by have := List.length_pos_iff.mpr nonempty; omega), List.getLast_eq_getElem]

theorem Represents.set (represents : d.Represents l) {pos : ℕ} (inside : pos < l.length) (value : α) :
    (d.set pos value).Represents (l.set pos value) := by
  have inside' : pos < d.size := represents.size_eq ▸ inside
  refine ⟨⟨represents.valid.size_le, represents.valid.offset_lt⟩, ?_⟩
  show window (Function.update d.buffer (d.bufferIndex pos) (some value)) d.offset d.capacity d.size = _
  rw [represents.valid.bufferIndex_eq_slot (represents.valid.lt_capacity inside'),
    window_update_slot represents.valid.size_le inside', ← contents, represents.contents_eq, List.map_set]

theorem Represents.empty_eq (represents : d.Represents l) : d.empty = l.isEmpty := by
  rw [empty, represents.size_eq]
  cases l with
  | nil => rfl
  | cons x l => rfl

theorem beqFrom_eq [BEq α] {a b : VecDeque α} {la lb : List α} (ra : a.Represents la) (rb : b.Represents lb)
    (same : la.length = lb.length) :
    ∀ left pos, pos + left = la.length → beqFrom a b pos left = (la.drop pos == lb.drop pos) := by
  intro left
  induction left with
  | zero =>
    intro pos ended
    rw [beqFrom, List.drop_eq_nil_of_le (by omega), List.drop_eq_nil_of_le (by omega)]
    rfl
  | succ left ih =>
    intro pos ended
    have inside : pos < la.length := by omega
    have inside' : pos < lb.length := by omega
    rw [beqFrom, List.drop_eq_getElem_cons inside, List.drop_eq_getElem_cons inside', List.cons_beq_cons,
      ← ih (pos + 1) (by omega)]
    rw [show a.buffer (a.bufferIndex pos) = some la[pos] from ra.get_eq inside,
      show b.buffer (b.bufferIndex pos) = some lb[pos] from rb.get_eq inside', bne, Option.some_beq_some]
    cases la[pos] == lb[pos] <;> rfl

theorem Represents.beq_eq [BEq α] {a b : VecDeque α} {la lb : List α} (ra : a.Represents la) (rb : b.Represents lb) :
    a.beq b = (la == lb) := by
  rw [beq, ra.size_eq, rb.size_eq]
  by_cases same : la.length = lb.length
  · rw [if_neg (by simp [same]), beqFrom_eq ra rb same la.length 0 (Nat.zero_add _), List.drop_zero,
      List.drop_zero]
  · -- lists of different lengths are never `==`
    rw [if_pos (by simp [same])]
    exact (Bool.eq_false_iff.mpr fun equal => same (List.length_eq_of_beq equal)).symm

theorem compareFrom_eq [Ord α] {a b : VecDeque α} {la lb : List α} (ra : a.Represents la) (rb : b.Represents lb) :
    ∀ left pos, pos + left = min la.length lb.length → compareFrom a b pos left = compare (la.drop pos) (lb.drop pos) := by
  intro left
  induction left with
  | zero =>
    intro pos ended
    rw [compareFrom, ra.size_eq, rb.size_eq]
    -- at the end of the shorter list, the sizes decide
    rcases Nat.lt_trichotomy la.length lb.length with shorter | same | longer
    · rw [List.drop_eq_nil_of_le (by omega), List.drop_eq_getElem_cons (by omega : pos < lb.length),
        Nat.compare_eq_lt.mpr shorter]
      rfl
    · rw [List.drop_eq_nil_of_le (by omega), List.drop_eq_nil_of_le (by omega), Nat.compare_eq_eq.mpr same]
      rfl
    · rw [List.drop_eq_getElem_cons (by omega : pos < la.length), List.drop_eq_nil_of_le (by omega : lb.length ≤ pos),
        Nat.compare_eq_gt.mpr longer]
      rfl
  | succ left ih =>
    intro pos ended
    have inside : pos < la.length := by omega
    have inside' : pos < lb.length := by omega
    have rest := ih (pos + 1) (by omega)
    rw [compareFrom, rest, show a.buffer (a.bufferIndex pos) = some la[pos] from ra.get_eq inside,
      show b.buffer (b.bufferIndex pos) = some lb[pos] from rb.get_eq inside', List.drop_eq_getElem_cons inside,
      List.drop_eq_getElem_cons inside']
    -- `compare` on lists is lexicographic: the first objects decide unless they are equal
    show (if compare la[pos] lb[pos] ≠ .eq then compare la[pos] lb[pos]
        else compare (la.drop (pos + 1)) (lb.drop (pos + 1))) =
      List.compareLex compare (la[pos] :: la.drop (pos + 1)) (lb[pos] :: lb.drop (pos + 1))
    rw [List.compareLex_cons_cons]
    cases compare la[pos] lb[pos] <;> rfl

theorem Represents.threeWayCompare_eq [Ord α] {a b : VecDeque α} {la lb : List α} (ra : a.Represents la)
    (rb : b.Represents lb) : a.threeWayCompare b = compare la lb := by
  rw [threeWayCompare, ra.size_eq, rb.size_eq, compareFrom_eq ra rb _ 0 (Nat.zero_add _), List.drop_zero,
    List.drop_zero]

end Observers

end VecDeque

end Freycoin.Util
