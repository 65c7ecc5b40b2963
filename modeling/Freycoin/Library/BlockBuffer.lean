import Mathlib.Data.List.Basic

/-! Hashes that compress fixed-size blocks and buffer what is left over. -/

namespace BlockBuffer

variable {α σ : Type*} (compress : σ → List α → σ) (size : ℕ)

/-- `blocks` passes of `compress`, each over the next `size` items. -/
def foldBlocks : σ → List α → ℕ → σ
  | s, _, 0 => s
  | s, data, blocks + 1 => foldBlocks (compress s (data.take size)) (data.drop size) blocks

theorem foldBlocks_add (s : σ) (data : List α) (m k : ℕ) :
    foldBlocks compress size s data (m + k) =
      foldBlocks compress size (foldBlocks compress size s data m) (data.drop (size * m)) k := by
  induction m generalizing s data with
  | zero => rw [Nat.zero_add, Nat.mul_zero, List.drop_zero, foldBlocks]
  | succ m ih =>
      rw [Nat.add_right_comm, foldBlocks, foldBlocks, ih, List.drop_drop, Nat.mul_succ,
        Nat.add_comm (size * m)]

theorem foldBlocks_succ (s : σ) (data : List α) (m : ℕ) :
    foldBlocks compress size s data (m + 1) =
      compress (foldBlocks compress size s data m) ((data.drop (size * m)).take size) := by
  rw [foldBlocks_add]
  rfl

theorem foldBlocks_append (s : σ) (data rest : List α) (k : ℕ)
    (enough : size * k ≤ data.length) :
    foldBlocks compress size s (data ++ rest) k = foldBlocks compress size s data k := by
  induction k generalizing s data with
  | zero => rfl
  | succ k ih =>
      rw [Nat.mul_succ] at enough
      rw [foldBlocks, foldBlocks, List.take_append_of_le_length (by omega),
        List.drop_append_of_le_length (by omega), ih _ _ (by rw [List.length_drop]; omega)]

variable (init : σ)

/-- `s` is the state after the complete blocks of `message`, and `buf` starts with its tail. -/
def Buffered (message : List α) (s : σ) (buf : List α) : Prop :=
  s = foldBlocks compress size init message (message.length / size) ∧
    buf.take (message.length % size) = message.drop (size * (message.length / size))

theorem buffered_nil (buf : List α) : Buffered compress size init [] init buf := by
  refine ⟨?_, ?_⟩
  · rw [List.length_nil, Nat.zero_div]
    rfl
  · rw [List.length_nil, Nat.zero_mod, List.take_zero, List.drop_nil]

variable {compress size init} {message : List α} {s : σ} {buf : List α}

theorem length_tail (message : List α) :
    (message.drop (size * (message.length / size))).length = message.length % size := by
  rw [List.length_drop, ← Nat.mod_eq_sub_mul_div]

theorem tail_of_aligned (aligned : message.length % size = 0) (buf : List α) :
    buf.take (message.length % size) = message.drop (size * (message.length / size)) := by
  have split := Nat.div_add_mod message.length size
  rw [aligned, List.take_zero, List.drop_eq_nil_of_le (by omega)]

theorem Buffered.fill (positive : 0 < size) (buffered : Buffered compress size init message s buf)
    (data : List α) (fills : size ≤ message.length % size + data.length) (buf' : List α) :
    Buffered compress size init (message ++ data.take (size - message.length % size))
      (compress s (buf.take (message.length % size) ++ data.take (size - message.length % size)))
      buf' := by
  obtain ⟨state, tail⟩ := buffered
  have below : message.length % size < size := Nat.mod_lt _ positive
  have split := Nat.div_add_mod message.length size
  have within : size * (message.length / size) ≤ message.length := Nat.mul_div_le _ _
  have length : (message ++ data.take (size - message.length % size)).length =
      size * (message.length / size + 1) := by
    rw [List.length_append, List.length_take, Nat.min_eq_left (by omega), Nat.mul_succ]
    omega
  have quotient : (message ++ data.take (size - message.length % size)).length / size =
      message.length / size + 1 := by
    rw [length, Nat.mul_div_cancel_left _ positive]
  have block : ((message ++ data.take (size - message.length % size)).drop
      (size * (message.length / size))).take size =
        buf.take (message.length % size) ++ data.take (size - message.length % size) := by
    rw [List.drop_append_of_le_length within, ← tail]
    apply List.take_of_length_le
    rw [List.length_append, tail, length_tail, List.length_take]
    omega
  refine ⟨?_, ?_⟩
  · rw [quotient, foldBlocks_succ, foldBlocks_append compress size _ _ _ _ within, block, state]
  · exact tail_of_aligned (by rw [length, Nat.mul_mod_right]) buf'

theorem Buffered.blocks (positive : 0 < size) (buffered : Buffered compress size init message s buf)
    (aligned : message.length % size = 0) (data : List α) (k : ℕ)
    (enough : size * k ≤ data.length) (buf' : List α) :
    Buffered compress size init (message ++ data.take (size * k))
      (foldBlocks compress size s data k) buf' := by
  obtain ⟨state, -⟩ := buffered
  have split : size * (message.length / size) = message.length := by
    have := Nat.div_add_mod message.length size
    omega
  have length : (message ++ data.take (size * k)).length = size * (message.length / size + k) := by
    rw [List.length_append, List.length_take, Nat.min_eq_left enough, Nat.mul_add, split]
  have quotient : (message ++ data.take (size * k)).length / size = message.length / size + k := by
    rw [length, Nat.mul_div_cancel_left _ positive]
  -- the first blocks are the message's, the others the input's first `k`
  have prefixBlocks : foldBlocks compress size init (message ++ data.take (size * k))
      (message.length / size) = s := by
    rw [foldBlocks_append compress size _ _ _ _ (Nat.le_of_eq split), state]
  have inputBlocks : foldBlocks compress size s (data.take (size * k)) k =
      foldBlocks compress size s data k := by
    rw [← foldBlocks_append compress size s (data.take (size * k)) (data.drop (size * k)) k
      (by rw [List.length_take]; omega), List.take_append_drop]
  refine ⟨?_, ?_⟩
  · rw [quotient, foldBlocks_add, prefixBlocks, split, List.drop_left, inputBlocks]
  · exact tail_of_aligned (by rw [length, Nat.mul_mod_right]) buf'

theorem Buffered.append (buffered : Buffered compress size init message s buf) (data : List α)
    (short : message.length % size + data.length < size) :
    Buffered compress size init (message ++ data) s (buf.take (message.length % size) ++ data) := by
  obtain ⟨state, tail⟩ := buffered
  have split := Nat.div_add_mod message.length size
  have within : size * (message.length / size) ≤ message.length := Nat.mul_div_le _ _
  have length : (message ++ data).length =
      size * (message.length / size) + (message.length % size + data.length) := by
    rw [List.length_append]
    omega
  have quotient : (message ++ data).length / size = message.length / size := by
    rw [length, Nat.mul_add_div (by omega), Nat.div_eq_of_lt short, Nat.add_zero]
  have remainder : (message ++ data).length % size = message.length % size + data.length := by
    rw [length, Nat.mul_add_mod, Nat.mod_eq_of_lt short]
  refine ⟨?_, ?_⟩
  · rw [quotient, foldBlocks_append compress size _ _ _ _ within, state]
  · rw [remainder, quotient, List.drop_append_of_le_length within, ← tail]
    apply List.take_of_length_le
    exact Nat.le_of_eq (by rw [List.length_append, tail, length_tail])

end BlockBuffer
