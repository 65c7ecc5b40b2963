import Mathlib.Algebra.Group.Nat.Defs
import Freycoin.Crypto.Sha256

/-! `CSHA256` hashes the concatenation of what it is given, however the input is cut into
writes. -/

namespace Freycoin.Crypto

open BlockBuffer CSHA256

/-- The message padded for SHA-256: a one bit, zeros up to 56 bytes modulo 64, and the length
in bits as a big-endian 64-bit word. -/
def padMessage (message : List UInt8) : List UInt8 :=
  message ++ 0x80 :: List.replicate ((55 - (message.length : Int)) % 64).toNat 0 ++
    WriteBE64 (UInt64.ofNat (8 * message.length))

/-- SHA-256 of a message: the compression of the blocks of the padded message from the initial
hash value. -/
def sha256Spec (message : List UInt8) : Vector UInt8 32 :=
  digest (Transform initialState (padMessage message) ((padMessage message).length / 64))

theorem transform_one {s : Vector UInt32 8} {chunk : List UInt8} (length : chunk.length = 64) :
    Transform s chunk 1 = transformChunk s chunk := by
  rw [Transform, foldBlocks, foldBlocks, List.take_of_length_le (by omega)]

structure Absorbed (sha : CSHA256) (message : List UInt8) : Prop where
  buffered : Buffered transformChunk 64 initialState message sha.s sha.buf
  bytes : sha.bytes.toNat = message.length

theorem init_absorbed : Absorbed init [] := ⟨buffered_nil _ _ _ _, rfl⟩

variable {sha : CSHA256} {message data : List UInt8} {bufsize : ℕ}

theorem Absorbed.tail_size (absorbed : Absorbed sha message) :
    (sha.bytes % 64).toNat = message.length % 64 := by
  rw [UInt64.toNat_mod, absorbed.bytes]
  rfl

theorem Absorbed.toNat_bytes_add (absorbed : Absorbed sha message) {k : ℕ}
    (fits : message.length + k < 2 ^ 64) :
    (sha.bytes + UInt64.ofNat k).toNat = message.length + k := by
  rw [UInt64.toNat_add, UInt64.toNat_ofNat', absorbed.bytes,
    Nat.mod_eq_of_lt (by omega : k < 2 ^ 64), Nat.mod_eq_of_lt fits]

/-- Between two blocks of `Write`: `message` is consumed, `data` is left, and the tail ends at
`bufsize` in the buffer, which is empty or has room for all that is left. -/
structure Midway (sha : CSHA256) (message data : List UInt8) (bufsize : ℕ) : Prop where
  absorbed : Absorbed sha message
  bufsize_eq : bufsize = message.length % 64
  short : bufsize = 0 ∨ bufsize + data.length < 64

theorem fillBuffer_midway (absorbed : Absorbed sha message) (data : List UInt8)
    (total : message.length + data.length < 2 ^ 64) :
    ∃ consumed, consumed ++ (fillBuffer sha data (message.length % 64)).2.1 = data ∧
      Midway (fillBuffer sha data (message.length % 64)).1 (message ++ consumed)
        (fillBuffer sha data (message.length % 64)).2.1
        (fillBuffer sha data (message.length % 64)).2.2 := by
  unfold fillBuffer
  split_ifs with fills
  · -- the tail and the first bytes of the input make one chunk
    dsimp only
    obtain ⟨nonzero, enough⟩ := fills
    have tailLength : (sha.buf.take (message.length % 64)).length = message.length % 64 := by
      rw [absorbed.buffered.2, length_tail]
    have chunkLength : (sha.buf.take (message.length % 64) ++
        data.take (64 - message.length % 64)).length = 64 := by
      rw [List.length_append, tailLength, List.length_take]
      omega
    refine ⟨data.take (64 - message.length % 64), List.take_append_drop _ _, ⟨⟨?_, ?_⟩, ?_,
      Or.inl rfl⟩⟩
    · rw [transform_one chunkLength]
      exact absorbed.buffered.fill (by decide) data enough _
    · rw [absorbed.toNat_bytes_add (by omega), List.length_append, List.length_take]
      omega
    · rw [List.length_append, List.length_take]
      omega
  · dsimp only
    refine ⟨[], rfl, ⟨?_, by rw [List.append_nil], by omega⟩⟩
    rw [List.append_nil]
    exact absorbed

theorem transformChunks_midway (midway : Midway sha message data bufsize)
    (total : message.length + data.length < 2 ^ 64) :
    ∃ consumed, consumed ++ (transformChunks sha data).2 = data ∧
      Midway (transformChunks sha data).1 (message ++ consumed) (transformChunks sha data).2
        bufsize ∧ bufsize + (transformChunks sha data).2.length < 64 := by
  unfold transformChunks
  split_ifs with whole
  · -- a whole chunk left means the buffer is empty
    dsimp only
    have empty : bufsize = 0 := midway.short.resolve_right (by omega)
    have enough : 64 * (data.length / 64) ≤ data.length := Nat.mul_div_le _ _
    have split := Nat.div_add_mod data.length 64
    refine ⟨data.take (64 * (data.length / 64)), List.take_append_drop _ _,
      ⟨⟨?_, ?_⟩, ?_, Or.inl empty⟩, ?_⟩
    · exact midway.absorbed.buffered.blocks (by decide) (by rw [← midway.bufsize_eq, empty]) data
        _ enough _
    · rw [midway.absorbed.toNat_bytes_add (by omega), List.length_append, List.length_take,
        Nat.min_eq_left enough]
    · rw [List.length_append, List.length_take, Nat.min_eq_left enough, midway.bufsize_eq]
      omega
    · rw [List.length_drop, empty]
      omega
  · dsimp only
    refine ⟨[], rfl, by rw [List.append_nil]; exact midway, ?_⟩
    rcases midway.short with empty | short
    · omega
    · exact short

theorem bufferRest_absorbed (midway : Midway sha message data bufsize)
    (short : bufsize + data.length < 64) (total : message.length + data.length < 2 ^ 64) :
    Absorbed (bufferRest sha data bufsize) (message ++ data) := by
  unfold bufferRest
  split_ifs with nonempty
  · refine ⟨?_, ?_⟩
    · rw [midway.bufsize_eq]
      exact midway.absorbed.buffered.append data (by rw [← midway.bufsize_eq]; exact short)
    · rw [midway.absorbed.toNat_bytes_add (by omega), List.length_append]
  · rw [not_not] at nonempty
    rw [nonempty, List.append_nil]
    exact midway.absorbed

theorem write_absorbed (absorbed : Absorbed sha message) (data : List UInt8)
    (total : message.length + data.length < 2 ^ 64) :
    Absorbed (sha.write data) (message ++ data) := by
  obtain ⟨consumed, rest, filled⟩ := fillBuffer_midway absorbed data total
  have restLength := congrArg List.length rest
  rw [List.length_append] at restLength
  obtain ⟨consumed', rest', chunked, short⟩ :=
    transformChunks_midway filled (by rw [List.length_append]; omega)
  have restLength' := congrArg List.length rest'
  rw [List.length_append] at restLength'
  have done := bufferRest_absorbed chunked short
    (by rw [List.length_append, List.length_append]; omega)
  rw [List.append_assoc, List.append_assoc, rest', rest] at done
  simp only [write]
  rw [absorbed.tail_size]
  exact done

theorem writes_absorbed (chunks : List (List UInt8)) :
    ∀ sha message, Absorbed sha message → message.length + chunks.flatten.length < 2 ^ 64 →
      Absorbed (chunks.foldl write sha) (message ++ chunks.flatten) := by
  induction chunks with
  | nil =>
      intro sha message absorbed _
      rw [List.foldl_nil, List.flatten_nil, List.append_nil]
      exact absorbed
  | cons chunk chunks ih =>
      intro sha message absorbed total
      rw [List.flatten_cons, List.length_append] at total
      rw [List.foldl_cons, List.flatten_cons, ← List.append_assoc]
      exact ih _ _ (write_absorbed absorbed chunk (by omega))
        (by rw [List.length_append]; omega)

theorem length_WriteBE64 (x : UInt64) : (WriteBE64 x).length = 8 := rfl

theorem pad_take {k : ℕ} (small : k ≤ 63) : pad.take (1 + k) = 0x80 :: List.replicate k 0 := by
  rw [Nat.add_comm, pad, List.take_succ_cons, List.take_replicate, Nat.min_eq_left small]

theorem finalize_eq (absorbed : Absorbed sha message) (short : message.length < 2 ^ 61) :
    sha.finalize = sha256Spec message := by
  have tail := absorbed.tail_size
  have below : message.length % 64 < 64 := Nat.mod_lt _ (by decide)
  have sizedesc : sha.bytes <<< 3 = UInt64.ofNat (8 * message.length) := by
    apply UInt64.toNat_inj.mp
    rw [UInt64.toNat_shiftLeft, UInt64.toNat_ofNat', absorbed.bytes, Nat.shiftLeft_eq]
    show message.length * 2 ^ 3 % 2 ^ 64 = 8 * message.length % 2 ^ 64
    rw [Nat.mul_comm]
  have padLength : (1 + (119 - sha.bytes % 64) % 64).toNat =
      1 + ((55 - (message.length : Int)) % 64).toNat := by
    have within : sha.bytes % 64 ≤ 119 := by
      rw [UInt64.le_iff_toNat_le, tail]
      show message.length % 64 ≤ 119
      omega
    rw [UInt64.toNat_add, UInt64.toNat_mod, UInt64.toNat_sub_of_le _ _ within, tail]
    show (1 + (119 - message.length % 64) % 64) % 2 ^ 64 = _
    omega
  have padding := pad_take (k := ((55 - (message.length : Int)) % 64).toNat) (by omega)
  have padded := write_absorbed absorbed
    (0x80 :: List.replicate ((55 - (message.length : Int)) % 64).toNat 0)
    (by rw [List.length_cons, List.length_replicate]; omega)
  have ended := write_absorbed padded (WriteBE64 (UInt64.ofNat (8 * message.length)))
    (by rw [List.length_append, List.length_cons, List.length_replicate, length_WriteBE64]; omega)
  simp only [finalize]
  rw [sizedesc, padLength, padding, ended.buffered.1]
  rfl

/-- However the input is cut into writes, `CSHA256` returns SHA-256 of its concatenation. -/
theorem csha256_hashes_concatenation (chunks : List (List UInt8))
    (short : chunks.flatten.length < 2 ^ 61) :
    (chunks.foldl write init).finalize = sha256Spec chunks.flatten := by
  have absorbed := writes_absorbed chunks init [] init_absorbed (by rw [List.length_nil]; omega)
  rw [List.nil_append] at absorbed
  exact finalize_eq absorbed short

theorem csha256_hashes_concatenation_of_split :
    [[0x61], [0x62, 0x63]].flatten.length < 2 ^ 61 ∧
      ([[0x61], [0x62, 0x63]].foldl write init).finalize =
        sha256Spec [[0x61], [0x62, 0x63]].flatten :=
  ⟨by decide, csha256_hashes_concatenation _ (by decide)⟩

end Freycoin.Crypto
