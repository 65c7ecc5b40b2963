import Freycoin.Crypto.SipHash
import Mathlib.Data.Nat.Bitwise

/-! The byte-level `Write` of `CSipHasher` against the specialized functions for a `uint256`. -/

namespace Freycoin.Crypto

open LittleEndian

namespace CSipHasher

theorem toNat_count_mod {c : UInt8} (aligned : c % 8 = 0) {k : ℕ} (short : k < 8) :
    ((c + k.toUInt8) % 8).toNat = k := by
  have a : c.toNat % 8 = 0 := by simpa [UInt8.toNat_inj] using congrArg UInt8.toNat aligned
  rw [UInt8.toNat_mod, UInt8.toNat_add, Nat.toUInt8_eq, UInt8.toNat_ofNat']
  show ((c.toNat + k % 2 ^ 8) % 2 ^ 8) % 8 = k
  omega

theorem word_full_iff {c : UInt8} (aligned : c % 8 = 0) {k : ℕ} (short : k < 8) :
    (c + k.toUInt8 + 1) &&& 7 = 0 ↔ k = 7 := by
  have a : c.toNat % 8 = 0 := by simpa [UInt8.toNat_inj] using congrArg UInt8.toNat aligned
  rw [← UInt8.toNat_inj, UInt8.toNat_and, show (7 : UInt8).toNat = 2 ^ 3 - 1 from rfl,
    Nat.and_two_pow_sub_one_eq_mod, UInt8.toNat_add, UInt8.toNat_add, Nat.toUInt8_eq,
    UInt8.toNat_ofNat']
  show ((c.toNat + k % 2 ^ 8) % 2 ^ 8 + 1) % 2 ^ 8 % 2 ^ 3 = 0 ↔ k = 7
  omega

theorem gather {t : UInt64} {k : ℕ} (short : k < 8) (low : t.toNat < 2 ^ (8 * k)) (b : UInt8) :
    (t ||| (b.toUInt64 <<< (8 * k).toUInt64)).toNat = t.toNat + 2 ^ (8 * k) * b.toNat := by
  have shift : (8 * k).toUInt64.toNat % 64 = 8 * k := by
    rw [Nat.toUInt64_eq, UInt64.toNat_ofNat']
    omega
  have fits : 2 ^ (8 * k) * b.toNat < 2 ^ 64 :=
    calc 2 ^ (8 * k) * b.toNat < 2 ^ (8 * k) * 2 ^ 8 := Nat.mul_lt_mul_of_pos_left b.toNat_lt (Nat.two_pow_pos _)
      _ ≤ 2 ^ 64 := by rw [← Nat.pow_add]; exact Nat.pow_le_pow_right (by decide) (by omega)
  rw [UInt64.toNat_or, UInt64.toNat_shiftLeft, shift, UInt8.toNat_toUInt64, Nat.shiftLeft_eq, Nat.mul_comm,
    Nat.mod_eq_of_lt fits, Nat.or_comm, ← Nat.two_pow_add_eq_or_of_lt low, Nat.add_comm]

theorem leValue_lt_word {bytes : List UInt8} (short : bytes.length ≤ 8) : leValue bytes < 2 ^ 64 :=
  calc leValue bytes < 256 ^ bytes.length := leValue_lt bytes
    _ ≤ 256 ^ 8 := Nat.pow_le_pow_right (by decide) short
    _ = 2 ^ 64 := by norm_num

theorem write_append (h : CSipHasher) (front back : List UInt8) :
    h.write (front ++ back) = (h.write front).write back := List.foldl_append

theorem write_partial (h : CSipHasher) (aligned : h.count % 8 = 0) (empty : h.tmp = 0) :
    ∀ bytes : List UInt8, bytes.length < 8 →
      h.write bytes = ⟨h.v, UInt64.ofNat (leValue bytes), h.count + bytes.length.toUInt8⟩ := by
  intro bytes
  induction bytes using List.reverseRecOn with
  | nil =>
    intro _
    obtain ⟨v, t, c⟩ := h
    subst empty
    simp [write]
  | append_singleton bytes byte ih =>
    intro short
    rw [List.length_append, List.length_singleton] at short
    have low : (UInt64.ofNat (leValue bytes)).toNat < 2 ^ (8 * bytes.length) := by
      have := leValue_lt bytes
      rw [UInt64.toNat_ofNat', Nat.mod_eq_of_lt (lt_of_lt_of_le this (by
        rw [show (256 : ℕ) = 2 ^ 8 from rfl, ← Nat.pow_mul]; exact Nat.pow_le_pow_right (by decide) (by omega)))]
      rwa [show (256 : ℕ) ^ bytes.length = 2 ^ (8 * bytes.length) by rw [Nat.pow_mul]] at this
    rw [write_append, ih (by omega)]
    simp only [write, List.foldl_cons, List.foldl_nil, writeByte]
    rw [if_neg (fun full => by have := (word_full_iff aligned (by omega : bytes.length < 8)).mp full; omega)]
    have amount : (8 * ((h.count + bytes.length.toUInt8) % 8)).toUInt64 = (8 * bytes.length).toUInt64 := by
      apply UInt64.toNat_inj.mp
      rw [UInt8.toNat_toUInt64, UInt8.toNat_mul, toNat_count_mod aligned (by omega), Nat.toUInt64_eq,
        UInt64.toNat_ofNat']
      show 8 * bytes.length % 2 ^ 8 = 8 * bytes.length % 2 ^ 64
      omega
    rw [amount]
    congr 1
    · apply UInt64.toNat_inj.mp
      rw [gather (by omega) low, UInt64.toNat_ofNat', UInt64.toNat_ofNat',
        Nat.mod_eq_of_lt (leValue_lt_word (by omega)),
        Nat.mod_eq_of_lt (leValue_lt_word (by rw [List.length_append, List.length_singleton]; omega)),
        leValue_append, leValue_cons, leValue_nil, Nat.mul_zero, Nat.add_zero, Nat.pow_mul]
    · apply UInt8.toNat_inj.mp
      simp [UInt8.toNat_add, Nat.toUInt8, UInt8.toNat_ofNat']
      omega

theorem write_word (h : CSipHasher) (aligned : h.count % 8 = 0) (empty : h.tmp = 0) {bytes : List UInt8}
    (eight : bytes.length = 8) :
    h.write bytes = ⟨compress h.v (UInt64.ofNat (leValue bytes)), 0, h.count + 8⟩ := by
  have nonempty : bytes ≠ [] := List.ne_nil_of_length_pos (by omega)
  have front : bytes.dropLast.length = 7 := by rw [List.length_dropLast, eight]
  have low : (UInt64.ofNat (leValue bytes.dropLast)).toNat < 2 ^ (8 * 7) := by
    rw [UInt64.toNat_ofNat', Nat.mod_eq_of_lt (leValue_lt_word (by omega))]
    calc leValue bytes.dropLast < 256 ^ bytes.dropLast.length := leValue_lt _
      _ = 2 ^ (8 * 7) := by rw [front]; norm_num
  have amount : (8 * ((h.count + bytes.dropLast.length.toUInt8) % 8)).toUInt64 = (8 * 7).toUInt64 := by
    apply UInt64.toNat_inj.mp
    rw [UInt8.toNat_toUInt64, UInt8.toNat_mul, toNat_count_mod aligned (by omega), front]
    rfl
  conv_lhs => rw [← List.dropLast_append_getLast nonempty]
  rw [write_append, write_partial h aligned empty _ (by omega)]
  simp only [write, List.foldl_cons, List.foldl_nil, writeByte]
  rw [if_pos ((word_full_iff aligned (by omega)).mpr front), amount, CSipHasher.mk.injEq]
  refine ⟨congrArg (compress h.v) ?_, rfl, ?_⟩
  · apply UInt64.toNat_inj.mp
    conv_rhs => rw [← List.dropLast_append_getLast nonempty]
    rw [gather (by omega) low, UInt64.toNat_ofNat', UInt64.toNat_ofNat',
      Nat.mod_eq_of_lt (leValue_lt_word (by omega)),
      Nat.mod_eq_of_lt (leValue_lt_word (by rw [List.dropLast_append_getLast nonempty]; omega)),
      leValue_append, leValue_cons, leValue_nil, Nat.mul_zero, Nat.add_zero, front]
    norm_num
  · rw [front, UInt8.add_assoc]
    rfl

end CSipHasher

theorem toList_split (val : Vector UInt8 32) :
    val.toList = (val.toList.drop (8 * 0)).take 8 ++ ((val.toList.drop (8 * 1)).take 8 ++
      ((val.toList.drop (8 * 2)).take 8 ++ (val.toList.drop (8 * 3)).take 8)) := by
  have len : val.toList.length = 32 := by simp
  have last : (val.toList.drop 24).take 8 = val.toList.drop 24 :=
    List.take_of_length_le (by rw [List.length_drop, len])
  rw [show 8 * 0 = 0 from rfl, show 8 * 1 = 8 from rfl, show 8 * 2 = 16 from rfl, show 8 * 3 = 24 from rfl,
    last, List.drop_zero]
  conv_lhs => rw [← List.take_append_drop 8 val.toList, ← List.take_append_drop 8 (val.toList.drop 8),
    List.drop_drop, ← List.take_append_drop 8 (val.toList.drop (8 + 8)), List.drop_drop]

theorem length_chunk (val : Vector UInt8 32) {i : ℕ} (inside : i ≤ 3) :
    ((val.toList.drop (8 * i)).take 8).length = 8 := by
  rw [List.length_take, List.length_drop, Vector.length_toList]
  omega

/-- `SipHashUint256` is `CSipHasher` on the 32 bytes of the value, as the header says. -/
theorem sipHashUint256_eq_write (k0 k1 : UInt64) (val : Vector UInt8 32) :
    sipHashUint256 k0 k1 val = ((CSipHasher.init k0 k1).write val.toList).finalize := by
  rw [toList_split val, CSipHasher.write_append, CSipHasher.write_word _ (by simp [CSipHasher.init]) rfl (length_chunk val (by decide : 0 ≤ 3)),
    CSipHasher.write_append, CSipHasher.write_word _ (by simp [CSipHasher.init]) rfl (length_chunk val (by decide : 1 ≤ 3)),
    CSipHasher.write_append, CSipHasher.write_word _ (by simp [CSipHasher.init]) rfl (length_chunk val (by decide : 2 ≤ 3)),
    CSipHasher.write_word _ (by simp [CSipHasher.init]) rfl (length_chunk val (by decide : 3 ≤ 3))]
  have length : (0 : UInt64) ||| ((CSipHasher.init k0 k1).count + 8 + 8 + 8 + 8).toUInt64 <<< 56 =
      (4 : UInt64) <<< 59 := by
    show (0 : UInt64) ||| ((0 : UInt8) + 8 + 8 + 8 + 8).toUInt64 <<< 56 = (4 : UInt64) <<< 59
    decide
  simp only [sipHashUint256, CSipHasher.finalize, length]
  rfl

/-- `SipHashUint256Extra` is `CSipHasher` on the 32 bytes of the value followed by the 4
little-endian bytes of `extra`: the unfinished last word holds them, and the length 36 goes in its
top byte. -/
theorem sipHashUint256Extra_eq_write (k0 k1 : UInt64) (val : Vector UInt8 32) (extra : UInt32) :
    sipHashUint256Extra k0 k1 val extra =
      ((CSipHasher.init k0 k1).write (val.toList ++ leBytes 4 extra.toNat)).finalize := by
  rw [CSipHasher.write_append, toList_split val, CSipHasher.write_append,
    CSipHasher.write_word _ (by simp [CSipHasher.init]) rfl (length_chunk val (by decide : 0 ≤ 3)),
    CSipHasher.write_append, CSipHasher.write_word _ (by simp [CSipHasher.init]) rfl (length_chunk val (by decide : 1 ≤ 3)),
    CSipHasher.write_append, CSipHasher.write_word _ (by simp [CSipHasher.init]) rfl (length_chunk val (by decide : 2 ≤ 3)),
    CSipHasher.write_word _ (by simp [CSipHasher.init]) rfl (length_chunk val (by decide : 3 ≤ 3)),
    CSipHasher.write_partial _ (by simp [CSipHasher.init]) rfl _ (by rw [length_leBytes]; decide)]
  have gathered : UInt64.ofNat (leValue (leBytes 4 extra.toNat)) = extra.toUInt64 := by
    apply UInt64.toNat_inj.mp
    rw [UInt64.toNat_ofNat', leValue_leBytes, UInt32.toNat_toUInt64,
      Nat.mod_eq_of_lt (show extra.toNat < 256 ^ 4 from extra.toNat_lt),
      Nat.mod_eq_of_lt (lt_trans extra.toNat_lt (by decide))]
  have length : ((CSipHasher.init k0 k1).count + 8 + 8 + 8 + 8 + (leBytes 4 extra.toNat).length.toUInt8).toUInt64 <<< 56 =
      (36 : UInt64) <<< 56 := by
    rw [length_leBytes]
    show ((0 : UInt8) + 8 + 8 + 8 + 8 + (4 : ℕ).toUInt8).toUInt64 <<< 56 = (36 : UInt64) <<< 56
    decide
  simp only [sipHashUint256Extra, CSipHasher.finalize, gathered, length, UInt64.or_comm]
  rfl

end Freycoin.Crypto
