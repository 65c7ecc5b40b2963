import Freycoin.Serialize.BitStream
import Freycoin.Library.BitString

/-! What the bit streams stand for: a string of bits. A writer stands for the bits written to it,
those of the bytes out followed by the written high bits of its buffer; a reader for the bits it
has left, the unread low bits of its buffer followed by those of the bytes left. `Write` appends
the `nbits` low bits of its value to the first string and `Read` takes the first `nbits` bits of
the second, as a number; `Flush` pads the first with zeros to a whole byte. Each loop is proved
pass by pass: the shifts of one pass, on the machine words, move exactly the bits the string
says. -/

namespace Freycoin.Serialize
open BitString

section Shifts

theorem toNat_shift_amount {n : ℕ} (below : n < 64) : n.toUInt64.toNat % 64 = n := by
  simp [Nat.toUInt64]
  omega

theorem low_bits_to_top (d : ℕ) {nbits : ℕ} (below64 : nbits ≤ 64) :
    d * 2 ^ (64 - nbits) % 2 ^ 64 = d % 2 ^ nbits * 2 ^ (64 - nbits) := by
  rw [show 2 ^ 64 = 2 ^ nbits * 2 ^ (64 - nbits) by rw [← Nat.pow_add]; congr 1; omega,
    Nat.mul_mod_mul_right]

theorem shifted_value (data : UInt64) {offset nbits : ℕ} (positive : 0 < nbits) (below64 : nbits ≤ 64)
    (offset_lt : offset < 8) :
    ((data <<< (64 - nbits).toUInt64) >>> (64 - 8 + offset).toUInt64).toNat =
      2 ^ (8 - offset - min (8 - offset) nbits) *
        (data.toNat / 2 ^ (nbits - min (8 - offset) nbits) % 2 ^ min (8 - offset) nbits) := by
  rw [UInt64.toNat_shiftRight, UInt64.toNat_shiftLeft, toNat_shift_amount (by omega),
    toNat_shift_amount (by omega), Nat.shiftLeft_eq, Nat.shiftRight_eq_div_pow, low_bits_to_top _ below64]
  by_cases fits : nbits ≤ 8 - offset
  · -- the bits all fit: they move down to just below the written ones
    rw [Nat.min_eq_right fits, Nat.sub_self, Nat.pow_zero, Nat.div_one,
      show 64 - nbits = (8 - offset - nbits) + (56 + offset) by omega, Nat.pow_add, ← Nat.mul_assoc,
      Nat.mul_div_cancel _ (Nat.two_pow_pos _), Nat.mul_comm]
  · -- the top `8 - offset` of them fill the byte
    rw [Nat.min_eq_left (by omega), Nat.sub_self, Nat.pow_zero, Nat.one_mul,
      show 56 + offset = (64 - nbits) + (nbits - (8 - offset)) by omega, Nat.pow_add,
      ← Nat.div_div_eq_div_mul, Nat.mul_div_cancel _ (Nat.two_pow_pos _),
      show 2 ^ nbits = 2 ^ (nbits - (8 - offset)) * 2 ^ (8 - offset) by
        rw [← Nat.pow_add]; congr 1; omega,
      Nat.mod_mul_right_div_self]

end Shifts

namespace BitStreamWriter

/-- The bits a writer has written: those of the bytes out, then the written high bits of its
buffer. -/
def bits (w : BitStreamWriter) : List Bool :=
  bytesBits w.out ++ msbBits w.offset (w.buffer.toNat / 2 ^ (8 - w.offset))

/-- The buffer holds written bits only: below them it is zero. -/
structure Valid (w : BitStreamWriter) : Prop where
  offset_lt : w.offset < 8
  low_zero : w.buffer.toNat % 2 ^ (8 - w.offset) = 0

theorem valid_init (out : List UInt8) : (init out).Valid := ⟨by simp [init], by simp [init]⟩

theorem bits_init (out : List UInt8) : (init out).bits = bytesBits out := by
  simp [bits, init]

theorem Valid.buffer_eq {w : BitStreamWriter} (valid : w.Valid) :
    w.buffer.toNat = 2 ^ (8 - w.offset) * (w.buffer.toNat / 2 ^ (8 - w.offset)) := by
  have split := Nat.div_add_mod w.buffer.toNat (2 ^ (8 - w.offset))
  rw [valid.low_zero, Nat.add_zero] at split
  exact split.symm

theorem bytesBits_flush {w : BitStreamWriter} (valid : w.Valid) :
    bytesBits w.flush.out = w.bits ++ List.replicate ((8 - w.offset) % 8) false ∧
      w.flush.buffer = 0 ∧ w.flush.offset = 0 := by
  unfold flush
  split_ifs with empty
  · have zero : w.buffer.toNat = 0 := by
      have low := valid.low_zero
      rw [empty, Nat.sub_zero, Nat.mod_eq_of_lt w.buffer.toNat_lt] at low
      exact low
    refine ⟨by simp [bits, empty], UInt8.toNat_inj.mp zero, empty⟩
  · have pad : (8 - w.offset) % 8 = 8 - w.offset := Nat.mod_eq_of_lt (by omega)
    have whole := msbBits_two_pow_mul_add w.offset (8 - w.offset) (w.buffer.toNat / 2 ^ (8 - w.offset))
      (Nat.two_pow_pos (8 - w.offset))
    rw [Nat.add_zero, ← valid.buffer_eq, Nat.add_sub_cancel' valid.offset_lt.le, msbBits_zero] at whole
    refine ⟨?_, rfl, rfl⟩
    rw [bytesBits_append, bits, pad, List.append_assoc, ← whole, bytesBits_cons, bytesBits_nil,
      List.append_nil]

theorem flush_of_ne {w : BitStreamWriter} (written : w.offset ≠ 0) :
    w.flush = ⟨w.out ++ [w.buffer], 0, 0⟩ := if_neg written

theorem out_prefix_flush (w : BitStreamWriter) : w.out <+: w.flush.out := by
  unfold flush
  split_ifs
  · exact List.prefix_refl _
  · exact List.prefix_append _ _

/-- The body of the loop of `Write`. -/
def writePass (data : UInt64) (w : BitStreamWriter) (nbits : ℕ) : BitStreamWriter :=
  let bits := min (8 - w.offset) nbits
  let buffer :=
    (w.buffer.toUInt64 ||| (data <<< (64 - nbits).toUInt64) >>> (64 - 8 + w.offset).toUInt64).toUInt8
  let w : BitStreamWriter := ⟨w.out, buffer, w.offset + bits⟩
  if w.offset = 8 then w.flush else w

theorem writeLoop_succ (data : UInt64) (fuel : ℕ) (w : BitStreamWriter) (nbits : ℕ) :
    writeLoop data (fuel + 1) w nbits =
      if 0 < nbits then writeLoop data fuel (writePass data w nbits) (nbits - min (8 - w.offset) nbits)
      else w := rfl

theorem buffer_writePass {w : BitStreamWriter} (valid : w.Valid) (data : UInt64) {nbits : ℕ}
    (positive : 0 < nbits) (below64 : nbits ≤ 64) :
    ((w.buffer.toUInt64 ||| (data <<< (64 - nbits).toUInt64) >>> (64 - 8 + w.offset).toUInt64).toUInt8).toNat =
      2 ^ (8 - w.offset - min (8 - w.offset) nbits) *
        (2 ^ min (8 - w.offset) nbits * (w.buffer.toNat / 2 ^ (8 - w.offset)) +
          data.toNat / 2 ^ (nbits - min (8 - w.offset) nbits) % 2 ^ min (8 - w.offset) nbits) := by
  have offset_lt := valid.offset_lt
  set bits := min (8 - w.offset) nbits with bits_def
  set written := w.buffer.toNat / 2 ^ (8 - w.offset)
  set next := data.toNat / 2 ^ (nbits - bits) % 2 ^ bits
  have fits : bits ≤ 8 - w.offset := Nat.min_le_left _ _
  have room : 2 ^ (8 - w.offset) = 2 ^ (8 - w.offset - bits) * 2 ^ bits := by
    rw [← Nat.pow_add]; congr 1; omega
  have nextLow : 2 ^ (8 - w.offset - bits) * next < 2 ^ (8 - w.offset) := by
    rw [room]
    exact Nat.mul_lt_mul_of_pos_left (Nat.mod_lt _ (Nat.two_pow_pos _)) (Nat.two_pow_pos _)
  have writtenLow : written < 2 ^ w.offset := by
    rw [Nat.div_lt_iff_lt_mul (Nat.two_pow_pos _), ← Nat.pow_add, Nat.add_sub_cancel' offset_lt.le]
    exact w.buffer.toNat_lt
  -- the written bits and the new ones do not overlap, so `|=` adds them
  have sum : w.buffer.toNat ||| 2 ^ (8 - w.offset - bits) * next =
      2 ^ (8 - w.offset - bits) * (2 ^ bits * written + next) := by
    have buffer : w.buffer.toNat = 2 ^ (8 - w.offset) * written := valid.buffer_eq
    rw [buffer, ← Nat.two_pow_add_eq_or_of_lt nextLow, room]
    ring
  have below : 2 ^ (8 - w.offset - bits) * (2 ^ bits * written + next) < 2 ^ 8 := by
    calc 2 ^ (8 - w.offset - bits) * (2 ^ bits * written + next)
        < 2 ^ (8 - w.offset - bits) * (2 ^ bits * (written + 1)) := by
          apply Nat.mul_lt_mul_of_pos_left _ (Nat.two_pow_pos _)
          have := Nat.mod_lt (data.toNat / 2 ^ (nbits - bits)) (Nat.two_pow_pos bits)
          rw [Nat.mul_add, Nat.mul_one]
          omega
      _ ≤ 2 ^ (8 - w.offset) * 2 ^ w.offset := by
          rw [← Nat.mul_assoc, ← room]
          exact Nat.mul_le_mul_left _ writtenLow
      _ = 2 ^ 8 := by rw [← Nat.pow_add, Nat.sub_add_cancel offset_lt.le]
  rw [UInt64.toNat_toUInt8, UInt64.toNat_or, UInt8.toNat_toUInt64,
    shifted_value data positive below64 offset_lt, ← bits_def, sum]
  exact Nat.mod_eq_of_lt below

theorem writePass_spec {w : BitStreamWriter} (valid : w.Valid) (data : UInt64) {nbits : ℕ}
    (positive : 0 < nbits) (below64 : nbits ≤ 64) :
    (writePass data w nbits).Valid ∧ (writePass data w nbits).bits =
      w.bits ++ msbBits (min (8 - w.offset) nbits) (data.toNat / 2 ^ (nbits - min (8 - w.offset) nbits)) := by
  have offset_lt := valid.offset_lt
  have buffer := buffer_writePass valid data positive below64
  set taken := min (8 - w.offset) nbits with taken_def
  have fits : taken ≤ 8 - w.offset := Nat.min_le_left _ _
  have appended := msbBits_two_pow_mul_add w.offset taken (w.buffer.toNat / 2 ^ (8 - w.offset))
    (Nat.mod_lt (data.toNat / 2 ^ (nbits - taken)) (Nat.two_pow_pos taken))
  rw [msbBits_mod] at appended
  unfold writePass
  dsimp only
  rw [← taken_def]
  split_ifs with full
  · -- a full byte goes out
    have zeroPad : 8 - w.offset - taken = 0 := by omega
    rw [zeroPad, Nat.pow_zero, Nat.one_mul] at buffer
    rw [flush_of_ne (show w.offset + taken ≠ 0 by omega)]
    refine ⟨⟨by simp, by simp⟩, ?_⟩
    rw [full] at appended
    simp only [BitStreamWriter.bits, bytesBits_append, bytesBits_cons, bytesBits_nil, List.append_nil,
      msbBits_width_zero, buffer, appended, List.append_assoc]
  · have shrinks : 8 - (w.offset + taken) = 8 - w.offset - taken := by omega
    refine ⟨⟨show w.offset + taken < 8 by omega, ?_⟩, ?_⟩
    · simp only [buffer, shrinks, Nat.mul_mod_right]
    · simp only [BitStreamWriter.bits, buffer, shrinks, Nat.mul_div_cancel_left _ (Nat.two_pow_pos _),
        appended, List.append_assoc]

theorem out_prefix_writePass (data : UInt64) (w : BitStreamWriter) (nbits : ℕ) :
    w.out <+: (writePass data w nbits).out := by
  unfold writePass flush
  dsimp only
  split_ifs <;> simp

theorem out_prefix_writeLoop (data : UInt64) (fuel : ℕ) :
    ∀ (w : BitStreamWriter) nbits, w.out <+: (writeLoop data fuel w nbits).out := by
  induction fuel with
  | zero => intro w nbits; exact List.prefix_refl _
  | succ fuel ih =>
    intro w nbits
    rw [writeLoop_succ]
    split_ifs
    · exact (out_prefix_writePass data w nbits).trans (ih _ _)
    · exact List.prefix_refl _

theorem writeLoop_spec (data : UInt64) (fuel : ℕ) :
    ∀ (w : BitStreamWriter) nbits, w.Valid → nbits ≤ 64 → nbits ≤ fuel →
      (writeLoop data fuel w nbits).Valid ∧
        (writeLoop data fuel w nbits).bits = w.bits ++ msbBits nbits data.toNat := by
  induction fuel with
  | zero =>
    intro w nbits valid _ none
    rw [Nat.le_zero.mp none]
    exact ⟨valid, by simp [writeLoop, msbBits]⟩
  | succ fuel ih =>
    intro w nbits valid below64 enough
    rw [writeLoop_succ]
    split_ifs with positive
    · obtain ⟨valid', appended⟩ := writePass_spec valid data positive below64
      have offset_lt := valid.offset_lt
      obtain ⟨valid'', rest⟩ := ih _ (nbits - min (8 - w.offset) nbits) valid' (by omega) (by omega)
      refine ⟨valid'', ?_⟩
      rw [rest, appended, List.append_assoc, ← msbBits_add, Nat.add_sub_cancel' (Nat.min_le_right _ _)]
    · rw [Nat.eq_zero_of_not_pos positive]
      exact ⟨valid, by simp [msbBits]⟩

theorem write_spec {w : BitStreamWriter} (valid : w.Valid) (data : UInt64) {nbits : ℕ} (below64 : nbits ≤ 64) :
    ∃ w', w.write data nbits = .ok w' ∧ w'.Valid ∧ w'.bits = w.bits ++ msbBits nbits data.toNat ∧
      w.out <+: w'.out := by
  obtain ⟨valid', bits'⟩ := writeLoop_spec data nbits w nbits valid below64 le_rfl
  exact ⟨_, if_neg (Nat.not_lt.mpr below64), valid', bits', out_prefix_writeLoop data nbits w nbits⟩

end BitStreamWriter

namespace BitStreamReader

/-- The bits a reader has left: the unread low bits of its buffer, then those of the bytes
left. -/
def bits (r : BitStreamReader) : List Bool := msbBits (8 - r.offset) r.buffer.toNat ++ bytesBits r.input

theorem bits_init (input : List UInt8) : (init input).bits = bytesBits input := by
  simp [bits, init]

theorem length_bits (r : BitStreamReader) : r.bits.length = r.bitsLeft := by
  rw [bits, bitsLeft, List.length_append, length_msbBits, length_bytesBits, Nat.add_comm]

theorem input_eq_nil {r : BitStreamReader} (short : r.bits.length < 8) : r.input = [] := by
  rw [length_bits, bitsLeft] at short
  exact List.eq_nil_of_length_eq_zero (by omega)

theorem refill_spec {r : BitStreamReader} (valid : r.offset ≤ 8) (nonempty : r.bits ≠ []) :
    ∃ r', r.refill = .ok r' ∧ r'.offset < 8 ∧ r'.bits = r.bits := by
  unfold refill
  split_ifs with used
  · cases input : r.input with
    | nil => simp [bits, used, input] at nonempty
    | cons byte rest =>
      refine ⟨⟨rest, byte, 0⟩, rfl, Nat.zero_lt_succ 7, ?_⟩
      simp [bits, used, input, bytesBits_cons]
  · exact ⟨r, rfl, by omega, rfl⟩

/-- The body of the loop of `Read`, once a byte is buffered. -/
def readPass (r : BitStreamReader) (data : UInt64) (nbits : ℕ) : UInt64 × BitStreamReader :=
  let bits := min (8 - r.offset) nbits
  ((data <<< bits.toUInt64) ||| ((r.buffer <<< r.offset.toUInt8) >>> (8 - bits).toUInt8).toUInt64,
    ⟨r.input, r.buffer, r.offset + bits⟩)

theorem readLoop_succ (fuel : ℕ) (r : BitStreamReader) (data : UInt64) (nbits : ℕ) :
    readLoop (fuel + 1) r data nbits =
      if 0 < nbits then
        r.refill >>= fun r => readLoop fuel (readPass r data nbits).2 (readPass r data nbits).1
          (nbits - min (8 - r.offset) nbits)
      else .ok (data, r) := rfl

theorem taken_value {r : BitStreamReader} (offset_lt : r.offset < 8) {taken : ℕ} (positive : 0 < taken)
    (fits : taken ≤ 8 - r.offset) :
    ((r.buffer <<< r.offset.toUInt8) >>> (8 - taken).toUInt8).toNat =
      r.buffer.toNat % 2 ^ (8 - r.offset) / 2 ^ (8 - r.offset - taken) := by
  have shiftLeft : r.offset.toUInt8.toNat % 8 = r.offset := by simp [Nat.toUInt8]; omega
  have shiftRight : (8 - taken).toUInt8.toNat % 8 = 8 - taken := by simp [Nat.toUInt8]; omega
  rw [UInt8.toNat_shiftRight, UInt8.toNat_shiftLeft, shiftLeft, shiftRight, Nat.shiftLeft_eq,
    Nat.shiftRight_eq_div_pow,
    show 2 ^ 8 = 2 ^ (8 - r.offset) * 2 ^ r.offset by rw [← Nat.pow_add]; congr 1; omega,
    Nat.mul_mod_mul_right, show 8 - taken = (8 - r.offset - taken) + r.offset by omega, Nat.pow_add,
    Nat.mul_comm (2 ^ (8 - r.offset - taken)), ← Nat.div_div_eq_div_mul,
    Nat.mul_div_cancel _ (Nat.two_pow_pos _)]

theorem readPass_spec {r : BitStreamReader} (offset_lt : r.offset < 8) (data : UInt64) {nbits : ℕ}
    (positive : 0 < nbits) (room : data.toNat < 2 ^ (64 - nbits)) (below64 : nbits ≤ 64) :
    (readPass r data nbits).1.toNat =
        2 ^ min (8 - r.offset) nbits * data.toNat + ofBits (r.bits.take (min (8 - r.offset) nbits)) ∧
      (readPass r data nbits).2.offset ≤ 8 ∧
      (readPass r data nbits).2.bits = r.bits.drop (min (8 - r.offset) nbits) := by
  set taken := min (8 - r.offset) nbits with taken_def
  have fits : taken ≤ 8 - r.offset := Nat.min_le_left _ _
  have atLeastOne : 0 < taken := by omega
  -- the taken bits, as a number and as a string
  have value := taken_value offset_lt atLeastOne fits
  have front : msbBits taken (r.buffer.toNat % 2 ^ (8 - r.offset) / 2 ^ (8 - r.offset - taken)) =
      (msbBits (8 - r.offset) r.buffer.toNat).take taken := by
    rw [msbBits_div_two_pow, Nat.add_sub_cancel' fits, msbBits_mod]
  have small : r.buffer.toNat % 2 ^ (8 - r.offset) / 2 ^ (8 - r.offset - taken) < 2 ^ taken := by
    rw [Nat.div_lt_iff_lt_mul (Nat.two_pow_pos _), ← Nat.pow_add, Nat.add_sub_cancel' fits]
    exact Nat.mod_lt _ (Nat.two_pow_pos _)
  have takeBits : r.bits.take taken = (msbBits (8 - r.offset) r.buffer.toNat).take taken := by
    rw [bits, List.take_append_of_le_length (by rw [length_msbBits]; exact fits)]
  refine ⟨?_, show r.offset + taken ≤ 8 by omega, ?_⟩
  · have noWrap : 2 ^ taken * data.toNat < 2 ^ 64 := by
      calc 2 ^ taken * data.toNat < 2 ^ taken * 2 ^ (64 - nbits) :=
            Nat.mul_lt_mul_of_pos_left room (Nat.two_pow_pos _)
        _ ≤ 2 ^ 64 := by rw [← Nat.pow_add]; exact Nat.pow_le_pow_right (by decide) (by omega)
    have shift : taken.toUInt64.toNat % 64 = taken := by simp [Nat.toUInt64]; omega
    rw [readPass, UInt64.toNat_or, UInt64.toNat_shiftLeft, shift, UInt8.toNat_toUInt64, value,
      Nat.shiftLeft_eq, Nat.mul_comm, Nat.mod_eq_of_lt noWrap, ← Nat.two_pow_add_eq_or_of_lt small, takeBits,
      ← front, ofBits_msbBits, Nat.mod_eq_of_lt small]
  · show msbBits (8 - (r.offset + taken)) r.buffer.toNat ++ bytesBits r.input = r.bits.drop taken
    rw [bits, List.drop_append_of_le_length (by rw [length_msbBits]; exact fits),
      show 8 - r.offset = taken + (8 - r.offset - taken) by omega, msbBits_add,
      List.drop_left' (length_msbBits _ _), Nat.sub_sub]

theorem readLoop_spec : ∀ fuel (r : BitStreamReader) (data : UInt64) nbits, r.offset ≤ 8 →
    nbits ≤ r.bits.length → nbits ≤ fuel → data.toNat < 2 ^ (64 - nbits) → nbits ≤ 64 →
    ∃ value r', readLoop fuel r data nbits = .ok (value, r') ∧
      value.toNat = 2 ^ nbits * data.toNat + ofBits (r.bits.take nbits) ∧ r'.offset ≤ 8 ∧
      r'.bits = r.bits.drop nbits := by
  intro fuel
  induction fuel with
  | zero =>
    intro r data nbits valid _ none _ _
    obtain rfl : nbits = 0 := by omega
    exact ⟨data, r, rfl, by simp, valid, rfl⟩
  | succ fuel ih =>
    intro r data nbits valid left enough room below64
    rw [readLoop_succ]
    split_ifs with positive
    · obtain ⟨r₁, refilled, offset_lt, same⟩ :=
        refill_spec valid (List.ne_nil_of_length_pos (by omega))
      obtain ⟨value₁, offset₁, bits₁⟩ := readPass_spec offset_lt data positive room below64
      set taken := min (8 - r₁.offset) nbits with taken_def
      have atLeastOne : 0 < taken := by omega
      have takenLe : taken ≤ nbits := Nat.min_le_right _ _
      have length₁ : r₁.bits.length = r.bits.length := by rw [same]
      have room₁ : (readPass r₁ data nbits).1.toNat < 2 ^ (64 - (nbits - taken)) := by
        have front : ofBits (r₁.bits.take taken) < 2 ^ taken := by
          have := ofBits_lt (r₁.bits.take taken)
          rwa [List.length_take_of_le (by omega)] at this
        calc (readPass r₁ data nbits).1.toNat < 2 ^ taken * (data.toNat + 1) := by
              rw [value₁, Nat.mul_add, Nat.mul_one]; omega
          _ ≤ 2 ^ taken * 2 ^ (64 - nbits) := Nat.mul_le_mul_left _ room
          _ = 2 ^ (64 - (nbits - taken)) := by rw [← Nat.pow_add]; congr 1; omega
      have left₁ : nbits - taken ≤ (readPass r₁ data nbits).2.bits.length := by
        rw [bits₁, List.length_drop]; omega
      obtain ⟨value, r', loop, valueEq, valid', bits'⟩ :=
        ih _ _ _ offset₁ left₁ (by omega) room₁ (by omega)
      refine ⟨value, r', by rw [refilled]; exact loop, ?_, valid', ?_⟩
      · -- the bits of this pass come first, then those of the rest of the loop
        have rest : ((r₁.bits.drop taken).take (nbits - taken)).length = nbits - taken := by
          rw [List.length_take_of_le (by rw [List.length_drop]; omega)]
        have whole : r₁.bits.take nbits = r₁.bits.take taken ++ (r₁.bits.drop taken).take (nbits - taken) := by
          rw [← List.take_add, Nat.add_sub_cancel' takenLe]
        rw [valueEq, value₁, bits₁, ← same, whole, ofBits_append, rest, Nat.mul_add, ← Nat.mul_assoc,
          ← Nat.pow_add, Nat.sub_add_cancel takenLe, Nat.add_assoc, Nat.mul_comm (ofBits _)]
      · rw [bits', bits₁, same, List.drop_drop, Nat.add_sub_cancel' takenLe]
    · obtain rfl : nbits = 0 := by omega
      exact ⟨data, r, rfl, by simp, valid, rfl⟩

theorem read_spec {r : BitStreamReader} (valid : r.offset ≤ 8) {nbits : ℕ} (below64 : nbits ≤ 64)
    (left : nbits ≤ r.bits.length) :
    ∃ value r', r.read nbits = .ok (value, r') ∧ value.toNat = ofBits (r.bits.take nbits) ∧
      r'.offset ≤ 8 ∧ r'.bits = r.bits.drop nbits := by
  obtain ⟨value, r', loop, valueEq, valid', bits'⟩ :=
    readLoop_spec nbits r 0 nbits valid left le_rfl (by simp) below64
  refine ⟨value, r', ?_, by simpa using valueEq, valid', bits'⟩
  rw [read, if_neg (by omega)]
  exact loop

end BitStreamReader

end Freycoin.Serialize
