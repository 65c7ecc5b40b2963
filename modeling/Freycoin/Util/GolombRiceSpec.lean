import Freycoin.Util.GolombRice
import Freycoin.Serialize.BitStreamSpec
import Freycoin.Library.PrefixCode

/-! The Golomb-Rice code as a string of bits: the quotient of `x` by `2 ^ P` in unary, closed by a
zero, then the `P` low bits of `x`. `GolombRiceEncode` appends it to what a writer stands for,
and `GolombRiceDecode` takes it off the front of what a reader has left, for `P` below 64. -/

namespace Freycoin.Util

open Freycoin.Serialize BitString PrefixCode

/-- The Golomb-Rice code of `x` with parameter `P`. -/
def riceCode (P x : ℕ) : List Bool := List.replicate (x / 2 ^ P) true ++ false :: msbBits P x

theorem toNat_shiftRight_param {P : UInt8} (small : P.toNat < 64) (x : UInt64) :
    (x >>> P.toUInt64).toNat = x.toNat / 2 ^ P.toNat := by
  rw [UInt64.toNat_shiftRight, UInt8.toNat_toUInt64, Nat.mod_eq_of_lt small, Nat.shiftRight_eq_div_pow]

section Encode

theorem toNat_allOnes : (~~~(0 : UInt64)).toNat = 2 ^ 64 - 1 := rfl

theorem writeUnary_spec : ∀ fuel (w : BitStreamWriter) (q : UInt64), w.Valid → q.toNat ≤ fuel →
    ∃ w', writeUnary fuel w q = .ok w' ∧ w'.Valid ∧ w'.bits = w.bits ++ List.replicate q.toNat true ∧
      w.out <+: w'.out := by
  intro fuel
  induction fuel with
  | zero =>
    intro w q valid none
    exact ⟨w, rfl, valid, by rw [show q.toNat = 0 by omega, List.replicate_zero, List.append_nil],
      List.prefix_refl _⟩
  | succ fuel ih =>
    intro w q valid enough
    by_cases positive : 0 < q
    · -- a pass writes `nbits` ones, at least one and at most 64
      set nbits := if q ≤ 64 then q.toNat else 64 with nbits_def
      have bounds : 0 < nbits ∧ nbits ≤ 64 ∧ nbits ≤ q.toNat := by
        rw [UInt64.lt_iff_toNat_lt] at positive
        rw [nbits_def]
        split_ifs with few
        · rw [UInt64.le_iff_toNat_le] at few
          exact ⟨positive, few, le_rfl⟩
        · rw [UInt64.le_iff_toNat_le] at few
          exact ⟨by decide, le_rfl, by simp at few ⊢; omega⟩
      obtain ⟨w₁, written, valid₁, bits₁, prefix₁⟩ := w.write_spec valid (~~~0) bounds.2.1
      have left : (q - nbits.toUInt64).toNat = q.toNat - nbits := by
        rw [UInt64.toNat_sub_of_le _ _ (by rw [UInt64.le_iff_toNat_le]; simp; omega)]
        simp; omega
      obtain ⟨w', loop, valid', bits', prefix'⟩ := ih w₁ (q - nbits.toUInt64) valid₁ (by omega)
      refine ⟨w', ?_, valid', ?_, prefix₁.trans prefix'⟩
      · rw [writeUnary, if_pos positive]
        show w.write (~~~0) nbits >>= (fun w => writeUnary fuel w (q - nbits.toUInt64)) = .ok w'
        rw [written, ok_bind, loop]
      · rw [bits', bits₁, toNat_allOnes, msbBits_two_pow_sub_one bounds.2.1, left, List.append_assoc,
          List.replicate_append_replicate, Nat.add_sub_cancel' bounds.2.2]
    · have zero : q.toNat = 0 := by simp at positive; simp [positive]
      exact ⟨w, by rw [writeUnary, if_neg positive], valid, by rw [zero]; simp, List.prefix_refl _⟩

theorem golombRiceEncode_spec {P : UInt8} (small : P.toNat < 64) (x : UInt64) {w : BitStreamWriter}
    (valid : w.Valid) :
    ∃ w', golombRiceEncode w P x = .ok w' ∧ w'.Valid ∧ w'.bits = w.bits ++ riceCode P.toNat x.toNat ∧
      w.out <+: w'.out := by
  have quotient := toNat_shiftRight_param small x
  obtain ⟨w₁, unary, valid₁, bits₁, prefix₁⟩ := writeUnary_spec _ w (x >>> P.toUInt64) valid le_rfl
  obtain ⟨w₂, stop, valid₂, bits₂, prefix₂⟩ := w₁.write_spec valid₁ 0 (show 1 ≤ 64 by decide)
  obtain ⟨w₃, remainder, valid₃, bits₃, prefix₃⟩ := w₂.write_spec valid₂ x (show P.toNat ≤ 64 by omega)
  refine ⟨w₃, ?_, valid₃, ?_, prefix₁.trans (prefix₂.trans prefix₃)⟩
  · rw [golombRiceEncode, unary, ok_bind, stop, ok_bind, remainder]
  · rw [bits₃, bits₂, bits₁, quotient, riceCode]
    simp [msbBits]

end Encode

section Decode

theorem readUnary_spec : ∀ fuel (r : BitStreamReader) (q : UInt64) (ones : ℕ) (rest : List Bool),
    r.offset ≤ 8 → r.bits = List.replicate ones true ++ false :: rest → ones < fuel →
    q.toNat + ones < 2 ^ 64 →
    ∃ value r', readUnary fuel r q = .ok (value, r') ∧ value.toNat = q.toNat + ones ∧
      r'.offset ≤ 8 ∧ r'.bits = rest := by
  intro fuel
  induction fuel with
  | zero => intro r q ones rest _ _ none; omega
  | succ fuel ih =>
    intro r q ones rest valid bits enough room
    have nonempty : 1 ≤ r.bits.length := by rw [bits]; simp; omega
    obtain ⟨bit, r₁, read, bitEq, valid₁, bits₁⟩ := BitStreamReader.read_spec valid (by decide) nonempty
    cases ones with
    | zero =>
      -- the first bit is the closing zero
      have zero : bit = 0 := by
        rw [bits] at bitEq
        exact UInt64.toNat_inj.mp (by simpa [ofBits] using bitEq)
      refine ⟨q, r₁, ?_, rfl, valid₁, by rw [bits₁, bits]; rfl⟩
      rw [readUnary, read, ok_bind]
      simp [zero]
    | succ ones =>
      have one : bit = 1 := by
        rw [bits] at bitEq
        exact UInt64.toNat_inj.mp (by simpa [ofBits, List.replicate_succ] using bitEq)
      have next : (q + 1).toNat = q.toNat + 1 := by
        rw [UInt64.toNat_add, UInt64.toNat_one, Nat.mod_eq_of_lt (by omega)]
      obtain ⟨value, r', loop, valueEq, valid', bits'⟩ :=
        ih r₁ (q + 1) ones rest valid₁ (by rw [bits₁, bits]; rfl) (by omega) (by omega)
      refine ⟨value, r', ?_, by omega, valid', bits'⟩
      rw [readUnary, read, ok_bind]
      simpa [one] using loop

theorem golombRiceDecode_spec {P : UInt8} (small : P.toNat < 64) (x : UInt64) {r : BitStreamReader}
    (valid : r.offset ≤ 8) {rest : List Bool} (code : r.bits = riceCode P.toNat x.toNat ++ rest) :
    ∃ r', golombRiceDecode r P = .ok (x, r') ∧ r'.offset ≤ 8 ∧ r'.bits = rest := by
  have long : x.toNat / 2 ^ P.toNat < r.bitsLeft + 1 := by
    rw [← r.length_bits, code, riceCode]
    simp only [List.length_append, List.length_replicate, List.length_cons, length_msbBits]
    omega
  have fits : 0 + x.toNat / 2 ^ P.toNat < 2 ^ 64 := by
    have := x.toNat_lt
    have := Nat.div_le_self x.toNat (2 ^ P.toNat)
    omega
  obtain ⟨q, r₁, unary, quotient, valid₁, bits₁⟩ :=
    readUnary_spec _ r 0 _ (msbBits P.toNat x.toNat ++ rest) valid (by rw [code, riceCode]; simp) long fits
  obtain ⟨remainder, r₂, read, remainderEq, valid₂, bits₂⟩ :=
    BitStreamReader.read_spec valid₁ (show P.toNat ≤ 64 by omega) (by rw [bits₁]; simp)
  have low : remainder.toNat = x.toNat % 2 ^ P.toNat := by
    rw [remainderEq, bits₁, List.take_left' (length_msbBits _ _), ofBits_msbBits]
  refine ⟨r₂, ?_, valid₂, by rw [bits₂, bits₁, List.drop_left' (length_msbBits _ _)]⟩
  -- the quotient shifted back up, plus the remainder, is `x`
  have whole : (q <<< P.toUInt64) + remainder = x := by
    have within : x.toNat / 2 ^ P.toNat * 2 ^ P.toNat < 2 ^ 64 :=
      lt_of_le_of_lt (Nat.div_mul_le_self _ _) x.toNat_lt
    apply UInt64.toNat_inj.mp
    rw [UInt64.toNat_add, UInt64.toNat_shiftLeft, UInt8.toNat_toUInt64, Nat.mod_eq_of_lt small, quotient,
      UInt64.toNat_zero, Nat.zero_add, Nat.shiftLeft_eq, Nat.mod_eq_of_lt within, low, Nat.div_add_mod', Nat.mod_eq_of_lt x.toNat_lt]
  rw [golombRiceDecode, unary, ok_bind]
  simp only [read, ok_bind, whole]
  rfl

end Decode

/-- Decoding what `GolombRiceEncode` wrote gives the value back, whatever was written before it
and whatever follows it. -/
theorem golombRice_roundTrip {P : UInt8} (small : P.toNat < 64) (x : UInt64) {bitwriter : BitStreamWriter}
    (valid : bitwriter.Valid) :
    ∃ written, golombRiceEncode bitwriter P x = .ok written ∧ written.Valid ∧
      ∃ code, written.bits = bitwriter.bits ++ code ∧
        ∀ (bitreader : BitStreamReader) rest, bitreader.offset ≤ 8 → bitreader.bits = code ++ rest →
          ∃ left, golombRiceDecode bitreader P = .ok (x, left) ∧ left.bits = rest := by
  obtain ⟨written, encoded, valid', bits', -⟩ := golombRiceEncode_spec small x valid
  refine ⟨written, encoded, valid', riceCode P.toNat x.toNat, bits', ?_⟩
  intro bitreader rest validReader code
  obtain ⟨left, decoded, -, leftBits⟩ := golombRiceDecode_spec small x validReader code
  exact ⟨left, decoded, leftBits⟩

theorem golombRice_roundTrip_basic :
    ∃ written, golombRiceEncode (BitStreamWriter.init []) 19 1000000 = .ok written ∧ written.Valid ∧
      ∃ code, written.bits = (BitStreamWriter.init []).bits ++ code ∧
        ∀ (bitreader : BitStreamReader) rest, bitreader.offset ≤ 8 → bitreader.bits = code ++ rest →
          ∃ left, golombRiceDecode bitreader 19 = .ok (1000000, left) ∧ left.bits = rest :=
  golombRice_roundTrip (by decide) 1000000 (BitStreamWriter.valid_init [])

end Freycoin.Util
