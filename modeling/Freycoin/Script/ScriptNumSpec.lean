import Freycoin.Script.ScriptNum
import Freycoin.Library.SignMagnitude
import Freycoin.Library.MachineInt
import Freycoin.Serialize.VarInt

/-! What `CScriptNum` computes: `serialize` writes the shortest sign-magnitude form of its
value, `set_vch` reads the value of any form of at most eight bytes, and the minimality test
of the constructor accepts exactly the shortest forms. Since two shortest forms of one value
are equal, the strings the test accepts are exactly the ones `serialize` writes. -/

namespace Freycoin.Script

open LittleEndian SignMagnitude Freycoin.Serialize

section Words

theorem pushBytes_eq (fuel : ℕ) (absvalue : UInt64) (fits : absvalue.toNat < 256 ^ fuel) :
    pushBytes fuel absvalue = minimalBytes absvalue.toNat := by
  induction fuel generalizing absvalue with
  | zero =>
      have zero : absvalue.toNat = 0 := by simpa using fits
      simp [pushBytes, zero, minimalBytes]
  | succ fuel ih =>
      by_cases zero : absvalue = 0
      · simp [pushBytes, zero, minimalBytes]
      · have positive : 0 < absvalue.toNat := by
          rw [Nat.pos_iff_ne_zero, Ne, ← UInt64.toNat_zero, UInt64.toNat_inj]
          exact zero
        have low : (absvalue &&& 0xff).toUInt8 = UInt8.ofNat absvalue.toNat := by
          apply UInt8.toNat.inj
          have mask : (0xff : UInt64).toNat = 2 ^ 8 - 1 := rfl
          rw [UInt64.toNat_toUInt8, UInt64.toNat_and, toNat_byte, mask,
            Nat.and_two_pow_sub_one_eq_mod, Nat.mod_mod]
        have high : (absvalue >>> 8).toNat = absvalue.toNat / 256 := by
          rw [UInt64.toNat_shiftRight, Nat.shiftRight_eq_div_pow]
          rfl
        have rest : (absvalue >>> 8).toNat < 256 ^ fuel := by
          rw [high, Nat.div_lt_iff_lt_mul (by norm_num), ← pow_succ]
          exact fits
        rw [pushBytes, if_neg zero, low, ih _ rest, high, minimalBytes_of_pos positive]

theorem absvalue_toNat (value : Int64) :
    (if decide (value < 0) = true then ~~~value.toUInt64 + 1 else value.toUInt64).toNat =
      value.toInt.natAbs := by
  have bits := MachineInt.toNat_toUInt64 value
  have low := Int64.le_toInt value
  have high := Int64.toInt_lt value
  by_cases negative : value < 0
  · rw [Int64.lt_iff_toInt_lt, Int64.toInt_zero] at negative
    simp only [Int64.lt_iff_toInt_lt, Int64.toInt_zero, negative, decide_true, if_true,
      UInt64.toNat_add, UInt64.toNat_not, UInt64.size, UInt64.toNat_one]
    omega
  · rw [Int64.lt_iff_toInt_lt, Int64.toInt_zero] at negative
    simp only [Int64.lt_iff_toInt_lt, Int64.toInt_zero, negative, decide_false,
      Bool.false_eq_true, if_false]
    omega

theorem shiftedByte_toNat (byte : UInt8) {i : ℕ} (inside : i < 8) :
    (byte.toUInt64.toInt64 <<< Int64.ofNat (8 * i)).toUInt64.toNat = byte.toNat * 2 ^ (8 * i) := by
  have amount : (Int64.ofNat (8 * i)).toBitVec.smod 64 = BitVec.ofNat 64 (8 * i) := by
    interval_cases i <;> decide
  have fits : byte.toNat * 2 ^ (8 * i) < 2 ^ 64 := by
    calc byte.toNat * 2 ^ (8 * i) < 2 ^ 8 * 2 ^ (8 * i) :=
          Nat.mul_lt_mul_of_pos_right byte.toNat_lt (Nat.two_pow_pos _)
      _ = 2 ^ (8 + 8 * i) := by rw [pow_add]
      _ ≤ 2 ^ 64 := Nat.pow_le_pow_right (by norm_num) (by omega)
  rw [← UInt64.toNat_toBitVec, Int64.toBitVec_toUInt64, Int64.toBitVec_shiftLeft, amount,
    BitVec.shiftLeft_eq', BitVec.toNat_shiftLeft, UInt64.toBitVec_toInt64, UInt64.toNat_toBitVec,
    UInt8.toNat_toUInt64, BitVec.toNat_ofNat, Nat.shiftLeft_eq,
    Nat.mod_eq_of_lt (by omega : 8 * i < 2 ^ 64), Nat.mod_eq_of_lt fits]

theorem setVchLoop_toNat (vch : List UInt8) :
    ∀ (i : ℕ) (result : Int64), result.toUInt64.toNat < 2 ^ (8 * i) → i + vch.length ≤ 8 →
      (setVchLoop vch i result).toUInt64.toNat =
        result.toUInt64.toNat + 2 ^ (8 * i) * leValue vch := by
  induction vch with
  | nil =>
      intro i result _ _
      simp [setVchLoop]
  | cons byte vch ih =>
      intro i result below fits
      have inside : i < 8 := by
        simp only [List.length_cons] at fits
        omega
      have step : (result ||| byte.toUInt64.toInt64 <<< Int64.ofNat (8 * i)).toUInt64.toNat =
          result.toUInt64.toNat + 2 ^ (8 * i) * byte.toNat := by
        change (result.toUInt64 ||| (byte.toUInt64.toInt64 <<< Int64.ofNat (8 * i)).toUInt64).toNat = _
        rw [UInt64.toNat_or, shiftedByte_toNat byte inside, Nat.mul_comm, Nat.lor_comm,
          ← Nat.two_pow_add_eq_or_of_lt below, Nat.add_comm]
      have stepBelow : result.toUInt64.toNat + 2 ^ (8 * i) * byte.toNat < 2 ^ (8 * (i + 1)) := by
        have : 2 ^ (8 * i) * byte.toNat + 2 ^ (8 * i) ≤ 2 ^ (8 * i) * 2 ^ 8 := by
          rw [← Nat.mul_succ]
          exact Nat.mul_le_mul_left _ byte.toNat_lt
        rw [Nat.mul_succ, pow_add]
        omega
      rw [setVchLoop, ih (i + 1) _ (by rw [step]; exact stepBelow)
        (by simp only [List.length_cons] at fits; omega), step, leValue_cons, Nat.mul_succ,
        pow_add]
      ring

theorem signMask_toNat {s : ℕ} (inside : s < 8) :
    (~~~((0x80 : UInt64) <<< UInt64.ofNat (8 * s))).toNat = 2 ^ 64 - (2 ^ (8 * s + 7) + 1) := by
  interval_cases s <;> decide

theorem toNat_or_sign (top : UInt8) (low : top.toNat < 128) (neg : Prop) [Decidable neg] :
    (top ||| if neg then 0x80 else 0).toNat = top.toNat + if neg then 128 else 0 := by
  by_cases negative : neg
  · have byte : (0x80 : UInt8).toNat = 128 := rfl
    have sum := Nat.two_pow_add_eq_or_of_lt (i := 7) (b := top.toNat) low 1
    norm_num at sum
    rw [if_pos negative, if_pos negative, UInt8.toNat_or, byte, Nat.lor_comm, ← sum]
    omega
  · simp [negative]

end Words

section Serialize

theorem serialize_cases (value : Int64) (nonzero : value ≠ 0) :
    ∃ front top, minimalBytes value.toInt.natAbs = front ++ [top] ∧ 0 < top.toNat ∧
      (128 ≤ top.toNat ∧
          CScriptNum.serialize value = (front ++ [top]) ++ [if value < 0 then 0x80 else 0] ∨
        top.toNat < 128 ∧
          CScriptNum.serialize value = front ++ [top ||| if value < 0 then 0x80 else 0]) := by
  have positive : 0 < value.toInt.natAbs := by
    rw [Int.natAbs_pos, Ne, ← Int64.toInt_zero, Int64.toInt_inj]
    exact nonzero
  have fits : value.toInt.natAbs < 256 ^ 8 := by
    have low := Int64.le_toInt value
    have high := Int64.toInt_lt value
    omega
  have digits : pushBytes 8 (if decide (value < 0) = true then ~~~value.toUInt64 + 1
      else value.toUInt64) = minimalBytes value.toInt.natAbs := by
    rw [pushBytes_eq 8 _ (by rw [absvalue_toNat]; exact fits), absvalue_toNat]
  obtain ⟨front, top, split, nonzeroTop⟩ := minimalBytes_eq_concat positive
  refine ⟨front, top, split, nonzeroTop, ?_⟩
  simp only [CScriptNum.serialize, if_neg nonzero, digits, split, List.getLastD_concat,
    List.dropLast_concat]
  by_cases high : top &&& 0x80 ≠ 0
  · left
    refine ⟨(continues_iff top).mp high, ?_⟩
    rw [if_pos high]
    simp
  · right
    refine ⟨not_le.mp (mt (continues_iff top).mpr high), ?_⟩
    rw [if_neg high]
    by_cases negative : value < 0 <;> simp [negative]

theorem signed_natAbs (value : Int64) :
    (if value < 0 then -(value.toInt.natAbs : ℤ) else (value.toInt.natAbs : ℤ)) = value.toInt := by
  by_cases negative : value < 0
  · rw [if_pos negative]
    rw [Int64.lt_iff_toInt_lt, Int64.toInt_zero] at negative
    omega
  · rw [if_neg negative]
    rw [Int64.lt_iff_toInt_lt, Int64.toInt_zero] at negative
    omega

theorem value_serialize (value : Int64) :
    SignMagnitude.value (CScriptNum.serialize value) = value.toInt := by
  by_cases zero : value = 0
  · simp [zero, CScriptNum.serialize]
  obtain ⟨front, top, split, _, ⟨high, written⟩ | ⟨low, written⟩⟩ := serialize_cases value zero
  all_goals
    have absolute : leValue (front ++ [top]) = value.toInt.natAbs := by
      rw [← split, leValue_minimalBytes]
    rw [written, value_append_singleton, ← signed_natAbs value, ← absolute]
  · -- the sign byte carries only the sign
    have signByte : (if value < 0 then (0x80 : UInt8) else 0).toNat =
        if value < 0 then 128 else 0 := by
      split_ifs <;> rfl
    rw [signByte]
    by_cases negative : value < 0 <;> simp [negative]
  · -- the sign ORed into a top byte below `0x80`
    rw [toNat_or_sign top low, leValue_append_singleton]
    by_cases negative : value < 0 <;> simp [negative, Nat.mod_eq_of_lt low, not_le.mpr low]

theorem shortest_serialize (value : Int64) : Shortest (CScriptNum.serialize value) := by
  by_cases zero : value = 0
  · left
    simp [zero, CScriptNum.serialize]
  obtain ⟨front, top, _, positive, ⟨high, written⟩ | ⟨low, written⟩⟩ := serialize_cases value zero
  · rw [written, shortest_append_singleton_iff, List.getLastD_concat]
    exact Or.inr high
  · rw [written, shortest_append_singleton_iff, toNat_or_sign top low]
    left
    split_ifs <;> omega

end Serialize

section Decode

theorem setVch_toInt (vch : List UInt8) (short : vch.length ≤ 8) :
    (CScriptNum.setVch vch).toInt = SignMagnitude.value vch := by
  rcases List.eq_nil_or_concat vch with empty | ⟨front, top, rfl⟩
  · simp [empty, CScriptNum.setVch]
  rw [List.concat_eq_append] at short ⊢
  have frontShort : front.length < 8 := by
    simp only [List.length_append, List.length_singleton] at short
    omega
  have loop := setVchLoop_toNat (front ++ [top]) 0 0 (by decide) (by simpa using short)
  rw [leValue_append_singleton] at loop
  have zeroWord : (0 : Int64).toUInt64.toNat = 0 := rfl
  simp only [Nat.mul_zero, pow_zero, Nat.one_mul, zeroWord, Nat.zero_add] at loop
  have bound := magnitude_lt (front ++ [top])
  rw [magnitude_append_singleton, signPosition_append_singleton] at bound
  have sign : 2 ^ (8 * front.length + 7) ≤ 2 ^ 63 := Nat.pow_le_pow_right (by norm_num) (by omega)
  rw [CScriptNum.setVch, if_neg (by simp), value_append_singleton, List.getLastD_concat]
  simp only [List.length_append, List.length_singleton, Nat.add_sub_cancel]
  by_cases high : top &&& 0x80 ≠ 0
  · -- the mask clears the sign bit, and what is left is negated
    have masked : ((setVchLoop (front ++ [top]) 0 0).toUInt64 &&&
        ~~~((0x80 : UInt64) <<< UInt64.ofNat (8 * front.length))).toNat =
          leValue front + 2 ^ (8 * front.length) * (top.toNat % 128) := by
      rw [UInt64.toNat_and, loop, signMask_toNat frontShort, Nat.add_comm,
        and_clear_sign (leValue_lt_two_pow front) top.toNat_lt (by omega), Nat.add_comm]
      rfl
    have word : ((setVchLoop (front ++ [top]) 0 0).toUInt64 &&&
        ~~~((0x80 : UInt64) <<< UInt64.ofNat (8 * front.length))).toInt64.toInt =
          ((leValue front + 2 ^ (8 * front.length) * (top.toNat % 128) : ℕ) : ℤ) := by
      rw [MachineInt.toInt_toInt64_of_lt (by omega), masked]
    rw [if_pos high, if_pos ((continues_iff top).mp high)]
    exact MachineInt.toInt_neg_eq word (by omega) (by omega)
  · have low : top.toNat < 128 := not_le.mp (mt (continues_iff top).mpr high)
    rw [if_neg high, if_neg (not_le.mpr low), Nat.mod_eq_of_lt low,
      ← Int64.toInt64_toUInt64 (setVchLoop (front ++ [top]) 0 0),
      MachineInt.toInt_toInt64_of_lt (by rw [loop]; rw [Nat.mod_eq_of_lt low] at bound; omega),
      loop]

theorem nonMinimal_iff (front : List UInt8) (top : UInt8) :
    (top &&& 0x7f = 0 ∧ ((front ++ [top]).length ≤ 1 ∨
        (front ++ [top]).getD ((front ++ [top]).length - 2) 0 &&& 0x80 = 0)) ↔
      ¬Shortest (front ++ [top]) := by
  have topTest : top &&& 0x7f = 0 ↔ top.toNat % 128 = 0 := by
    rw [← UInt8.toNat_inj, low7]
    rfl
  rw [shortest_append_singleton_iff, topTest]
  rcases List.eq_nil_or_concat front with empty | ⟨rest, below, rfl⟩
  · simp [empty]
  · rw [List.concat_eq_append, List.getLastD_concat]
    have second : (rest ++ [below] ++ [top]).getD ((rest ++ [below] ++ [top]).length - 2) 0 =
        below := by
      simp [List.getD_eq_getElem?_getD]
    have twoBytes : ¬(rest ++ [below] ++ [top]).length ≤ 1 := by simp
    have belowTest : below &&& 0x80 = 0 ↔ ¬128 ≤ below.toNat := by
      rw [← continues_iff, not_not]
    rw [second, belowTest]
    simp only [twoBytes, false_or]
    omega

theorem ofVch_eq (vch : List UInt8) (fRequireMinimal : Bool) {nMaxNumSize : ℕ}
    (fits : vch.length ≤ nMaxNumSize) :
    CScriptNum.ofVch vch fRequireMinimal nMaxNumSize =
      if fRequireMinimal ∧ ¬Shortest vch then .error "non-minimally encoded script number"
      else .ok ⟨CScriptNum.setVch vch⟩ := by
  rcases List.eq_nil_or_concat vch with rfl | ⟨front, top, rfl⟩
  · simp [CScriptNum.ofVch, Shortest]
  · rw [List.concat_eq_append] at fits ⊢
    rw [CScriptNum.ofVch, if_neg (not_lt.mpr fits)]
    apply if_congr _ rfl rfl
    have nonempty : 0 < (front ++ [top]).length := by simp
    rw [← nonMinimal_iff]
    simp only [Bool.and_eq_true, Bool.or_eq_true, decide_eq_true_eq, List.getLastD_concat,
      nonempty, and_true]
    tauto

theorem shortest_iff_eq_serialize (vch : List UInt8) (short : vch.length ≤ 8) :
    Shortest vch ↔ vch = CScriptNum.serialize (CScriptNum.setVch vch) := by
  constructor
  · intro shortest
    apply eq_of_shortest shortest (shortest_serialize _)
    rw [value_serialize, setVch_toInt vch short]
  · intro written
    rw [written]
    exact shortest_serialize _

theorem getvch_of_ofVch {vch : List UInt8} {nMaxNumSize : ℕ} {num : CScriptNum}
    (wide : nMaxNumSize ≤ 8) (accepted : CScriptNum.ofVch vch true nMaxNumSize = .ok num) :
    num.getvch = vch := by
  have fits : vch.length ≤ nMaxNumSize := by
    by_contra overflow
    simp [CScriptNum.ofVch, not_le.mp overflow] at accepted
  rw [ofVch_eq vch true fits] at accepted
  by_cases shortest : Shortest vch
  · simp only [shortest, not_true_eq_false, and_false, if_false, Except.ok.injEq] at accepted
    rw [← accepted, CScriptNum.getvch]
    exact ((shortest_iff_eq_serialize vch (by omega)).mp shortest).symm
  · simp [shortest] at accepted

end Decode

/-- Script numbers of up to eight bytes have one shortest encoding. `serialize` writes a value
below the sign bit of `k` bytes in at most `k` bytes, and the constructor reads it back; the
constructor refuses a string as non-minimal exactly when it is not what `serialize` writes for
its value; and without the minimality test every string reads as its sign-magnitude value, so
the negative zeros read as zero. -/
theorem scriptNum_encoding_is_unique_shortest_form :
    (∀ k, 1 ≤ k → k ≤ 8 → ∀ n : Int64, n.toInt.natAbs < 2 ^ (8 * k - 1) →
      (CScriptNum.serialize n).length ≤ k ∧
        CScriptNum.ofVch (CScriptNum.serialize n) true k = .ok ⟨n⟩) ∧
    (∀ k, 1 ≤ k → k ≤ 8 → ∀ v : List UInt8, v.length ≤ k →
      ∃ num, CScriptNum.ofVch v false k = .ok num ∧
        (CScriptNum.ofVch v true k = .error "non-minimally encoded script number" ↔
          v ≠ CScriptNum.serialize num.getInt64) ∧
        num.getInt64.toInt = SignMagnitude.value v) ∧
    (∀ k m, 1 ≤ k → k ≤ 8 → m + 1 ≤ k →
      ∃ num, CScriptNum.ofVch (List.replicate m 0 ++ [0x80]) false k = .ok num ∧
        num.getInt64 = 0) := by
  refine ⟨?_, ?_, ?_⟩
  · intro k _ wide n small
    have short : (CScriptNum.serialize n).length ≤ k := by
      apply length_le_of_shortest (shortest_serialize n)
      rw [← natAbs_value, value_serialize]
      exact small
    have readBack : CScriptNum.setVch (CScriptNum.serialize n) = n := by
      rw [← Int64.toInt_inj, setVch_toInt _ (by omega), value_serialize]
    refine ⟨short, ?_⟩
    rw [ofVch_eq _ true short, if_neg (fun refused => refused.2 (shortest_serialize n)), readBack]
  · intro k _ wide v short
    refine ⟨⟨CScriptNum.setVch v⟩, by rw [ofVch_eq v false short]; simp, ?_,
      setVch_toInt v (by omega)⟩
    rw [ofVch_eq v true short, CScriptNum.getInt64]
    dsimp only
    rw [ne_eq, ← shortest_iff_eq_serialize v (by omega)]
    by_cases shortest : Shortest v <;> simp [shortest]
  · intro k m _ wide fits
    have short : (List.replicate m (0 : UInt8) ++ [0x80]).length ≤ k := by simpa using fits
    refine ⟨⟨CScriptNum.setVch (List.replicate m 0 ++ [0x80])⟩,
      by rw [ofVch_eq _ false short]; simp, ?_⟩
    rw [CScriptNum.getInt64, ← Int64.toInt_inj, setVch_toInt _ (by omega), value_append_singleton]
    simp [leValue]

theorem scriptNum_minus_255_round_trip :
    (CScriptNum.serialize (-255)).length ≤ 2 ∧
      CScriptNum.ofVch (CScriptNum.serialize (-255)) true 2 = .ok ⟨-255⟩ :=
  scriptNum_encoding_is_unique_shortest_form.1 2 (by decide) (by decide) (-255) (by decide)

end Freycoin.Script
