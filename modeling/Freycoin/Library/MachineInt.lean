import Mathlib.Tactic.NormNum
import Mathlib.Order.Compare

/-! Lean's fixed-width integers read as integers. -/

namespace MachineInt

section Casts

theorem toNat_toUInt64 (x : Int64) : (x.toUInt64.toNat : ℤ) = x.toInt % 2 ^ 64 := by
  have wrap := Int.bmod_emod (x := (x.toBitVec.toNat : ℤ)) (m := 2 ^ 64)
  rw [← Int64.toInt_toBitVec, BitVec.toInt_eq_toNat_bmod, Int64.toNat_toBitVec] at *
  simp only [Nat.cast_pow, Nat.cast_ofNat] at wrap
  rw [wrap, Int.emod_eq_of_lt (by omega) (by exact_mod_cast x.toUInt64.toNat_lt)]

theorem toNat_toUInt32 (x : Int32) : (x.toUInt32.toNat : ℤ) = x.toInt % 2 ^ 32 := by
  have wrap := Int.bmod_emod (x := (x.toBitVec.toNat : ℤ)) (m := 2 ^ 32)
  rw [← Int32.toInt_toBitVec, BitVec.toInt_eq_toNat_bmod, Int32.toNat_toBitVec] at *
  simp only [Nat.cast_pow, Nat.cast_ofNat] at wrap
  rw [wrap, Int.emod_eq_of_lt (by omega) (by exact_mod_cast x.toUInt32.toNat_lt)]

theorem toInt_toInt64 (x : UInt64) : x.toInt64.toInt = (x.toNat : ℤ).bmod (2 ^ 64) := by
  rw [← Int64.toInt_toBitVec, BitVec.toInt_eq_toNat_bmod, UInt64.toBitVec_toInt64]
  rfl

theorem toInt_toInt64_of_lt {x : UInt64} (small : x.toNat < 2 ^ 63) :
    x.toInt64.toInt = x.toNat := by
  rw [toInt_toInt64, Int.bmod_eq_of_le] <;> omega

theorem toNat_toUInt32_of_int64 (x : Int64) :
    (x.toUInt64.toUInt32.toNat : ℤ) = x.toInt % 2 ^ 32 := by
  rw [UInt64.toNat_toUInt32, Int.natCast_mod, toNat_toUInt64]
  push_cast
  exact Int.emod_emod_of_dvd _ (by norm_num)

end Casts

section Arithmetic

/-! Each operation on words whose values are known, where the exact result fits: the word the
operation returns has that result as its value. -/

variable {a b : Int64} {m n : ℤ}

theorem toInt_add_eq (ha : a.toInt = m) (hb : b.toInt = n) (low : -2 ^ 63 ≤ m + n)
    (high : m + n < 2 ^ 63) : (a + b).toInt = m + n := by
  rw [Int64.toInt_add, ha, hb, Int.bmod_eq_of_le] <;> omega

theorem toInt_neg_eq (ha : a.toInt = m) (low : -2 ^ 63 ≤ -m) (high : -m < 2 ^ 63) :
    (-a).toInt = -m := by
  rw [Int64.toInt_neg, ha, Int.bmod_eq_of_le] <;> omega

theorem toInt_sub_eq (ha : a.toInt = m) (hb : b.toInt = n) (low : -2 ^ 63 ≤ m - n)
    (high : m - n < 2 ^ 63) : (a - b).toInt = m - n := by
  rw [Int64.toInt_sub, ha, hb, Int.bmod_eq_of_le] <;> omega

theorem toInt_mul_eq (ha : a.toInt = m) (hb : b.toInt = n) (low : -2 ^ 63 ≤ m * n)
    (high : m * n < 2 ^ 63) : (a * b).toInt = m * n := by
  rw [Int64.toInt_mul, ha, hb, Int.bmod_eq_of_le] <;> omega

theorem toInt_div_eq (ha : a.toInt = m) (hb : b.toInt = n) (low : -2 ^ 63 ≤ m.tdiv n)
    (high : m.tdiv n < 2 ^ 63) : (a / b).toInt = m.tdiv n := by
  rw [Int64.toInt_div, ha, hb, Int.bmod_eq_of_le] <;> omega

theorem toInt_shiftRight_32 (x : Int64) : (x >>> 32).toInt = x.toInt / 2 ^ 32 := by
  rw [← Int64.toInt_toBitVec, Int64.toBitVec_shiftRight, BitVec.toInt_sshiftRight',
    show (32 : Int64).toBitVec.smod 64 = 32#64 by decide, Int.shiftRight_eq_div_pow,
    Int64.toInt_toBitVec]
  rfl

theorem toInt_shiftLeft_32 (x : Int64) : (x <<< 32).toInt = (x.toInt * 2 ^ 32).bmod (2 ^ 64) := by
  rw [← Int64.toInt_toBitVec, Int64.toBitVec_shiftLeft,
    show (32 : Int64).toBitVec.smod 64 = 32#64 by decide, BitVec.shiftLeft_eq',
    BitVec.toInt_shiftLeft, show (32#64).toNat = 32 from rfl, Nat.shiftLeft_eq, Nat.cast_mul,
    Int64.toNat_toBitVec, toNat_toUInt64]
  have wrap := Int.emod_mul_bmod (y := 2 ^ 32) x.toInt (2 ^ 64)
  push_cast at wrap ⊢
  exact wrap

theorem int32_toInt_add_eq {a b : Int32} (ha : a.toInt = m) (hb : b.toInt = n)
    (low : -2 ^ 31 ≤ m + n) (high : m + n < 2 ^ 31) : (a + b).toInt = m + n := by
  rw [Int32.toInt_add, ha, hb, Int.bmod_eq_of_le] <;> omega

theorem int32_toInt_sub_eq {a b : Int32} (ha : a.toInt = m) (hb : b.toInt = n)
    (low : -2 ^ 31 ≤ m - n) (high : m - n < 2 ^ 31) : (a - b).toInt = m - n := by
  rw [Int32.toInt_sub, ha, hb, Int.bmod_eq_of_le] <;> omega

theorem toInt_shiftLeft_32_eq {x : Int64} (hx : x.toInt = m) (low : -2 ^ 31 ≤ m)
    (high : m < 2 ^ 31) : (x <<< 32).toInt = m * 2 ^ 32 := by
  rw [toInt_shiftLeft_32, hx, Int.bmod_eq_of_le] <;> omega

end Arithmetic

section Compare

theorem compare_toInt (x y : Int64) : compare x y = compare x.toInt y.toInt := by
  show compareOfLessAndEq x y = compareOfLessAndEq x.toInt y.toInt
  simp only [compareOfLessAndEq, Int64.lt_iff_toInt_lt, ← Int64.toInt_inj]

theorem int32_compare_toInt (x y : Int32) : compare x y = compare x.toInt y.toInt := by
  show compareOfLessAndEq x y = compareOfLessAndEq x.toInt y.toInt
  simp only [compareOfLessAndEq, Int32.lt_iff_toInt_lt, ← Int32.toInt_inj]

theorem compare_toNat (x y : UInt32) : compare x y = compare (x.toNat : ℤ) y.toNat := by
  show compareOfLessAndEq x y = compareOfLessAndEq (x.toNat : ℤ) y.toNat
  simp only [compareOfLessAndEq, UInt32.lt_iff_toNat_lt, ← UInt32.toNat_inj, Int.ofNat_lt,
    Int.natCast_inj]

end Compare

end MachineInt
