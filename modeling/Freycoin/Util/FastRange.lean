import Freycoin.Library.WideDivision

/-! `FastRange32` and `FastRange64` of `util/fastrange.h`: the high half of the product `x * n`,
a number below `n` for `n` above zero.

Both bodies of `FastRange64` are kept, the `unsigned __int128` one and the one on 32-bit halves. -/

namespace Freycoin.Util

/-- `FastRange32(x, n)`: the product in 64 bits, shifted down by 32. -/
def fastRange32 (x n : UInt32) : UInt32 := ((x.toUInt64 * n.toUInt64) >>> 32).toUInt32

/-- `FastRange64(x, n)` where `__SIZEOF_INT128__` is defined: the product in 128 bits, shifted
down by 64. -/
def fastRange64 (x n : UInt64) : UInt64 :=
  UInt64.ofBitVec (((x.toBitVec.setWidth 128 * n.toBitVec.setWidth 128) >>> 64).setWidth 64)

/-- `FastRange64(x, n)` without `unsigned __int128`: the most and least significant 32 bits of
each operand multiplied piece-wise. -/
def fastRange64Portable (x n : UInt64) : UInt64 :=
  let xHi := x >>> 32
  let xLo := x &&& 0xFFFFFFFF
  let nHi := n >>> 32
  let nLo := n &&& 0xFFFFFFFF
  let ac := xHi * nHi
  let ad := xHi * nLo
  let bc := xLo * nHi
  let bd := xLo * nLo
  let mid34 := (bd >>> 32) + (bc &&& 0xFFFFFFFF) + (ad &&& 0xFFFFFFFF)
  let upper64 := ac + (bc >>> 32) + (ad >>> 32) + (mid34 >>> 32)
  upper64

theorem toNat_fastRange64 (x n : UInt64) : (fastRange64 x n).toNat = x.toNat * n.toNat / 2 ^ 64 := by
  have product : x.toNat * n.toNat < 2 ^ 128 :=
    calc x.toNat * n.toNat < 2 ^ 64 * 2 ^ 64 := Nat.mul_lt_mul'' x.toNat_lt n.toNat_lt
      _ = 2 ^ 128 := by norm_num
  have high : x.toNat * n.toNat / 2 ^ 64 < 2 ^ 64 := Nat.div_lt_of_lt_mul (by simpa using product)
  show (((x.toBitVec.setWidth 128 * n.toBitVec.setWidth 128) >>> 64).setWidth 64).toNat = _
  rw [BitVec.toNat_setWidth, BitVec.toNat_ushiftRight, BitVec.toNat_mul, BitVec.toNat_setWidth,
    BitVec.toNat_setWidth, UInt64.toNat_toBitVec, UInt64.toNat_toBitVec,
    Nat.mod_eq_of_lt (x.toNat_lt.trans (by norm_num)), Nat.mod_eq_of_lt (n.toNat_lt.trans (by norm_num)),
    Nat.mod_eq_of_lt product, Nat.shiftRight_eq_div_pow, Nat.mod_eq_of_lt high]

section Portable

/-! The words of the portable body stay below `2 ^ 64`: the halves are below `2 ^ 32`, their
products fit, and the sums are at most the high half of the product. -/

theorem toNat_shiftRight_32 (v : UInt64) : (v >>> 32).toNat = v.toNat / 2 ^ 32 := by
  rw [UInt64.toNat_shiftRight, show (32 : UInt64).toNat % 64 = 32 from rfl, Nat.shiftRight_eq_div_pow]

theorem toNat_and_low (v : UInt64) : (v &&& 0xFFFFFFFF).toNat = v.toNat % 2 ^ 32 := by
  rw [UInt64.toNat_and, show (0xFFFFFFFF : UInt64).toNat = 2 ^ 32 - 1 from rfl, Nat.and_two_pow_sub_one_eq_mod]

theorem toNat_mul_halves {a b : UInt64} (ha : a.toNat < 2 ^ 32) (hb : b.toNat < 2 ^ 32) :
    (a * b).toNat = a.toNat * b.toNat := by
  have fits : a.toNat * b.toNat < 2 ^ 64 :=
    calc a.toNat * b.toNat < 2 ^ 32 * 2 ^ 32 := Nat.mul_lt_mul'' ha hb
      _ = 2 ^ 64 := by norm_num
  rw [UInt64.toNat_mul, Nat.mod_eq_of_lt fits]

theorem toNat_add_of_lt {a b : UInt64} (fits : a.toNat + b.toNat < 2 ^ 64) :
    (a + b).toNat = a.toNat + b.toNat := by
  rw [UInt64.toNat_add, Nat.mod_eq_of_lt fits]

theorem toNat_upper64 {ac ad bc bd : UInt64}
    (fits : ac.toNat + bc.toNat / 2 ^ 32 + ad.toNat / 2 ^ 32 +
      (bd.toNat / 2 ^ 32 + bc.toNat % 2 ^ 32 + ad.toNat % 2 ^ 32) / 2 ^ 32 < 2 ^ 64) :
    (ac + (bc >>> 32) + (ad >>> 32) + (((bd >>> 32) + (bc &&& 0xFFFFFFFF) + (ad &&& 0xFFFFFFFF)) >>> 32)).toNat =
      ac.toNat + bc.toNat / 2 ^ 32 + ad.toNat / 2 ^ 32 +
        (bd.toNat / 2 ^ 32 + bc.toNat % 2 ^ 32 + ad.toNat % 2 ^ 32) / 2 ^ 32 := by
  have bdHigh : bd.toNat / 2 ^ 32 < 2 ^ 32 := Nat.div_lt_of_lt_mul (by simpa using bd.toNat_lt)
  have bcLow := Nat.mod_lt bc.toNat (Nat.two_pow_pos 32)
  have adLow := Nat.mod_lt ad.toNat (Nat.two_pow_pos 32)
  have bdHi : (bd >>> 32 + (bc &&& 0xFFFFFFFF)).toNat = bd.toNat / 2 ^ 32 + bc.toNat % 2 ^ 32 := by
    rw [toNat_add_of_lt (by rw [toNat_shiftRight_32, toNat_and_low]; omega), toNat_shiftRight_32, toNat_and_low]
  have mid34 : ((bd >>> 32) + (bc &&& 0xFFFFFFFF) + (ad &&& 0xFFFFFFFF)).toNat =
      bd.toNat / 2 ^ 32 + bc.toNat % 2 ^ 32 + ad.toNat % 2 ^ 32 := by
    rw [toNat_add_of_lt (by rw [bdHi, toNat_and_low]; omega), bdHi, toNat_and_low]
  have acBc : (ac + (bc >>> 32)).toNat = ac.toNat + bc.toNat / 2 ^ 32 := by
    rw [toNat_add_of_lt (by rw [toNat_shiftRight_32]; omega), toNat_shiftRight_32]
  have acBcAd : (ac + (bc >>> 32) + (ad >>> 32)).toNat = ac.toNat + bc.toNat / 2 ^ 32 + ad.toNat / 2 ^ 32 := by
    rw [toNat_add_of_lt (by rw [acBc, toNat_shiftRight_32]; omega), acBc, toNat_shiftRight_32]
  rw [toNat_add_of_lt (by rw [acBcAd, toNat_shiftRight_32, mid34]; omega), acBcAd, toNat_shiftRight_32, mid34]

theorem toNat_fastRange64Portable (x n : UInt64) :
    (fastRange64Portable x n).toNat = x.toNat * n.toNat / 2 ^ 64 := by
  have half : ∀ v : UInt64, v.toNat / 2 ^ 32 < 2 ^ 32 := fun v =>
    Nat.div_lt_of_lt_mul (by simpa using v.toNat_lt)
  have low : ∀ v : UInt64, v.toNat % 2 ^ 32 < 2 ^ 32 := fun v => Nat.mod_lt _ (Nat.two_pow_pos 32)
  -- the four products of halves
  have ac := toNat_mul_halves (by rw [toNat_shiftRight_32]; exact half x) (by rw [toNat_shiftRight_32]; exact half n)
  have ad := toNat_mul_halves (by rw [toNat_shiftRight_32]; exact half x) (by rw [toNat_and_low]; exact low n)
  have bc := toNat_mul_halves (by rw [toNat_and_low]; exact low x) (by rw [toNat_shiftRight_32]; exact half n)
  have bd := toNat_mul_halves (by rw [toNat_and_low]; exact low x) (by rw [toNat_and_low]; exact low n)
  simp only [toNat_shiftRight_32, toNat_and_low] at ac ad bc bd
  -- the high part of the product, column by column
  have schoolbook := WideDivision.mul_div_sq_of_parts (Nat.two_pow_pos 32) (x.toNat / 2 ^ 32)
    (x.toNat % 2 ^ 32) (n.toNat / 2 ^ 32) (n.toNat % 2 ^ 32)
  rw [Nat.div_add_mod, Nat.div_add_mod, ← Nat.pow_add, show 32 + 32 = 64 from rfl] at schoolbook
  have bound : x.toNat * n.toNat / 2 ^ 64 < 2 ^ 64 := Nat.div_lt_of_lt_mul (by
    calc x.toNat * n.toNat < 2 ^ 64 * 2 ^ 64 := Nat.mul_lt_mul'' x.toNat_lt n.toNat_lt
      _ = 2 ^ 64 * 2 ^ 64 := rfl)
  simp only [fastRange64Portable]
  rw [toNat_upper64 (by rw [ac, ad, bc, bd, ← schoolbook]; exact bound), ac, ad, bc, bd, schoolbook]

/-- Without `unsigned __int128`, `FastRange64` computes what it computes with it. -/
theorem fastRange64_portable_agrees (x n : UInt64) : fastRange64Portable x n = fastRange64 x n :=
  UInt64.toNat_inj.mp (by rw [toNat_fastRange64Portable, toNat_fastRange64])

end Portable

end Freycoin.Util
