import Mathlib.Data.Nat.Bitwise
import Mathlib.Tactic.Ring

/-! Strings of bits, most significant bit first. -/

namespace BitString

/-- The `width` low bits of `n`, most significant first. -/
def msbBits : ℕ → ℕ → List Bool
  | 0, _ => []
  | width + 1, n => n.testBit width :: msbBits width n

/-- The number of a string of bits, most significant first. -/
def ofBits (bits : List Bool) : ℕ := bits.foldl (fun acc b => 2 * acc + b.toNat) 0

/-- The bits of a string of bytes, each byte's top bit first. -/
def bytesBits (bytes : List UInt8) : List Bool := bytes.flatMap fun byte => msbBits 8 byte.toNat

section Numbers

@[simp] theorem msbBits_width_zero (n : ℕ) : msbBits 0 n = [] := rfl

@[simp] theorem length_msbBits (width n : ℕ) : (msbBits width n).length = width := by
  induction width with
  | zero => rfl
  | succ width ih => rw [msbBits, List.length_cons, ih]

theorem foldl_ofBits (bits : List Bool) (acc : ℕ) :
    bits.foldl (fun acc b => 2 * acc + b.toNat) acc = acc * 2 ^ bits.length + ofBits bits := by
  induction bits generalizing acc with
  | nil => simp [ofBits]
  | cons b bits ih =>
      conv_rhs => rw [ofBits, List.foldl_cons, ih]
      rw [List.foldl_cons, ih, List.length_cons, pow_succ]
      ring

@[simp] theorem ofBits_nil : ofBits [] = 0 := rfl

theorem ofBits_append (front back : List Bool) :
    ofBits (front ++ back) = ofBits front * 2 ^ back.length + ofBits back := by
  rw [ofBits, List.foldl_append, foldl_ofBits, ← ofBits]

theorem ofBits_cons (b : Bool) (bits : List Bool) :
    ofBits (b :: bits) = b.toNat * 2 ^ bits.length + ofBits bits := by
  rw [← List.singleton_append, ofBits_append]
  simp [ofBits]

theorem ofBits_lt (bits : List Bool) : ofBits bits < 2 ^ bits.length := by
  induction bits with
  | nil => simp
  | cons b bits ih =>
      rw [ofBits_cons, List.length_cons, pow_succ]
      cases b with
      | false => rw [Bool.toNat_false, Nat.zero_mul, Nat.zero_add]; omega
      | true => rw [Bool.toNat_true, Nat.one_mul]; omega

theorem ofBits_msbBits (width n : ℕ) : ofBits (msbBits width n) = n % 2 ^ width := by
  induction width with
  | zero => simp [msbBits, Nat.mod_one]
  | succ width ih =>
      rw [msbBits, ofBits_cons, length_msbBits, ih, Nat.toNat_testBit, Nat.mod_pow_succ]
      ring

theorem msbBits_congr {width m n : ℕ} (same : ∀ i < width, m.testBit i = n.testBit i) :
    msbBits width m = msbBits width n := by
  induction width with
  | zero => rfl
  | succ width ih =>
      rw [msbBits, msbBits, same width (by omega), ih fun i below => same i (by omega)]

theorem msbBits_mod (width n : ℕ) : msbBits width (n % 2 ^ width) = msbBits width n :=
  msbBits_congr fun i below => by rw [Nat.testBit_mod_two_pow, decide_eq_true below, Bool.true_and]

theorem msbBits_zero (width : ℕ) : msbBits width 0 = List.replicate width false := by
  induction width with
  | zero => rfl
  | succ width ih => rw [msbBits, Nat.zero_testBit, ih, List.replicate_succ]

theorem msbBits_two_pow_sub_one {width k : ℕ} (within : width ≤ k) :
    msbBits width (2 ^ k - 1) = List.replicate width true := by
  induction width with
  | zero => rfl
  | succ width ih =>
      rw [msbBits, Nat.testBit_two_pow_sub_one, decide_eq_true (by omega), ih (by omega),
        List.replicate_succ]

theorem msbBits_add (high low n : ℕ) :
    msbBits (high + low) n = msbBits high (n / 2 ^ low) ++ msbBits low n := by
  induction high with
  | zero => simp [msbBits]
  | succ high ih =>
      rw [show high + 1 + low = high + low + 1 by omega, msbBits, ih, msbBits, Nat.testBit_div_two_pow,
        List.cons_append]

theorem msbBits_ofBits (bits : List Bool) : msbBits bits.length (ofBits bits) = bits := by
  induction bits with
  | nil => rfl
  | cons b bits ih =>
      have low := ofBits_lt bits
      rw [ofBits_cons, List.length_cons, msbBits]
      congr 1
      · rw [Nat.mul_comm, Nat.testBit_two_pow_mul_add _ low, if_neg (Nat.lt_irrefl _), Nat.sub_self]
        cases b <;> rfl
      · rw [← msbBits_mod, Nat.mul_add_mod_of_lt low, ih]

theorem msbBits_mul_two_pow (high low n : ℕ) :
    msbBits (high + low) (n * 2 ^ low) = msbBits high n ++ List.replicate low false := by
  rw [msbBits_add, Nat.mul_div_cancel _ (Nat.two_pow_pos low), ← msbBits_mod low,
    Nat.mul_mod_left, msbBits_zero]

theorem msbBits_two_pow_mul_add (width low high : ℕ) {v : ℕ} (small : v < 2 ^ low) :
    msbBits (width + low) (2 ^ low * high + v) = msbBits width high ++ msbBits low v := by
  rw [msbBits_add, Nat.mul_add_div (Nat.two_pow_pos low), Nat.div_eq_of_lt small, Nat.add_zero,
    ← msbBits_mod low, Nat.mul_add_mod, Nat.mod_eq_of_lt small]

theorem msbBits_div_two_pow (width low n : ℕ) :
    msbBits width (n / 2 ^ low) = (msbBits (width + low) n).take width := by
  rw [msbBits_add, List.take_left' (length_msbBits width _)]

end Numbers

section Bytes

@[simp] theorem bytesBits_nil : bytesBits [] = [] := rfl

theorem bytesBits_cons (byte : UInt8) (bytes : List UInt8) :
    bytesBits (byte :: bytes) = msbBits 8 byte.toNat ++ bytesBits bytes := rfl

theorem bytesBits_append (front back : List UInt8) :
    bytesBits (front ++ back) = bytesBits front ++ bytesBits back := by
  rw [bytesBits, List.flatMap_append]
  rfl

@[simp] theorem length_bytesBits (bytes : List UInt8) : (bytesBits bytes).length = 8 * bytes.length := by
  induction bytes with
  | nil => rfl
  | cons byte bytes ih =>
      rw [bytesBits_cons, List.length_append, length_msbBits, ih, List.length_cons]
      ring

end Bytes

end BitString
