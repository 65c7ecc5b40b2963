import Mathlib.Data.Nat.Digits.Lemmas

/-! The limb subtraction of the OpenCL Fermat kernels, `sub10` and `sub11` of
`gpu/fermat_cl_source.h` (the same text is in `gpu/fermat.cl`).

A number is an array of 32-bit limbs, least significant first, and the borrow is read back as
`a[i-1] > A0`. -/

namespace Freycoin.Gpu

/-- The value of little-endian 32-bit limbs. -/
def limbValue (limbs : List UInt32) : Nat :=
  Nat.ofDigits (2 ^ 32) (limbs.map UInt32.toNat)

/-- The loop of `sub10` from limb `i >= 1` on; `newPrev` and `oldPrev` are limb `i - 1` after
and before its subtraction. -/
def subFrom (newPrev oldPrev : UInt32) : List UInt32 → List UInt32 → List UInt32
  | a :: as, b :: bs =>
    let limb := a - (b + if newPrev > oldPrev then 1 else 0)
    limb :: subFrom limb a as bs
  | _, _ => []

/-- `a -= b` limb by limb over the limbs both have, with the borrow test of `sub10`. -/
def subLimbs : List UInt32 → List UInt32 → List UInt32
  | a :: as, b :: bs => (a - b) :: subFrom (a - b) a as bs
  | _, _ => []

def sub10 (a b : List UInt32) : List UInt32 := subLimbs (a.take 10) (b.take 10)

def sub11 (a b : List UInt32) : List UInt32 := subLimbs (a.take 11) (b.take 11)

/-- The inner loop of the conversion to Montgomery form: `redcl <<= 1` limb by limb through a
64-bit `tmp`, with the carry out of the top limb. -/
def shiftLeftOne (carry : UInt32) : List UInt32 → List UInt32 × UInt32
  | [] => ([], carry)
  | limb :: limbs =>
    let tmp := (limb.toUInt64 <<< 1) ||| carry.toUInt64
    let rest := shiftLeftOne (tmp >>> 32).toUInt32 limbs
    (tmp.toUInt32 :: rest.1, rest.2)

/-- The compare loop, from the most significant limb down: the first limb that differs
decides, and equal numbers leave `doSub = 1`. -/
def doSubFromTop : List UInt32 → List UInt32 → Bool
  | r :: rs, m :: ms => if r > m then true else if r < m then false else doSubFromTop rs ms
  | _, _ => true

/-- One pass of the loop of `fermat320` that puts 2 in Montgomery form: double `redcl`, and
subtract `mod` when the doubling carried out or, after the look at limb 9, the compare finds
`redcl >= mod`. -/
def montgomeryTwo320Step (mod redcl : List UInt32) : List UInt32 :=
  let shifted := shiftLeftOne 0 redcl
  let carry := shifted.2
  let redcl := shifted.1
  if carry ≠ 0 ∨ redcl.getD 9 0 ≥ mod.getD 9 0 then
    let doSub := doSubFromTop redcl.reverse mod.reverse
    if carry ≠ 0 ∨ doSub = true then sub10 redcl mod else redcl
  else redcl

/-- `redcl = 2`, doubled and reduced 320 times: `2 * 2^320 mod p`, the window entry `window[1]`. -/
def montgomeryTwo320 (mod : List UInt32) : List UInt32 :=
  (montgomeryTwo320Step mod)^[320] [2, 0, 0, 0, 0, 0, 0, 0, 0, 0]

@[simp] theorem limbValue_nil : limbValue [] = 0 := rfl

theorem limbValue_cons (limb : UInt32) (limbs : List UInt32) :
    limbValue (limb :: limbs) = limb.toNat + 2 ^ 32 * limbValue limbs := rfl

theorem limbValue_lt (limbs : List UInt32) : limbValue limbs < 2 ^ (32 * limbs.length) := by
  have digits : ∀ digit ∈ limbs.map UInt32.toNat, digit < 2 ^ 32 := by
    intro digit member
    obtain ⟨limb, _, rfl⟩ := List.mem_map.mp member
    exact limb.toNat_lt
  have bound := Nat.ofDigits_lt_base_pow_length (by decide) digits
  rwa [List.length_map, ← pow_mul] at bound

theorem length_subFrom (newPrev oldPrev : UInt32) (as bs : List UInt32) :
    (subFrom newPrev oldPrev as bs).length = min as.length bs.length := by
  induction as generalizing newPrev oldPrev bs with
  | nil => simp [subFrom]
  | cons a as ih =>
      cases bs with
      | nil => simp [subFrom]
      | cons b bs => simp [subFrom, ih, Nat.succ_min_succ]

theorem limb_sub_borrow (a b : UInt32) (borrowIn : Bool)
    (noWrap : borrowIn = true → b ≠ 0xFFFFFFFF) :
    (a - (b + if borrowIn then 1 else 0)).toNat + b.toNat + (if borrowIn then 1 else 0) =
      a.toNat + 2 ^ 32 * (if a - (b + if borrowIn then 1 else 0) > a then 1 else 0) := by
  have aLt := a.toNat_lt
  have bLt := b.toNat_lt
  cases borrowIn with
  | false =>
      simp only [Bool.false_eq_true, if_false, UInt32.add_zero, gt_iff_lt, UInt32.lt_iff_toNat_lt,
        UInt32.toNat_sub]
      split_ifs <;> omega
  | true =>
      have notAllOnes : b.toNat ≠ 4294967295 := fun full =>
        noWrap rfl (UInt32.toNat_inj.mp (by rw [full]; rfl))
      have sum : (b + 1).toNat = b.toNat + 1 := by
        rw [UInt32.toNat_add, UInt32.toNat_one]
        omega
      simp only [if_true, gt_iff_lt, UInt32.lt_iff_toNat_lt, UInt32.toNat_sub, sum]
      split_ifs <;> omega

theorem subFrom_value (newPrev oldPrev : UInt32) (as bs : List UInt32)
    (lengths : as.length = bs.length) (noAllOnes : ∀ limb ∈ bs, limb ≠ 0xFFFFFFFF) :
    ∃ borrowOut, limbValue (subFrom newPrev oldPrev as bs) + limbValue bs +
        (if newPrev > oldPrev then 1 else 0) =
      limbValue as + 2 ^ (32 * as.length) * borrowOut := by
  -- induction on the limbs, carrying the limb before as `newPrev`, `oldPrev`
  induction as generalizing newPrev oldPrev bs with
  | nil =>
      obtain rfl : bs = [] := List.length_eq_zero_iff.mp lengths.symm
      refine ⟨if newPrev > oldPrev then 1 else 0, ?_⟩
      simp [subFrom]
  | cons a as ih =>
      obtain ⟨b, bs, rfl⟩ := List.exists_cons_of_length_eq_add_one lengths.symm
      have limb := limb_sub_borrow a b (decide (newPrev > oldPrev))
        (fun _ => noAllOnes b List.mem_cons_self)
      simp only [decide_eq_true_eq] at limb
      obtain ⟨borrowOut, rest⟩ := ih (a - (b + if newPrev > oldPrev then 1 else 0)) a bs
        (by simpa using lengths) (fun limb member => noAllOnes limb (List.mem_cons_of_mem b member))
      refine ⟨borrowOut, ?_⟩
      rw [subFrom, limbValue_cons, limbValue_cons, limbValue_cons, List.length_cons,
        Nat.mul_succ, pow_add, Nat.mul_comm (2 ^ (32 * as.length)), Nat.mul_assoc]
      omega

theorem length_subLimbs (a b : List UInt32) :
    (subLimbs a b).length = min a.length b.length := by
  cases a with
  | nil => simp [subLimbs]
  | cons a as =>
      cases b with
      | nil => simp [subLimbs]
      | cons b bs => simp [subLimbs, length_subFrom, Nat.succ_min_succ]

theorem subLimbs_add (a b : List UInt32) (lengths : a.length = b.length)
    (noAllOnes : ∀ limb ∈ b.tail, limb ≠ 0xFFFFFFFF) :
    ∃ borrowOut, limbValue (subLimbs a b) + limbValue b =
      limbValue a + 2 ^ (32 * a.length) * borrowOut := by
  cases a with
  | nil =>
      obtain rfl : b = [] := List.length_eq_zero_iff.mp lengths.symm
      exact ⟨0, rfl⟩
  | cons a as =>
      obtain ⟨b, bs, rfl⟩ := List.exists_cons_of_length_eq_add_one lengths.symm
      have first := limb_sub_borrow a b false (by simp)
      simp only [Bool.false_eq_true, if_false, UInt32.add_zero] at first
      obtain ⟨borrowOut, rest⟩ :=
        subFrom_value (a - b) a as bs (by simpa using lengths) noAllOnes
      refine ⟨borrowOut, ?_⟩
      rw [subLimbs, limbValue_cons, limbValue_cons, limbValue_cons, List.length_cons,
        Nat.mul_succ, pow_add, Nat.mul_comm (2 ^ (32 * as.length)), Nat.mul_assoc]
      omega

theorem eq_sub_mod_of_add_eq {value b a modulus borrow : Nat} (valueLt : value < modulus)
    (bLt : b < modulus) (sum : value + b = a + modulus * borrow) :
    value = (a + modulus - b) % modulus := by
  have atMostOne : borrow ≤ 1 := by
    by_contra large
    have := Nat.mul_le_mul_left modulus (show 2 ≤ borrow by omega)
    omega
  interval_cases borrow
  · rw [show a + modulus - b = value + modulus by omega, Nat.add_mod_right, Nat.mod_eq_of_lt valueLt]
  · rw [show a + modulus - b = value by omega, Nat.mod_eq_of_lt valueLt]

theorem subLimbs_value (a b : List UInt32) (lengths : a.length = b.length)
    (noAllOnes : ∀ limb ∈ b.tail, limb ≠ 0xFFFFFFFF) :
    limbValue (subLimbs a b) = (limbValue a + 2 ^ (32 * a.length) - limbValue b) %
      2 ^ (32 * a.length) := by
  obtain ⟨borrowOut, sum⟩ := subLimbs_add a b lengths noAllOnes
  have below := limbValue_lt (subLimbs a b)
  have bBelow := limbValue_lt b
  rw [length_subLimbs, ← lengths, Nat.min_self] at below
  rw [← lengths] at bBelow
  exact eq_sub_mod_of_add_eq below bBelow sum

theorem sub10_value (a b : List UInt32) (aLength : a.length = 10) (bLength : b.length = 10)
    (noAllOnes : ∀ limb ∈ b.tail, limb ≠ 0xFFFFFFFF) :
    limbValue (sub10 a b) = (limbValue a + 2 ^ 320 - limbValue b) % 2 ^ 320 := by
  rw [sub10, List.take_of_length_le (by omega), List.take_of_length_le (by omega),
    subLimbs_value a b (by omega) noAllOnes, aLength]

/-- At the prime `2^64 - 59`, whose limb 1 is all ones, `2^64 - p` comes out as `2^64 + 59`:
the borrow out of limb 0 wraps `b[1] + 1` to zero and is lost. This is the first subtraction of
`fermat320` for that prime, in pass 63 of the conversion of 2. -/
theorem sub10_loses_borrow_through_all_ones :
    limbValue [0xFFFFFFC5, 0xFFFFFFFF, 0, 0, 0, 0, 0, 0, 0, 0] = 2 ^ 64 - 59 ∧
      limbValue (sub10 [0, 0, 1, 0, 0, 0, 0, 0, 0, 0]
        [0xFFFFFFC5, 0xFFFFFFFF, 0, 0, 0, 0, 0, 0, 0, 0]) = 2 ^ 64 + 59 := by
  decide +kernel

theorem length_sub10 (a b : List UInt32) (aLength : a.length = 10) (bLength : b.length = 10) :
    (sub10 a b).length = 10 := by
  rw [sub10, length_subLimbs]
  simp [aLength, bLength]

theorem shiftTmp_toNat (limb carry : UInt32) (small : carry.toNat ≤ 1) :
    ((limb.toUInt64 <<< 1) ||| carry.toUInt64).toNat = 2 * limb.toNat + carry.toNat := by
  have limbLt := limb.toNat_lt
  have shifted : (limb.toUInt64 <<< 1).toNat = limb.toNat <<< 1 := by
    rw [UInt64.toNat_shiftLeft, UInt32.toNat_toUInt64, Nat.shiftLeft_eq]
    simp only [UInt64.toNat_one, Nat.one_mod, pow_one]
    omega
  rw [UInt64.toNat_or, shifted, UInt32.toNat_toUInt64,
    ← Nat.shiftLeft_add_eq_or_of_lt (show carry.toNat < 2 ^ 1 by omega), Nat.shiftLeft_eq]
  omega

theorem shiftRight32_toNat (tmp : UInt64) : (tmp >>> 32).toUInt32.toNat = tmp.toNat / 2 ^ 32 := by
  have amount : (32 : UInt64).toNat % 64 = 32 := rfl
  have tmpLt := tmp.toNat_lt
  rw [UInt64.toNat_toUInt32, UInt64.toNat_shiftRight, amount, Nat.shiftRight_eq_div_pow]
  omega

theorem shiftLeftOne_value (carry : UInt32) (small : carry.toNat ≤ 1) (limbs : List UInt32) :
    (shiftLeftOne carry limbs).1.length = limbs.length ∧
      (shiftLeftOne carry limbs).2.toNat ≤ 1 ∧
      limbValue (shiftLeftOne carry limbs).1 +
          2 ^ (32 * limbs.length) * (shiftLeftOne carry limbs).2.toNat =
        2 * limbValue limbs + carry.toNat := by
  induction limbs generalizing carry with
  | nil => simp [shiftLeftOne, small]
  | cons limb limbs ih =>
      have tmp := shiftTmp_toNat limb carry small
      have limbLt := limb.toNat_lt
      obtain ⟨length, outSmall, value⟩ :=
        ih (((limb.toUInt64 <<< 1) ||| carry.toUInt64) >>> 32).toUInt32 (by
          rw [shiftRight32_toNat, tmp]
          omega)
      rw [shiftRight32_toNat, tmp] at value
      refine ⟨by simp [shiftLeftOne, length], outSmall, ?_⟩
      simp only [shiftLeftOne]
      rw [limbValue_cons, limbValue_cons, UInt64.toNat_toUInt32, tmp, List.length_cons,
        Nat.mul_succ, pow_add, Nat.mul_comm (2 ^ (32 * limbs.length)), Nat.mul_assoc]
      omega

theorem limbValue_append (low high : List UInt32) :
    limbValue (low ++ high) = limbValue low + 2 ^ (32 * low.length) * limbValue high := by
  rw [limbValue, List.map_append, Nat.ofDigits_append, List.length_map, ← pow_mul]
  rfl

theorem doSubFromTop_iff (rs ms : List UInt32) (lengths : rs.length = ms.length) :
    doSubFromTop rs ms = true ↔ limbValue ms.reverse ≤ limbValue rs.reverse := by
  -- induction from the most significant limb, with the lower limbs below `2^(32 k)`
  induction rs generalizing ms with
  | nil =>
      obtain rfl : ms = [] := List.length_eq_zero_iff.mp lengths.symm
      simp [doSubFromTop]
  | cons r rs ih =>
      obtain ⟨m, ms, rfl⟩ := List.exists_cons_of_length_eq_add_one lengths.symm
      have sameLength : rs.length = ms.length := by simpa using lengths
      have rLow := limbValue_lt rs.reverse
      have mLow := limbValue_lt ms.reverse
      rw [List.length_reverse] at rLow mLow
      rw [← sameLength] at mLow
      rw [List.reverse_cons, List.reverse_cons, limbValue_append, limbValue_append,
        List.length_reverse, List.length_reverse, ← sameLength, limbValue_cons, limbValue_cons]
      simp only [limbValue_nil, Nat.mul_zero, Nat.add_zero]
      rw [doSubFromTop]
      by_cases above : r > m
      · rw [if_pos above]
        have step := Nat.mul_le_mul_left (2 ^ (32 * rs.length))
          (show m.toNat + 1 ≤ r.toNat from UInt32.lt_iff_toNat_lt.mp above)
        simp only [true_iff]
        rw [Nat.mul_add, Nat.mul_one] at step
        omega
      · rw [if_neg above]
        by_cases below : r < m
        · rw [if_pos below]
          have step := Nat.mul_le_mul_left (2 ^ (32 * rs.length))
            (show r.toNat + 1 ≤ m.toNat from UInt32.lt_iff_toNat_lt.mp below)
          simp only [Bool.false_eq_true, false_iff, not_le]
          rw [Nat.mul_add, Nat.mul_one] at step
          omega
        · rw [if_neg below, ih ms sameLength]
          have equal : r = m := UInt32.le_antisymm (UInt32.not_lt.mp above) (UInt32.not_lt.mp below)
          subst equal
          omega

theorem reverse_eq_getD_cons {limbs : List UInt32} {n : Nat} (length : limbs.length = n + 1) :
    limbs.reverse = limbs.getD n 0 :: limbs.dropLast.reverse := by
  have nonempty : limbs ≠ [] := by
    rintro rfl
    simp at length
  conv_lhs => rw [← List.dropLast_append_getLast nonempty]
  rw [List.reverse_append, List.reverse_singleton, List.singleton_append, List.getLast_eq_getElem,
    List.getD_eq_getElem?_getD, List.getElem?_eq_getElem (by omega), Option.getD_some]
  simp only [length, Nat.add_sub_cancel]

theorem limbValue_lt_of_top_lt {low high : List UInt32} {n : Nat} (lowLength : low.length = n + 1)
    (highLength : high.length = n + 1) (top : low.getD n 0 < high.getD n 0) :
    limbValue low < limbValue high := by
  have compare := doSubFromTop_iff low.reverse high.reverse (by simp [lowLength, highLength])
  rw [List.reverse_reverse, List.reverse_reverse, reverse_eq_getD_cons lowLength,
    reverse_eq_getD_cons highLength, doSubFromTop, if_neg (UInt32.not_lt.mpr (UInt32.le_of_lt top)),
    if_pos top] at compare
  simpa using compare

theorem two_mul_mod_of_lt {value modulus : Nat} (reduced : value < modulus) :
    2 * value % modulus = if modulus ≤ 2 * value then 2 * value - modulus else 2 * value := by
  split_ifs with large
  · rw [Nat.mod_eq_sub_mod large, Nat.mod_eq_of_lt (by omega)]
  · exact Nat.mod_eq_of_lt (by omega)

theorem montgomeryTwo320Step_value (mod redcl : List UInt32) (modLength : mod.length = 10)
    (redclLength : redcl.length = 10) (noAllOnes : ∀ limb ∈ mod.tail, limb ≠ 0xFFFFFFFF)
    (reduced : limbValue redcl < limbValue mod) :
    (montgomeryTwo320Step mod redcl).length = 10 ∧
      limbValue (montgomeryTwo320Step mod redcl) = 2 * limbValue redcl % limbValue mod := by
  obtain ⟨length, carrySmall, doubled⟩ := shiftLeftOne_value 0 (by decide) redcl
  rw [redclLength] at length doubled
  simp only [UInt32.toNat_zero, Nat.add_zero] at doubled
  have modLt := limbValue_lt mod
  rw [modLength] at modLt
  have subValue := sub10_value (shiftLeftOne 0 redcl).1 mod length modLength noAllOnes
  have subLength := length_sub10 (shiftLeftOne 0 redcl).1 mod length modLength
  have compare := doSubFromTop_iff (shiftLeftOne 0 redcl).1.reverse mod.reverse
    (by simp [length, modLength])
  rw [List.reverse_reverse, List.reverse_reverse] at compare
  rw [two_mul_mod_of_lt reduced]
  unfold montgomeryTwo320Step
  dsimp only
  by_cases carry : (shiftLeftOne 0 redcl).2 ≠ 0
  · -- the doubling carried out of limb 9: `2 * redcl >= 2^320 > mod`
    have carried : (shiftLeftOne 0 redcl).2.toNat = 1 := by
      have : (shiftLeftOne 0 redcl).2.toNat ≠ 0 := fun zero =>
        carry (UInt32.toNat_inj.mp (by rw [zero]; rfl))
      omega
    rw [carried, Nat.mul_one] at doubled
    rw [if_pos (Or.inl carry), if_pos (Or.inl carry), subValue, if_pos (by omega)]
    refine ⟨subLength, ?_⟩
    rw [Nat.mod_eq_of_lt (by omega)]
    omega
  · have noCarry : (shiftLeftOne 0 redcl).2.toNat = 0 := by
      rw [not_not.mp carry]
      rfl
    simp only [noCarry, Nat.mul_zero, Nat.add_zero] at doubled
    simp only [carry, false_or]
    by_cases guard : (shiftLeftOne 0 redcl).1.getD 9 0 ≥ mod.getD 9 0
    · rw [if_pos guard]
      by_cases doSub : doSubFromTop (shiftLeftOne 0 redcl).1.reverse mod.reverse = true
      · rw [if_pos doSub, subValue, if_pos (by rw [← doubled]; exact compare.mp doSub)]
        refine ⟨subLength, ?_⟩
        have atLeast := compare.mp doSub
        rw [show limbValue (shiftLeftOne 0 redcl).1 + 2 ^ 320 - limbValue mod =
          (limbValue (shiftLeftOne 0 redcl).1 - limbValue mod) + 2 ^ 320 by omega,
          Nat.add_mod_right, Nat.mod_eq_of_lt (by omega)]
        omega
      · rw [if_neg doSub, if_neg (by rw [← doubled]; exact fun le => doSub (compare.mpr le))]
        exact ⟨length, doubled⟩
    · -- limb 9 is below the modulus's, so the doubled value is already reduced
      rw [if_neg guard]
      have below := limbValue_lt_of_top_lt length modLength (UInt32.not_le.mp guard)
      rw [if_neg (by omega)]
      exact ⟨length, doubled⟩

theorem montgomeryTwo320Step_iterate (mod : List UInt32) (modLength : mod.length = 10)
    (noAllOnes : ∀ limb ∈ mod.tail, limb ≠ 0xFFFFFFFF) (redcl : List UInt32)
    (redclLength : redcl.length = 10) (reduced : limbValue redcl < limbValue mod) (k : Nat) :
    ((montgomeryTwo320Step mod)^[k] redcl).length = 10 ∧
      limbValue ((montgomeryTwo320Step mod)^[k] redcl) = 2 ^ k * limbValue redcl % limbValue mod := by
  induction k with
  | zero => exact ⟨redclLength, by rw [pow_zero, Nat.one_mul, Nat.mod_eq_of_lt reduced]; rfl⟩
  | succ k ih =>
      obtain ⟨length, value⟩ := ih
      have stillReduced : limbValue ((montgomeryTwo320Step mod)^[k] redcl) < limbValue mod := by
        rw [value]
        exact Nat.mod_lt _ (by omega)
      obtain ⟨length', value'⟩ := montgomeryTwo320Step_value mod _ modLength length noAllOnes
        stillReduced
      rw [Function.iterate_succ_apply']
      refine ⟨length', ?_⟩
      rw [value', value, Nat.mul_mod_mod, pow_succ, Nat.mul_comm (2 ^ k) 2, Nat.mul_assoc]

theorem montgomeryTwo320_value (mod : List UInt32) (modLength : mod.length = 10)
    (noAllOnes : ∀ limb ∈ mod.tail, limb ≠ 0xFFFFFFFF) (large : 2 < limbValue mod) :
    limbValue (montgomeryTwo320 mod) = 2 ^ 321 % limbValue mod := by
  have two : limbValue [2, 0, 0, 0, 0, 0, 0, 0, 0, 0] = 2 := by decide
  rw [montgomeryTwo320, (montgomeryTwo320Step_iterate mod modLength noAllOnes _ rfl
    (by rw [two]; exact large) 320).2, two, ← pow_succ]

/-- For `p = 2^64 - 59` the loop leaves `window[1]` in the wrong residue class: after pass 63 it
holds `2^64 + 59`, which is `118`, not `59`, modulo `p`. -/
theorem montgomeryTwo320_wrong_at_two_pow_64_sub_59 :
    limbValue ((montgomeryTwo320Step [0xFFFFFFC5, 0xFFFFFFFF, 0, 0, 0, 0, 0, 0, 0, 0])^[63]
        [2, 0, 0, 0, 0, 0, 0, 0, 0, 0]) = 2 ^ 64 + 59 ∧
      limbValue (montgomeryTwo320 [0xFFFFFFC5, 0xFFFFFFFF, 0, 0, 0, 0, 0, 0, 0, 0]) % (2 ^ 64 - 59) ≠
        2 ^ 321 % (2 ^ 64 - 59) := by
  decide +kernel

end Freycoin.Gpu
