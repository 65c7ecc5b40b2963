import Freycoin.Library.LittleEndian
import Mathlib.Data.Nat.Bitwise

/-! Sign-magnitude byte strings. -/

namespace SignMagnitude

open LittleEndian

/-- The position of the sign bit in a string of `length` bytes. -/
def signPosition (length : ℕ) : ℕ := 8 * length - 1

def magnitude (bytes : List UInt8) : ℕ := leValue bytes % 2 ^ signPosition bytes.length

def IsNegative (bytes : List UInt8) : Prop := 2 ^ signPosition bytes.length ≤ leValue bytes

instance : DecidablePred IsNegative := fun _ => inferInstanceAs (Decidable (_ ≤ _))

/-- The integer a string denotes. The empty string has its sign bit at position zero and
denotes zero. -/
def value (bytes : List UInt8) : ℤ :=
  if IsNegative bytes then -(magnitude bytes : ℤ) else magnitude bytes

/-- No shorter string holds the magnitude: the string is empty, or the magnitude reaches the
bit below the top byte. -/
def Shortest (bytes : List UInt8) : Prop :=
  bytes = [] ∨ 2 ^ (8 * bytes.length - 9) ≤ magnitude bytes

instance : DecidablePred Shortest := fun _ => inferInstanceAs (Decidable (_ ∨ _))

@[simp] theorem magnitude_nil : magnitude [] = 0 := by decide

@[simp] theorem value_nil : value [] = 0 := by decide

theorem leValue_lt_two_pow (bytes : List UInt8) : leValue bytes < 2 ^ (8 * bytes.length) := by
  rw [pow_mul]
  norm_num
  exact leValue_lt bytes

theorem magnitude_lt (bytes : List UInt8) : magnitude bytes < 2 ^ signPosition bytes.length :=
  Nat.mod_lt _ (Nat.two_pow_pos _)

theorem natAbs_value (bytes : List UInt8) : (value bytes).natAbs = magnitude bytes := by
  unfold value
  split_ifs <;> simp

theorem value_neg_iff {bytes : List UInt8} (positive : 0 < magnitude bytes) :
    value bytes < 0 ↔ IsNegative bytes := by
  unfold value
  split_ifs with negative <;> simp [negative, positive]

section Top

/-! A nonempty string as `front ++ [top]`. -/

variable (front : List UInt8) (top : UInt8)

theorem signPosition_append_singleton :
    signPosition (front ++ [top]).length = 8 * front.length + 7 := by
  simp only [signPosition, List.length_append, List.length_singleton]
  omega

theorem leValue_append_singleton :
    leValue (front ++ [top]) = leValue front + 2 ^ (8 * front.length) * top.toNat := by
  rw [leValue_append, pow_mul]
  simp [leValue]

theorem isNegative_append_singleton_iff : IsNegative (front ++ [top]) ↔ 128 ≤ top.toNat := by
  have frontSmall := leValue_lt_two_pow front
  have sign : 2 ^ (8 * front.length + 7) = 2 ^ (8 * front.length) * 128 := by
    rw [pow_add]
    norm_num
  rw [IsNegative, signPosition_append_singleton, leValue_append_singleton, sign]
  constructor
  · intro negative
    by_contra low
    have : 2 ^ (8 * front.length) * top.toNat + 2 ^ (8 * front.length) ≤
        2 ^ (8 * front.length) * 128 := by
      rw [← Nat.mul_succ]
      exact Nat.mul_le_mul_left _ (by omega)
    omega
  · intro high
    calc 2 ^ (8 * front.length) * 128 ≤ 2 ^ (8 * front.length) * top.toNat :=
          Nat.mul_le_mul_left _ high
      _ ≤ _ := Nat.le_add_left _ _

theorem magnitude_append_singleton :
    magnitude (front ++ [top]) = leValue front + 2 ^ (8 * front.length) * (top.toNat % 128) := by
  have frontSmall := leValue_lt_two_pow front
  have sign : 2 ^ (8 * front.length + 7) = 2 ^ (8 * front.length) * 128 := by
    rw [pow_add]
    norm_num
  -- the bits above the sign are the multiples of `128` in the top byte
  have split : leValue front + 2 ^ (8 * front.length) * top.toNat =
      leValue front + 2 ^ (8 * front.length) * (top.toNat % 128) +
        2 ^ (8 * front.length) * 128 * (top.toNat / 128) := by
    conv_lhs => rw [← Nat.mod_add_div top.toNat 128]
    ring
  have below : leValue front + 2 ^ (8 * front.length) * (top.toNat % 128) <
      2 ^ (8 * front.length) * 128 := by
    have : 2 ^ (8 * front.length) * (top.toNat % 128) + 2 ^ (8 * front.length) ≤
        2 ^ (8 * front.length) * 128 := by
      rw [← Nat.mul_succ]
      exact Nat.mul_le_mul_left _ (Nat.mod_lt _ (by norm_num))
    omega
  rw [magnitude, signPosition_append_singleton, leValue_append_singleton, sign, split,
    Nat.add_mul_mod_self_left, Nat.mod_eq_of_lt below]

theorem value_append_singleton :
    value (front ++ [top]) =
      if 128 ≤ top.toNat then -((leValue front + 2 ^ (8 * front.length) * (top.toNat % 128) : ℕ) : ℤ)
      else ((leValue front + 2 ^ (8 * front.length) * (top.toNat % 128) : ℕ) : ℤ) := by
  rw [value, magnitude_append_singleton]
  simp only [isNegative_append_singleton_iff]

theorem shortest_append_singleton_iff :
    Shortest (front ++ [top]) ↔ top.toNat % 128 ≠ 0 ∨ 128 ≤ (front.getLastD 0).toNat := by
  have exponent : 8 * (front ++ [top]).length - 9 = 8 * front.length - 1 := by
    simp only [List.length_append, List.length_singleton]
    omega
  rw [Shortest, exponent, magnitude_append_singleton]
  simp only [List.append_eq_nil_iff, List.cons_ne_self, and_false, false_or]
  by_cases inTop : top.toNat % 128 = 0
  · -- the magnitude is the front's value, and its top bit is the front's sign
    rw [inTop, Nat.mul_zero, Nat.add_zero]
    simp only [ne_eq, not_true_eq_false, false_or]
    rcases List.eq_nil_or_concat front with empty | ⟨rest, below, rfl⟩
    · subst empty
      simp
    · rw [List.concat_eq_append, List.getLastD_concat, ← isNegative_append_singleton_iff rest below, IsNegative,
        signPosition_append_singleton]
      simp only [List.length_append, List.length_singleton]
      rw [show 8 * (rest.length + 1) - 1 = 8 * rest.length + 7 by omega]
  · have low : 2 ^ (8 * front.length - 1) ≤ 2 ^ (8 * front.length) :=
      Nat.pow_le_pow_right (by norm_num) (by omega)
    have reach : 2 ^ (8 * front.length) ≤ 2 ^ (8 * front.length) * (top.toNat % 128) :=
      Nat.le_mul_of_pos_right _ (by omega)
    simp only [ne_eq, inTop, not_false_eq_true, true_or, iff_true]
    omega

end Top

theorem length_le_of_shortest {bytes : List UInt8} {k : ℕ} (shortest : Shortest bytes)
    (small : magnitude bytes < 2 ^ (8 * k - 1)) : bytes.length ≤ k := by
  rcases shortest with empty | reach
  · simp [empty]
  · have exponent : 8 * bytes.length - 9 < 8 * k - 1 :=
      (Nat.pow_lt_pow_iff_right (by norm_num)).mp (lt_of_le_of_lt reach small)
    omega

theorem positive_of_shortest {bytes : List UInt8} (shortest : Shortest bytes)
    (nonempty : bytes ≠ []) : 0 < magnitude bytes := by
  rcases shortest with empty | reach
  · exact absurd empty nonempty
  · exact lt_of_lt_of_le (Nat.two_pow_pos _) reach

theorem leValue_eq {bytes : List UInt8} (nonempty : bytes ≠ []) :
    leValue bytes = magnitude bytes + if IsNegative bytes then 2 ^ signPosition bytes.length else 0 := by
  have whole : leValue bytes < 2 * 2 ^ signPosition bytes.length := by
    have length : 0 < bytes.length := List.length_pos_iff.mpr nonempty
    rw [← pow_succ', signPosition, show 8 * bytes.length - 1 + 1 = 8 * bytes.length by omega]
    exact leValue_lt_two_pow bytes
  by_cases negative : IsNegative bytes
  · rw [if_pos negative]
    unfold IsNegative at negative
    rw [magnitude, Nat.mod_eq_sub_mod negative, Nat.mod_eq_of_lt (by omega)]
    omega
  · rw [if_neg negative]
    unfold IsNegative at negative
    rw [magnitude, Nat.mod_eq_of_lt (by omega), Nat.add_zero]

theorem eq_of_shortest {a b : List UInt8} (shortestA : Shortest a) (shortestB : Shortest b)
    (same : value a = value b) : a = b := by
  have magnitudes : magnitude a = magnitude b := by
    rw [← natAbs_value, ← natAbs_value, same]
  by_cases emptyA : a = []
  · by_contra differ
    have positive := positive_of_shortest shortestB (fun empty => differ (emptyA.trans empty.symm))
    rw [emptyA, magnitude_nil] at magnitudes
    omega
  by_cases emptyB : b = []
  · have positive := positive_of_shortest shortestA emptyA
    rw [emptyB, magnitude_nil] at magnitudes
    omega
  have lengths : a.length = b.length := by
    apply le_antisymm
    · apply length_le_of_shortest shortestA
      rw [magnitudes]
      exact magnitude_lt b
    · apply length_le_of_shortest shortestB
      rw [← magnitudes]
      exact magnitude_lt a
  have signs : IsNegative a ↔ IsNegative b := by
    rw [← value_neg_iff (positive_of_shortest shortestA emptyA),
      ← value_neg_iff (positive_of_shortest shortestB emptyB), same]
  have values : leValue a = leValue b := by
    rw [leValue_eq emptyA, leValue_eq emptyB, magnitudes, lengths]
    simp only [signs]
  rw [← leBytes_leValue a, ← leBytes_leValue b, values, lengths]

theorem and_clear_sign {s top low w : ℕ} (lowSmall : low < 2 ^ s) (byte : top < 2 ^ 8)
    (fits : s + 8 ≤ w) :
    (2 ^ s * top + low) &&& (2 ^ w - (2 ^ (s + 7) + 1)) = 2 ^ s * (top % 2 ^ 7) + low := by
  have signBit : 2 ^ (s + 7) < 2 ^ w := Nat.pow_lt_pow_right (by norm_num) (by omega)
  apply Nat.eq_of_testBit_eq
  intro i
  rw [Nat.testBit_and, Nat.testBit_two_pow_sub_succ signBit, Nat.testBit_two_pow,
    Nat.testBit_two_pow_mul_add _ lowSmall, Nat.testBit_two_pow_mul_add _ lowSmall,
    Nat.testBit_mod_two_pow]
  -- bits of the front, the magnitude bits of the top byte, its sign bit, and the empty rest
  by_cases front : i < s
  · simp [front]
    omega
  · by_cases inMagnitude : i - s < 7
    · simp [front, inMagnitude]
      omega
    · by_cases inByte : i - s < 8
      · have sign : i = s + 7 := by omega
        simp [sign]
      · have clear : top.testBit (i - s) = false :=
          Nat.testBit_lt_two_pow
            (lt_of_lt_of_le byte (Nat.pow_le_pow_right (by norm_num) (by omega)))
        simp [front, inMagnitude, clear]

end SignMagnitude
