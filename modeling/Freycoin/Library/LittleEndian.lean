import Mathlib.Data.Nat.Digits.Lemmas
import Mathlib.Data.Nat.Size

/-! Little-endian byte strings. -/

namespace LittleEndian

/-- The integer of a byte string, least significant byte first (`mpz_import` with
order `-1`). -/
def leValue (bytes : List UInt8) : Nat :=
  Nat.ofDigits 256 (bytes.map UInt8.toNat)

/-- The `width` low bytes of `n`, least significant first. -/
def leBytes : Nat → Nat → List UInt8
  | 0, _ => []
  | width + 1, n => UInt8.ofNat n :: leBytes width (n / 256)

/-- The shortest encoding, as `mpz_export` writes it: no bytes at all for zero. -/
def minimalBytes (n : Nat) : List UInt8 :=
  (Nat.digits 256 n).map UInt8.ofNat

/-- The number of significant bits, as `mpz_sizeinbase(n, 2)` counts them: one for zero. -/
def sizeInBase2 (n : Nat) : Nat :=
  if n = 0 then 1 else n.size

theorem toNat_byte (n : Nat) : (UInt8.ofNat n).toNat = n % 256 := UInt8.toNat_ofNat'

@[simp] theorem leValue_nil : leValue [] = 0 := rfl

theorem leValue_cons (byte : UInt8) (bytes : List UInt8) :
    leValue (byte :: bytes) = byte.toNat + 256 * leValue bytes := rfl

theorem leValue_append (front back : List UInt8) :
    leValue (front ++ back) = leValue front + 256 ^ front.length * leValue back := by
  simp only [leValue, List.map_append, Nat.ofDigits_append, List.length_map]

theorem leValue_lt (bytes : List UInt8) : leValue bytes < 256 ^ bytes.length := by
  have digits : ∀ digit ∈ bytes.map UInt8.toNat, digit < 256 := by
    intro digit member
    obtain ⟨byte, _, rfl⟩ := List.mem_map.mp member
    exact byte.toNat_lt
  simpa only [leValue, List.length_map] using Nat.ofDigits_lt_base_pow_length (by decide) digits

@[simp] theorem length_leBytes (width n : Nat) : (leBytes width n).length = width := by
  induction width generalizing n with
  | zero => rfl
  | succ width ih => simp [leBytes, ih]

theorem leValue_leBytes (width n : Nat) : leValue (leBytes width n) = n % 256 ^ width := by
  induction width generalizing n with
  | zero => simp [leBytes, Nat.mod_one]
  | succ width ih =>
      rw [leBytes, leValue_cons, ih, toNat_byte, pow_succ', Nat.mod_mul]

theorem leBytes_leValue (bytes : List UInt8) : leBytes bytes.length (leValue bytes) = bytes := by
  induction bytes with
  | nil => rfl
  | cons byte bytes ih =>
      have low : UInt8.ofNat (byte.toNat + 256 * leValue bytes) = byte := by
        apply UInt8.toNat.inj
        rw [toNat_byte]
        have := byte.toNat_lt
        omega
      have high : (byte.toNat + 256 * leValue bytes) / 256 = leValue bytes := by
        have := byte.toNat_lt
        omega
      rw [List.length_cons, leBytes, leValue_cons, low, high, ih]

theorem leValue_minimalBytes (n : Nat) : leValue (minimalBytes n) = n := by
  have digits : (Nat.digits 256 n).map (fun digit => (UInt8.ofNat digit).toNat) =
      Nat.digits 256 n := by
    conv_rhs => rw [← List.map_id (Nat.digits 256 n)]
    apply List.map_congr_left
    intro digit member
    rw [toNat_byte, id]
    exact Nat.mod_eq_of_lt (Nat.digits_lt_base (by decide) member)
  simp only [leValue, minimalBytes, List.map_map, Function.comp_def, digits,
    Nat.ofDigits_digits]

theorem minimalBytes_of_pos {n : Nat} (positive : 0 < n) :
    minimalBytes n = UInt8.ofNat n :: minimalBytes (n / 256) := by
  have low : UInt8.ofNat (n % 256) = UInt8.ofNat n := by
    apply UInt8.toNat.inj
    rw [toNat_byte, toNat_byte, Nat.mod_mod]
  rw [minimalBytes, Nat.digits_def' (by decide) positive, List.map_cons, low, minimalBytes]

theorem minimalBytes_eq_concat {n : Nat} (positive : 0 < n) :
    ∃ front top, minimalBytes n = front ++ [top] ∧ 0 < top.toNat := by
  have nonempty : Nat.digits 256 n ≠ [] := Nat.digits_ne_nil_iff_ne_zero.mpr (by omega)
  refine ⟨(Nat.digits 256 n).dropLast.map UInt8.ofNat,
    UInt8.ofNat ((Nat.digits 256 n).getLast nonempty), ?_, ?_⟩
  · rw [minimalBytes, ← List.map_singleton, ← List.map_append, List.dropLast_append_getLast]
  · have lastDigit := Nat.getLast_digit_ne_zero 256 (by omega : n ≠ 0)
    have small := Nat.digits_lt_base (by decide) (List.getLast_mem nonempty)
    rw [toNat_byte, Nat.mod_eq_of_lt small]
    omega

theorem length_minimalBytes_le {n width : Nat} (small : n < 256 ^ width) :
    (minimalBytes n).length ≤ width := by
  simpa only [minimalBytes, List.length_map] using
    (Nat.digits_length_le_iff (by decide) n).mpr small

theorem leValue_ofFn_getD {bytes : List UInt8} {width : Nat} (fits : bytes.length ≤ width) :
    leValue (List.ofFn fun i : Fin width => bytes.getD i 0) = leValue bytes := by
  have padded : (List.ofFn fun i : Fin width => bytes.getD i 0) =
      bytes ++ List.replicate (width - bytes.length) 0 := by
    apply List.ext_getElem
    · simp only [List.length_ofFn, List.length_append, List.length_replicate]
      omega
    · intro i inOfFn _
      simp only [List.getElem_ofFn, List.getD_eq_getElem?_getD]
      by_cases inside : i < bytes.length
      · rw [List.getElem_append_left inside, List.getElem?_eq_getElem inside, Option.getD_some]
      · rw [List.getElem_append_right (by omega), List.getElem_replicate,
          List.getElem?_eq_none (by omega), Option.getD_none]
  rw [padded, leValue_append]
  simp [leValue]

theorem sizeInBase2_lt_iff {n bits : Nat} (large : 1 < bits) :
    sizeInBase2 n < bits ↔ n < 2 ^ (bits - 1) := by
  unfold sizeInBase2
  split_ifs with zero
  · subst zero
    exact ⟨fun _ => Nat.two_pow_pos _, fun _ => large⟩
  · rw [Nat.lt_iff_le_pred (by omega), Nat.size_le]

end LittleEndian
