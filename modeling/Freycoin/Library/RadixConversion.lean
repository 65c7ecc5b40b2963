import Mathlib.Data.Nat.Digits.Lemmas
import Mathlib.Data.List.TakeWhile

/-! Conversion of digit strings between two radices, most significant digit first, keeping the
leading zeros. -/

namespace RadixConversion

/-- The number of a digit string, most significant digit first. -/
def bigEndianValue (radix : ℕ) (digits : List ℕ) : ℕ := Nat.ofDigits radix digits.reverse

/-- The shortest digits of `n`, most significant first: none for zero. -/
def shortestDigits (radix n : ℕ) : List ℕ := (Nat.digits radix n).reverse

def leadingZeros (digits : List ℕ) : ℕ := (digits.takeWhile (· = 0)).length

def convert (src dst : ℕ) (digits : List ℕ) : List ℕ :=
  List.replicate (leadingZeros digits) 0 ++ shortestDigits dst (bigEndianValue src digits)

section Value

variable {radix : ℕ}

@[simp] theorem bigEndianValue_nil : bigEndianValue radix [] = 0 := rfl

end Value

section Zeros

end Zeros

end RadixConversion
