import Mathlib.Data.Int.Basic

/-! Base58 and Base58Check, as `base58.cpp` computes them.

Strings are their bytes, and the digit buffer is kept least significant digit first. `int size`
is the `size_t` product converted to `int` (modulo `2 ^ 32`); a negative size throws. A failed
`assert` is an error with its text, a `false` return is `none`, and the checksum hash is a
parameter. -/

namespace Freycoin.Base58

/-- All alphanumeric characters except for "0", "I", "O", and "l". -/
def pszBase58 : List UInt8 :=
  "123456789ABCDEFGHJKLMNPQRSTUVWXYZabcdefghijkmnopqrstuvwxyz".toList.map Char.toUInt8

/-- `IsSpace` of `util/strencodings.h`. -/
def isSpace (c : UInt8) : Bool :=
  c == 0x20 || c == 0x0c || c == 0x0a || c == 0x0d || c == 0x09 || c == 0x0b

/-- The inner loop of both directions, from the reverse iterator's position `i` on:
`carry += mult * (*it); *it = carry % radix; carry /= radix` while the carry is nonzero or
`i < length`, and while the buffer lasts. It returns the carry, `i` and the buffer. -/
def carryLoop (mult radix : ℕ) : ℕ → ℕ → ℕ → List ℕ → ℕ × ℕ × List ℕ
  | carry, i, _, [] => (carry, i, [])
  | carry, i, length, digit :: digits =>
    if carry ≠ 0 ∨ i < length then
      let r := carryLoop mult radix ((carry + mult * digit) / radix) (i + 1) length digits
      (r.1, r.2.1, (carry + mult * digit) % radix :: r.2.2)
    else (carry, i, digit :: digits)

/-- What `std::vector` throws for a size above `max_size()`, as a negative `int` becomes. -/
def vectorTooLong : String := "cannot create std::vector larger than max_size()"

/-- The loop over the bytes of `EncodeBase58`: "b58 = b58 * 256 + ch". -/
def encodeLoop : List UInt8 → ℕ → List ℕ → Except String (ℕ × List ℕ)
  | [], length, b58 => .ok (length, b58)
  | byte :: input, length, b58 =>
    let r := carryLoop 256 58 byte.toNat 0 length b58
    if r.1 ≠ 0 then .error "assert(carry == 0)"
    else encodeLoop input r.2.1 r.2.2

def encodeBase58 (input : List UInt8) : Except String (List UInt8) :=
  -- skip and count leading zeroes
  let zeroes := (input.takeWhile (· == 0)).length
  let input := input.dropWhile (· == 0)
  -- log(256) / log(58), rounded up, in an `int`
  let size := Int32.ofNat (input.length * 138 / 100 + 1)
  if size < 0 then .error vectorTooLong
  else
    match encodeLoop input 0 (List.replicate size.toNatClampNeg 0) with
    | .error e => .error e
    | .ok (length, b58) =>
      -- skip leading zeroes in the base58 result, from `b58.begin() + (size - length)`
      let digits := (b58.reverse.drop (size.toNatClampNeg - length)).dropWhile (· == 0)
      .ok (List.replicate zeroes '1'.toUInt8 ++ digits.map (pszBase58.getD · 0))

end Freycoin.Base58
