import Freycoin.Serialize.BitStream

/-! `GolombRiceEncode` and `GolombRiceDecode` of `util/golombrice.h`: a value is its quotient by
`2 ^ P` in unary, ones closed by a zero, then its `P` low bits.

A read past the end of the stream throws; shift amounts are read modulo 64. -/

namespace Freycoin.Util

open Freycoin.Serialize

/-- The `while (q > 0)` loop of `GolombRiceEncode`: `q` ones, 64 at a time while more are left.
Each pass writes at least one, so `q` passes are enough. -/
def writeUnary : ℕ → BitStreamWriter → UInt64 → Except String BitStreamWriter
  | 0, bitwriter, _ => .ok bitwriter
  | fuel + 1, bitwriter, q =>
    if 0 < q then do
      let nbits := if q ≤ 64 then q.toNat else 64
      let bitwriter ← bitwriter.write (~~~0) nbits
      writeUnary fuel bitwriter (q - nbits.toUInt64)
    else .ok bitwriter

/-- `GolombRiceEncode(bitwriter, P, x)`. -/
def golombRiceEncode (bitwriter : BitStreamWriter) (P : UInt8) (x : UInt64) :
    Except String BitStreamWriter := do
  -- Write quotient as unary-encoded: q 1's followed by one 0.
  let q := x >>> P.toUInt64
  let bitwriter ← writeUnary q.toNat bitwriter q
  let bitwriter ← bitwriter.write 0 1
  -- Write the remainder in P bits.
  bitwriter.write x P.toNat

/-- The `while (bitreader.Read(1) == 1)` loop of `GolombRiceDecode`: counts the ones up to the
first zero. -/
def readUnary : ℕ → BitStreamReader → UInt64 → Except String (UInt64 × BitStreamReader)
  | 0, bitreader, q => .ok (q, bitreader)
  | fuel + 1, bitreader, q => do
    let (bit, bitreader) ← bitreader.read 1
    if bit = 1 then readUnary fuel bitreader (q + 1) else .ok (q, bitreader)

/-- `GolombRiceDecode(bitreader, P)`. -/
def golombRiceDecode (bitreader : BitStreamReader) (P : UInt8) :
    Except String (UInt64 × BitStreamReader) := do
  -- each pass reads one bit, and a read past the end throws: the pass after the last bit throws
  let (q, bitreader) ← readUnary (bitreader.bitsLeft + 1) bitreader 0
  let (r, bitreader) ← bitreader.read P.toNat
  pure ((q <<< P.toUInt64) + r, bitreader)

end Freycoin.Util
