import Freycoin.Library.LittleEndian

/-! SipHash-2-4 of `crypto/siphash.cpp`: `CSipHasher`, and the specialized `SipHashUint256` and
`SipHashUint256Extra` for a `uint256`.

The state is the four words `v[0..3]`; `compress` is the `v3 ^= m`, two `SIPROUND`s, `v0 ^= m`
that the source writes out inline. A `uint256` is its 32 bytes. -/

namespace Freycoin.Crypto

open LittleEndian

/-- `std::rotl(x, s)` for `0 < s < 64`. -/
def rotl (x : UInt64) (s : ℕ) : UInt64 := (x <<< s.toUInt64) ||| (x >>> (64 - s).toUInt64)

/-- The four words `v0, v1, v2, v3`. -/
structure SipState where
  v0 : UInt64
  v1 : UInt64
  v2 : UInt64
  v3 : UInt64
  deriving DecidableEq, Repr

/-- `SIPROUND`. -/
def sipRound (v : SipState) : SipState :=
  let v0 := v.v0 + v.v1
  let v1 := rotl v.v1 13
  let v1 := v1 ^^^ v0
  let v0 := rotl v0 32
  let v2 := v.v2 + v.v3
  let v3 := rotl v.v3 16
  let v3 := v3 ^^^ v2
  let v0 := v0 + v3
  let v3 := rotl v3 21
  let v3 := v3 ^^^ v0
  let v2 := v2 + v1
  let v1 := rotl v1 17
  let v1 := v1 ^^^ v2
  let v2 := rotl v2 32
  ⟨v0, v1, v2, v3⟩

/-- A word of message: `v3 ^= m; SIPROUND; SIPROUND; v0 ^= m;`. -/
def compress (v : SipState) (m : UInt64) : SipState :=
  let v := sipRound (sipRound { v with v3 := v.v3 ^^^ m })
  { v with v0 := v.v0 ^^^ m }

/-- The end of `Finalize` and of the specialized functions: `v2 ^= 0xFF`, four `SIPROUND`s, and
the four words xor-ed. -/
def finish (v : SipState) : UInt64 :=
  let v := sipRound (sipRound (sipRound (sipRound { v with v2 := v.v2 ^^^ 0xFF })))
  v.v0 ^^^ v.v1 ^^^ v.v2 ^^^ v.v3

/-- The state the constructor sets from the key `(k0, k1)`. -/
def initState (k0 k1 : UInt64) : SipState :=
  ⟨0x736f6d6570736575 ^^^ k0, 0x646f72616e646f6d ^^^ k1, 0x6c7967656e657261 ^^^ k0,
    0x7465646279746573 ^^^ k1⟩

/-- `CSipHasher`: the state, `tmp` holding the bytes of an unfinished word, and `count`. -/
structure CSipHasher where
  v : SipState
  tmp : UInt64
  count : UInt8

namespace CSipHasher

/-- `CSipHasher(k0, k1)`. -/
def init (k0 k1 : UInt64) : CSipHasher := ⟨initState k0 k1, 0, 0⟩

/-- `Write(uint64_t data)`, for use when a multiple of 8 bytes have been written so far (the
source asserts it). -/
def writeUInt64 (h : CSipHasher) (data : UInt64) : CSipHasher := ⟨compress h.v data, h.tmp, h.count + 8⟩

/-- One pass of the loop of `Write(span)`: the byte goes into `tmp` at its place in the word, and
a full word is compressed. -/
def writeByte (h : CSipHasher) (byte : UInt8) : CSipHasher :=
  let t := h.tmp ||| (byte.toUInt64 <<< (8 * (h.count % 8)).toUInt64)
  let c := h.count + 1
  if c &&& 7 = 0 then ⟨compress h.v t, 0, c⟩ else ⟨h.v, t, c⟩

/-- `Write(std::span<const unsigned char> data)`. -/
def write (h : CSipHasher) (data : List UInt8) : CSipHasher := data.foldl writeByte h

/-- `Finalize()`: the last word holds the bytes of the unfinished one and, in its top byte, the
low 8 bits of the length. -/
def finalize (h : CSipHasher) : UInt64 := finish (compress h.v (h.tmp ||| (h.count.toUInt64 <<< 56)))

end CSipHasher

/-- `uint256::GetUint64(pos)`: the little-endian word at byte `8 * pos`. -/
def getUint64 (val : Vector UInt8 32) (pos : ℕ) : UInt64 :=
  UInt64.ofNat (leValue ((val.toList.drop (8 * pos)).take 8))

/-- `SipHashUint256(k0, k1, val)`. The first word is xor-ed into `v3` with the key, which is
`compress` of the initial state. -/
def sipHashUint256 (k0 k1 : UInt64) (val : Vector UInt8 32) : UInt64 :=
  let v := compress (initState k0 k1) (getUint64 val 0)
  let v := compress v (getUint64 val 1)
  let v := compress v (getUint64 val 2)
  let v := compress v (getUint64 val 3)
  let v := compress v ((4 : UInt64) <<< 59)
  finish v

/-- `SipHashUint256Extra(k0, k1, val, extra)`. -/
def sipHashUint256Extra (k0 k1 : UInt64) (val : Vector UInt8 32) (extra : UInt32) : UInt64 :=
  let v := compress (initState k0 k1) (getUint64 val 0)
  let v := compress v (getUint64 val 1)
  let v := compress v (getUint64 val 2)
  let v := compress v (getUint64 val 3)
  let v := compress v (((36 : UInt64) <<< 56) ||| extra.toUInt64)
  finish v

end Freycoin.Crypto
