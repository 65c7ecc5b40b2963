import Mathlib.Data.Nat.Notation

/-! `InsecureRandomContext` of `random.h`: xoroshiro128++ seeded by SplitMix64, with the bit
buffer of `RandomMixin` that `randbits` draws single bits from.

Every word is a `uint64_t` and wraps. -/

namespace Freycoin.Util

/-- `InsecureRandomContext`: the generator's two words and the mixin's buffer of unused bits. -/
structure InsecureRandomContext where
  s0 : UInt64
  s1 : UInt64
  bitbuf : UInt64
  bitbufSize : ℕ

namespace InsecureRandomContext

/-- `SplitMix64(seedval)`: the output, and the advanced `seedval`. -/
def splitMix64 (seedval : UInt64) : UInt64 × UInt64 :=
  let seedval := seedval + 0x9e3779b97f4a7c15
  let z := seedval
  let z := (z ^^^ (z >>> 30)) * 0xbf58476d1ce4e5b9
  let z := (z ^^^ (z >>> 27)) * 0x94d049bb133111eb
  (z ^^^ (z >>> 31), seedval)

/-- `InsecureRandomContext(seedval)`: two SplitMix64 outputs, and an empty bit buffer. -/
def ofSeed (seedval : UInt64) : InsecureRandomContext :=
  let first := splitMix64 seedval
  let second := splitMix64 first.2
  ⟨first.1, second.1, 0, 0⟩

/-- `std::rotl(x, k)` for `0 < k < 64`. -/
def rotl (x k : UInt64) : UInt64 := (x <<< k) ||| (x >>> (64 - k))

/-- `rand64()`: the output, and the next state. -/
def rand64 (r : InsecureRandomContext) : UInt64 × InsecureRandomContext :=
  let s0 := r.s0
  let s1 := r.s1
  let result := rotl (s0 + s1) 17 + s0
  let s1 := s1 ^^^ s0
  (result, { r with s0 := rotl s0 49 ^^^ s1 ^^^ (s1 <<< 21), s1 := rotl s1 28 })

/-- `randbool()`, which is `randbits<1>()`: the next bit of the buffer, refilled from `rand64`
when it is empty. -/
def randbool (r : InsecureRandomContext) : Bool × InsecureRandomContext :=
  if 1 ≤ r.bitbufSize then
    (r.bitbuf &&& 1 != 0, { r with bitbuf := r.bitbuf >>> 1, bitbufSize := r.bitbufSize - 1 })
  else
    let generated := r.rand64
    let gen := generated.1
    let ret := (gen <<< r.bitbufSize.toUInt64) ||| r.bitbuf
    (ret &&& 1 != 0,
      { generated.2 with bitbuf := gen >>> (1 - r.bitbufSize).toUInt64, bitbufSize := 64 + r.bitbufSize - 1 })

end InsecureRandomContext

end Freycoin.Util
