import Freycoin.Library.BlockBuffer

/-! SHA-256 as `crypto/sha256.cpp` computes it: the generic `Transform` over 64-byte chunks and
the hasher `CSHA256` with its buffer, `Write` and `Finalize`. -/

namespace Freycoin.Crypto

def Ch (x y z : UInt32) : UInt32 := z ^^^ (x &&& (y ^^^ z))

def Maj (x y z : UInt32) : UInt32 := (x &&& y) ||| (z &&& (x ||| y))

def Sigma0 (x : UInt32) : UInt32 :=
  (x >>> 2 ||| x <<< 30) ^^^ (x >>> 13 ||| x <<< 19) ^^^ (x >>> 22 ||| x <<< 10)

def Sigma1 (x : UInt32) : UInt32 :=
  (x >>> 6 ||| x <<< 26) ^^^ (x >>> 11 ||| x <<< 21) ^^^ (x >>> 25 ||| x <<< 7)

def sigma0 (x : UInt32) : UInt32 := (x >>> 7 ||| x <<< 25) ^^^ (x >>> 18 ||| x <<< 14) ^^^ (x >>> 3)

def sigma1 (x : UInt32) : UInt32 :=
  (x >>> 17 ||| x <<< 15) ^^^ (x >>> 19 ||| x <<< 13) ^^^ (x >>> 10)

/-- `Round(a, b, c, d, e, f, g, h, k)` on the variables in its roles, returned in the roles of
the next call `Round(h, a, b, c, d, e, f, g, ...)`. -/
def Round (v : Vector UInt32 8) (k : UInt32) : Vector UInt32 8 :=
  let t1 := v[7] + Sigma1 v[4] + Ch v[4] v[5] v[6] + k
  let t2 := Sigma0 v[0] + Maj v[0] v[1] v[2]
  -- `d += t1; h = t1 + t2;`
  #v[t1 + t2, v[0], v[1], v[2], v[3] + t1, v[4], v[5], v[6]]

/-- The eight words `Initialize(s)` sets. -/
def initialState : Vector UInt32 8 :=
  #v[0x6a09e667, 0xbb67ae85, 0x3c6ef372, 0xa54ff53a, 0x510e527f, 0x9b05688c, 0x1f83d9ab,
    0x5be0cd19]

/-- The constants the 64 calls of `Round` add, in order. -/
def roundConstants : Vector UInt32 64 :=
  #v[0x428a2f98, 0x71374491, 0xb5c0fbcf, 0xe9b5dba5, 0x3956c25b, 0x59f111f1, 0x923f82a4,
    0xab1c5ed5, 0xd807aa98, 0x12835b01, 0x243185be, 0x550c7dc3, 0x72be5d74, 0x80deb1fe,
    0x9bdc06a7, 0xc19bf174, 0xe49b69c1, 0xefbe4786, 0x0fc19dc6, 0x240ca1cc, 0x2de92c6f,
    0x4a7484aa, 0x5cb0a9dc, 0x76f988da, 0x983e5152, 0xa831c66d, 0xb00327c8, 0xbf597fc7,
    0xc6e00bf3, 0xd5a79147, 0x06ca6351, 0x14292967, 0x27b70a85, 0x2e1b2138, 0x4d2c6dfc,
    0x53380d13, 0x650a7354, 0x766a0abb, 0x81c2c92e, 0x92722c85, 0xa2bfe8a1, 0xa81a664b,
    0xc24b8b70, 0xc76c51a3, 0xd192e819, 0xd6990624, 0xf40e3585, 0x106aa070, 0x19a4c116,
    0x1e376c08, 0x2748774c, 0x34b0bcb5, 0x391c0cb3, 0x4ed8aa4a, 0x5b9cca4f, 0x682e6ff3,
    0x748f82ee, 0x78a5636f, 0x84c87814, 0x8cc70208, 0x90befffa, 0xa4506ceb, 0xbef9a3f7,
    0xc67178f2]

/-- `ReadBE32` of `crypto/common.h`. -/
def ReadBE32 (ptr : List UInt8) : UInt32 :=
  (ptr.getD 0 0).toUInt32 <<< 24 ||| (ptr.getD 1 0).toUInt32 <<< 16 |||
    (ptr.getD 2 0).toUInt32 <<< 8 ||| (ptr.getD 3 0).toUInt32

def WriteBE32 (x : UInt32) : List UInt8 :=
  [(x >>> 24).toUInt8, (x >>> 16).toUInt8, (x >>> 8).toUInt8, x.toUInt8]

def WriteBE64 (x : UInt64) : List UInt8 :=
  [(x >>> 56).toUInt8, (x >>> 48).toUInt8, (x >>> 40).toUInt8, (x >>> 32).toUInt8,
    (x >>> 24).toUInt8, (x >>> 16).toUInt8, (x >>> 8).toUInt8, x.toUInt8]

/-- The slot of the window that round `i` reads its word from and writes it back to. -/
def slot (i : ℕ) : Fin 16 := ⟨i % 16, Nat.mod_lt _ (by decide)⟩

/-- The word round `i` adds: `w_i = ReadBE32(chunk + 4 i)` for the first sixteen, then
`w_(i mod 16) += sigma1(w_(i - 2)) + w_(i - 7) + sigma0(w_(i - 15))`. -/
def scheduleWord (chunk : List UInt8) (w : Vector UInt32 16) (i : ℕ) : UInt32 :=
  if i < 16 then ReadBE32 (chunk.drop (4 * i))
  else w.get (slot i) + (sigma1 (w.get (slot (i + 14))) + w.get (slot (i + 9)) +
    sigma0 (w.get (slot (i + 1))))

/-- One pass of the loop of `Transform`: the 64 rounds, then `s[j] += ` each variable. The last
two rounds of the source add their word without storing it, which nothing reads after. -/
def transformChunk (s : Vector UInt32 8) (chunk : List UInt8) : Vector UInt32 8 :=
  let rounds := (List.finRange 64).foldl
    (fun (state : Vector UInt32 8 × Vector UInt32 16) (i : Fin 64) =>
      let word := scheduleWord chunk state.2 i
      (Round state.1 (roundConstants[i] + word), state.2.set (slot i) word))
    (s, Vector.replicate 16 0)
  Vector.zipWith (· + ·) s rounds.1

/-- `Transform(s, chunk, blocks)`: `while (blocks--)` over consecutive 64-byte chunks. -/
def Transform (s : Vector UInt32 8) (chunk : List UInt8) (blocks : ℕ) : Vector UInt32 8 :=
  BlockBuffer.foldBlocks transformChunk 64 s chunk blocks

structure CSHA256 where
  s : Vector UInt32 8
  buf : List UInt8
  bytes : UInt64

namespace CSHA256

/-- `CSHA256()`: `Initialize(s)` and `bytes{0}`; nothing is in the buffer yet. -/
def init : CSHA256 := ⟨initialState, [], 0⟩

/-- The first block of `Write`: a buffered tail that the input completes to 64 bytes is
filled and processed. Returns the hasher, the input left and the new `bufsize`. -/
def fillBuffer (sha : CSHA256) (data : List UInt8) (bufsize : ℕ) : CSHA256 × List UInt8 × ℕ :=
  if bufsize ≠ 0 ∧ 64 ≤ bufsize + data.length then
    let buf := sha.buf.take bufsize ++ data.take (64 - bufsize)
    (⟨Transform sha.s buf 1, buf, sha.bytes + UInt64.ofNat (64 - bufsize)⟩,
      data.drop (64 - bufsize), 0)
  else (sha, data, bufsize)

/-- The second block: whole chunks are processed straight from the input. -/
def transformChunks (sha : CSHA256) (data : List UInt8) : CSHA256 × List UInt8 :=
  if 64 ≤ data.length then
    let blocks := data.length / 64
    (⟨Transform sha.s data blocks, sha.buf, sha.bytes + UInt64.ofNat (64 * blocks)⟩,
      data.drop (64 * blocks))
  else (sha, data)

/-- The last block: what remains is copied into the buffer at `bufsize`. -/
def bufferRest (sha : CSHA256) (data : List UInt8) (bufsize : ℕ) : CSHA256 :=
  if data ≠ [] then
    ⟨sha.s, sha.buf.take bufsize ++ data, sha.bytes + UInt64.ofNat data.length⟩
  else sha

def write (sha : CSHA256) (data : List UInt8) : CSHA256 :=
  let filled := fillBuffer sha data (sha.bytes % 64).toNat
  let chunked := transformChunks filled.1 filled.2.1
  bufferRest chunked.1 chunked.2 filled.2.2

/-- `static const unsigned char pad[64] = {0x80};` -/
def pad : List UInt8 := 0x80 :: List.replicate 63 0

/-- The eight `WriteBE32` of `Finalize` into the hash. -/
def digest (s : Vector UInt32 8) : Vector UInt8 32 :=
  ⟨(List.ofFn fun j : Fin 8 => WriteBE32 s[j]).flatten.toArray, by simp [WriteBE32]⟩

def finalize (sha : CSHA256) : Vector UInt8 32 :=
  let sizedesc := WriteBE64 (sha.bytes <<< 3)
  let sha := sha.write (pad.take (1 + ((119 - sha.bytes % 64) % 64)).toNat)
  let sha := sha.write sizedesc
  digest sha.s

end CSHA256

/-- SHA-256 of `data` with one `CSHA256`, as each of the two passes of `CHash256` runs it. -/
def sha256 (data : List UInt8) : Vector UInt8 32 := (CSHA256.init.write data).finalize

example : (sha256 [0x61, 0x62, 0x63]).toList =
    [0xba, 0x78, 0x16, 0xbf, 0x8f, 0x01, 0xcf, 0xea, 0x41, 0x41, 0x40, 0xde, 0x5d, 0xae, 0x22,
      0x23, 0xb0, 0x03, 0x61, 0xa3, 0x96, 0x17, 0x7a, 0x9c, 0xb4, 0x10, 0xff, 0x61, 0xf2, 0x00,
      0x15, 0xad] := by
  decide +kernel

end Freycoin.Crypto
