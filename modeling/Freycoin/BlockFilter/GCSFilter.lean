import Freycoin.Util.GolombRice
import Freycoin.Util.FastRange
import Freycoin.Crypto.SipHash
import Freycoin.Serialize.CompactSize

/-! `GCSFilter` of `blockfilter.cpp`, the Golomb-coded set of BIP 158.

An `ElementSet` is a list of byte vectors, iterated in its order. The streams are a
`VectorWriter` and a `SpanReader` on the encoding, and an exception is its text. -/

namespace Freycoin.BlockFilter

open Freycoin.Serialize Freycoin.Util Freycoin.Crypto

/-- `GCSFilter::Params`, with the defaults of its constructor. -/
structure GCSFilter.Params where
  siphashK0 : UInt64 := 0
  siphashK1 : UInt64 := 0
  P : UInt8 := 0
  M : UInt32 := 1

/-- `GCSFilter`: the params, `m_N`, `m_F` and `m_encoded`. -/
structure GCSFilter where
  params : GCSFilter.Params
  N : UInt32
  F : UInt64
  encoded : List UInt8

/-- `BASIC_FILTER_P`. -/
def basicFilterP : UInt8 := 19

/-- `BASIC_FILTER_M`. -/
def basicFilterM : UInt32 := 784931

/-- What the constructors throw for more than `2 ^ 32 - 1` elements. -/
def nTooLarge : String := "N must be <2^32"

/-- What the decode check throws when bytes follow the `N` codes. -/
def excessData : String := "encoded_filter contains excess data"

/-- `ReadCompactSize(stream)` on a `SpanReader`, whose read past the end throws its own text. -/
def readCompactSizeSpan (stream : List UInt8) : Except String (UInt64 × List UInt8) :=
  match readCompactSize true stream with
  | .error e => .error (if e = endOfData then spanEndOfData else e)
  | .ok result => .ok result

namespace GCSFilter

/-- `HashToRange(element)`, for the params and `m_F` of the filter. -/
def hashToRange (params : Params) (F : UInt64) (element : List UInt8) : UInt64 :=
  fastRange64 ((CSipHasher.init params.siphashK0 params.siphashK1).write element).finalize F

/-- `BuildHashedSet(elements)`: the hashes, sorted. -/
def buildHashedSet (params : Params) (F : UInt64) (elements : List (List UInt8)) : List UInt64 :=
  (elements.map (hashToRange params F)).mergeSort fun a b => decide (a ≤ b)

/-- `GCSFilter(params)`, the empty filter: `m_encoded{0}` is the CompactSize of no elements. -/
def empty (params : Params) : GCSFilter := ⟨params, 0, 0, [0]⟩

/-- The loop of the constructor from elements: the difference of each hash from the one before,
Golomb-Rice coded. -/
def encodeDeltas (P : UInt8) : BitStreamWriter → UInt64 → List UInt64 → Except String BitStreamWriter
  | bitwriter, _, [] => .ok bitwriter
  | bitwriter, lastValue, value :: values => do
    let bitwriter ← golombRiceEncode bitwriter P (value - lastValue)
    encodeDeltas P bitwriter value values

/-- `GCSFilter(params, elements)`. -/
def ofElements (params : Params) (elements : List (List UInt8)) : Except String GCSFilter :=
  let N := elements.length
  let mN := N.toUInt32
  if mN.toNat ≠ N then .error nTooLarge
  else
    let F := mN.toUInt64 * params.M.toUInt64
    let encoded := writeCompactSize mN.toUInt64
    if elements = [] then .ok ⟨params, mN, F, encoded⟩
    else do
      let bitwriter ← encodeDeltas params.P (BitStreamWriter.init encoded) 0
        (buildHashedSet params F elements)
      pure ⟨params, mN, F, bitwriter.flush.out⟩

/-- The loop of the decode check: `N` values decoded and dropped. -/
def decodeAll (P : UInt8) : ℕ → BitStreamReader → Except String BitStreamReader
  | 0, bitreader => .ok bitreader
  | n + 1, bitreader => do
    let (_, bitreader) ← golombRiceDecode bitreader P
    decodeAll P n bitreader

/-- `GCSFilter(params, encoded_filter, skip_decode_check)`. -/
def ofEncoded (params : Params) (encodedFilter : List UInt8) (skipDecodeCheck : Bool) :
    Except String GCSFilter := do
  let (N, stream) ← readCompactSizeSpan encodedFilter
  let mN := N.toUInt32
  if mN.toUInt64 ≠ N then throw nTooLarge
  let filter : GCSFilter := ⟨params, mN, mN.toUInt64 * params.M.toUInt64, encodedFilter⟩
  if skipDecodeCheck then return filter
  -- Verify that the encoded filter contains exactly N elements.
  let bitreader ← decodeAll params.P mN.toNat (BitStreamReader.init stream)
  if bitreader.input ≠ [] then throw excessData
  return filter

/-- The inner `while (true)` loop of `MatchInternal`: moves past the queries below `value`;
the answer if one is found or none is left, else the queries from the first above `value`. -/
def skipBelow (value : UInt64) : List UInt64 → Bool ⊕ List UInt64
  | [] => .inl false
  | hash :: hashes =>
    if hash = value then .inl true
    else if hash > value then .inr (hash :: hashes)
    else skipBelow value hashes

/-- The outer loop of `MatchInternal`, over the `N` values of the filter. -/
def matchLoop (P : UInt8) : ℕ → BitStreamReader → UInt64 → List UInt64 → Except String Bool
  | 0, _, _, _ => .ok false
  | n + 1, bitreader, value, hashes => do
    let (delta, bitreader) ← golombRiceDecode bitreader P
    let value := value + delta
    match skipBelow value hashes with
    | .inl found => .ok found
    | .inr hashes => matchLoop P n bitreader value hashes

/-- `MatchInternal(element_hashes, size)`, for sorted hashes. The source asserts that the
CompactSize read is `m_N`; it holds for every filter the constructors build. -/
def matchInternal (filter : GCSFilter) (elementHashes : List UInt64) : Except String Bool := do
  let (_, stream) ← readCompactSizeSpan filter.encoded
  matchLoop filter.params.P filter.N.toNat (BitStreamReader.init stream) 0 elementHashes

/-- `Match(element)`. -/
def matchElement (filter : GCSFilter) (element : List UInt8) : Except String Bool :=
  filter.matchInternal [hashToRange filter.params filter.F element]

/-- `MatchAny(elements)`. -/
def matchAny (filter : GCSFilter) (elements : List (List UInt8)) : Except String Bool :=
  filter.matchInternal (buildHashedSet filter.params filter.F elements)

end GCSFilter

end Freycoin.BlockFilter
