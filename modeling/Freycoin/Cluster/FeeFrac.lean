import Mathlib.Data.Int.Notation
import Mathlib.Data.Nat.Notation

/-! `FeeFrac` of `util/feefrac.h`: a fee and a size, compared by feerate through cross
products.

Both builds of `Mul` and `Div` are kept, the `__int128` one and the portable fallback, as an
`Arith` each. An `__int128` product is an integer; its conversion to `int64_t` wraps. -/

namespace Freycoin.Cluster

/-- `FeeFrac` of `util/feefrac.h`; a `DepGraph` stores and copies it. -/
structure FeeFrac where
  fee : Int64
  size : Int32
  deriving DecidableEq, Repr

instance : Inhabited FeeFrac := ⟨⟨0, 0⟩⟩

namespace FeeFrac

/-- `MulFallback(a, b)`: the product as a signed high word and an unsigned low word. -/
def mulFallback (a : Int64) (b : Int32) : Int64 × UInt32 :=
  let low : Int64 := a.toUInt64.toUInt32.toUInt64.toInt64 * b.toInt64
  let high : Int64 := (a >>> 32) * b.toInt64
  (high + (low >>> 32), low.toUInt64.toUInt32)

/-- `(mod > 0) - (mod && round_down)`: the step from a truncated quotient to the rounding
asked for. -/
def roundingCorrection (mod : Int32) (roundDown : Bool) : Int64 :=
  (if 0 < mod then 1 else 0) - (if mod ≠ 0 ∧ roundDown then 1 else 0)

/-- `DivFallback(n, d, round_down)`: the high word divided first, then what is left of it with
the low word. -/
def divFallback (n : Int64 × UInt32) (d : Int32) (roundDown : Bool) : Int64 :=
  let quotHigh := n.1 / d.toInt64
  let nLow := ((n.1 % d.toInt64) <<< 32) + n.2.toUInt64.toInt64
  let quotLow := nLow / d.toInt64
  let modLow : Int32 := (nLow % d.toInt64).toInt32
  let quotLow := quotLow + roundingCorrection modLow roundDown
  (quotHigh <<< 32) + quotLow

/-- `Mul(a, b)` on `__int128`. -/
def mul (a : Int64) (b : Int32) : ℤ := a.toInt * b.toInt

/-- `Div(n, d, round_down)` on `__int128`. -/
def div (n : ℤ) (d : Int32) (roundDown : Bool) : Int64 :=
  let quot : Int64 := Int64.ofInt (n.tdiv d.toInt)
  let mod : Int32 := Int32.ofInt (n.tmod d.toInt)
  quot + roundingCorrection mod roundDown

/-- `std::pair`'s `<=>`: the first words, then the second. -/
def comparePair (x y : Int64 × UInt32) : Ordering := (compare x.1 y.1).then (compare x.2 y.2)

/-- The `Mul` and `Div` a build uses, over the product type `P` with its three-way
comparison. -/
structure Arith (P : Type) where
  mul : Int64 → Int32 → P
  div : P → Int32 → Bool → Int64
  cmp : P → P → Ordering

/-- The build with `__int128`. -/
def int128 : Arith ℤ := ⟨mul, div, compare⟩

/-- The build without it: `Mul = MulFallback`, `Div = DivFallback`. -/
def fallback : Arith (Int64 × UInt32) := ⟨mulFallback, divFallback, comparePair⟩

variable {P : Type} (arith : Arith P)

/-- `FeeRateCompare(a, b)`. -/
def feeRateCompare (a b : FeeFrac) : Ordering :=
  arith.cmp (arith.mul a.fee b.size) (arith.mul b.fee a.size)

/-- `a << b`: a strictly lower feerate. -/
def lowerFeerate (a b : FeeFrac) : Bool :=
  arith.cmp (arith.mul a.fee b.size) (arith.mul b.fee a.size) = .lt

/-- `a >> b`: a strictly higher feerate. -/
def higherFeerate (a b : FeeFrac) : Bool :=
  arith.cmp (arith.mul a.fee b.size) (arith.mul b.fee a.size) = .gt

/-- `a <=> b`: by feerate, then by decreasing size. -/
def threeWayCompare [DecidableEq P] (a b : FeeFrac) : Ordering :=
  let crossA := arith.mul a.fee b.size
  let crossB := arith.mul b.fee a.size
  if crossA = crossB then compare b.size a.size else arith.cmp crossA crossB

/-- The common case of `EvaluateFee`, `0 ≤ fee < 2 ^ 33`, where the product fits a
`uint64_t`. -/
def evaluateFeeFast (f : FeeFrac) (roundDown : Bool) (atSize : Int32) : Int64 :=
  if roundDown then (f.fee.toUInt64 * atSize.toInt64.toUInt64 / f.size.toUInt32.toUInt64).toInt64
  else
    ((f.fee.toUInt64 * atSize.toInt64.toUInt64 + f.size.toInt64.toUInt64 - 1) /
      f.size.toUInt32.toUInt64).toInt64

/-- `EvaluateFee<RoundDown>(at_size)`. -/
def evaluateFee (f : FeeFrac) (roundDown : Bool) (atSize : Int32) : Int64 :=
  if 0 ≤ f.fee ∧ f.fee < 0x200000000 then evaluateFeeFast f roundDown atSize
  else arith.div (arith.mul f.fee atSize) f.size roundDown

/-- `EvaluateFeeDown(at_size)`. -/
def evaluateFeeDown (f : FeeFrac) (atSize : Int32) : Int64 := evaluateFee arith f true atSize

/-- `EvaluateFeeUp(at_size)`. -/
def evaluateFeeUp (f : FeeFrac) (atSize : Int32) : Int64 := evaluateFee arith f false atSize

/-- `operator+`: fee and size summed. -/
def add (a b : FeeFrac) : FeeFrac := ⟨a.fee + b.fee, a.size + b.size⟩

/-- `operator-`: fee and size subtracted. -/
def sub (a b : FeeFrac) : FeeFrac := ⟨a.fee - b.fee, a.size - b.size⟩

instance : Add FeeFrac := ⟨add⟩

instance : Sub FeeFrac := ⟨sub⟩

end FeeFrac

/-- `std::partial_ordering`. -/
inductive PartialOrdering
  | less
  | equivalent
  | greater
  | unordered
deriving DecidableEq, Repr

/-- A `std::strong_ordering` read as a `std::partial_ordering`. -/
def PartialOrdering.ofOrdering : Ordering → PartialOrdering
  | .lt => .less
  | .eq => .equivalent
  | .gt => .greater

/-- One input of `CompareChunks`: the chunks from `next_index[dia]` on, and `accum[dia]`, the
sum of those before. -/
structure ChunkCursor where
  rest : List FeeFrac
  accum : FeeFrac

namespace ChunkCursor

/-- `next_point(dia)`: the first unprocessed point. -/
def nextPoint (c : ChunkCursor) : FeeFrac := c.rest.headD default + c.accum

/-- `advance(dia)`: the next chunk added into `accum`. -/
def advance (c : ChunkCursor) : ChunkCursor := ⟨c.rest.tail, c.accum + c.rest.headD default⟩

end ChunkCursor

/-- The variables of `CompareChunks`' loop: both inputs and `better_somewhere`. -/
structure ChunkState where
  c0 : ChunkCursor
  c1 : ChunkCursor
  better0 : Bool
  better1 : Bool

open FeeFrac

variable {P : Type} (arith : Arith P)

/-- One pass of `CompareChunks`' loop: its result where it returns, the next state otherwise.
`unprocSide` is `true` for diagram `1`; `p` and `o` are the inputs `unproc_side` and
`!unproc_side`. -/
def compareChunksStep (s : ChunkState) : PartialOrdering ⊕ ChunkState :=
  let done0 := s.c0.rest.isEmpty
  let done1 := s.c1.rest.isEmpty
  if done0 ∧ done1 then .inl (.ofOrdering (compare s.better0 s.better1))
  else
    let unprocSide : Bool :=
      if done0 ∨ done1 then done0 else decide (s.c1.nextPoint.size < s.c0.nextPoint.size)
    let p := if unprocSide then s.c1 else s.c0
    let o := if unprocSide then s.c0 else s.c1
    let pointP := p.nextPoint
    let pointA := o.accum
    let slopeAP := pointP - pointA
    let (cmp, o) :=
      if done0 ∨ done1 then (feeRateCompare arith slopeAP ⟨0, 1⟩, o)
      else
        let pointB := o.nextPoint
        let slopeAB := pointB - pointA
        (feeRateCompare arith slopeAP slopeAB, if pointB.size = pointP.size then o.advance else o)
    let betterP := (if unprocSide then s.better1 else s.better0) || cmp = .gt
    let betterO := (if unprocSide then s.better0 else s.better1) || cmp = .lt
    let p := p.advance
    let better0 := if unprocSide then betterO else betterP
    let better1 := if unprocSide then betterP else betterO
    if better0 ∧ better1 then .inl .unordered
    else .inr ⟨if unprocSide then o else p, if unprocSide then p else o, better0, better1⟩

/-- The `do … while (true)` loop, run for at most `fuel` passes. Every pass that goes on uses
up a chunk, so `CompareChunks` gives it one more pass than it has chunks. -/
def compareChunksLoop : ℕ → ChunkState → PartialOrdering
  | 0, _ => .unordered
  | fuel + 1, s =>
    match compareChunksStep arith s with
    | .inl result => result
    | .inr next => compareChunksLoop fuel next

/-- `CompareChunks(chunks0, chunks1)`. -/
def compareChunks (chunks0 chunks1 : List FeeFrac) : PartialOrdering :=
  compareChunksLoop arith (chunks0.length + chunks1.length + 1)
    ⟨⟨chunks0, ⟨0, 0⟩⟩, ⟨chunks1, ⟨0, 0⟩⟩, false, false⟩

end Freycoin.Cluster
