import Freycoin.Cluster.SearchCandidateFinder
import Freycoin.Cluster.LinearizationChunking

/-! `Linearize` of `cluster_linearize.h`.

The locals the loop changes are a record, and one pass returns it with whether it ended with
`break`. The counters are `UInt64`. -/

namespace Freycoin.Cluster

/-- The locals of `Linearize` that its loop updates. -/
structure LinearizeState where
  iterationsLeft : UInt64
  linearization : List ℕ
  ancFinder : AncestorCandidateFinder
  srcFinder : Option SearchCandidateFinder
  optimal : Bool
  oldChunking : LinearizationChunking

namespace LinearizeState

variable {P : Type} (arith : FeeFrac.Arith P) [DecidableEq P] (depgraph : DepGraph)

/-- The start of a pass: the highest-feerate prefix of the remainder of the old linearization,
then `best` either the best remaining ancestor set or that first chunk. -/
def initialBest (s : LinearizeState) : SetInfo :=
  let bestPrefix : SetInfo := if 0 < s.oldChunking.numChunksLeft then s.oldChunking.getChunk 0 else default
  let best := s.ancFinder.findCandidateSet depgraph arith
  if bestPrefix.feerate.size ≠ 0 ∧ FeeFrac.threeWayCompare arith bestPrefix.feerate best.feerate ≠ .lt then
    bestPrefix
  else best

/-- The bounded search of a pass: with a `SearchCandidateFinder` and more iterations left than the
`N/4` its invocation is charged up front, it improves on `best` with up to half of the rest.
Returns the new best, the iterations done and the limit, and the updated budget and finder. -/
def search (s : LinearizeState) (best : SetInfo) : (SetInfo × UInt64 × UInt64) × LinearizeState :=
  match s.srcFinder with
  | none => ((best, 0, 0), s)
  | some finder =>
    let baseIterations : UInt64 := UInt64.ofNat ((s.ancFinder.numRemaining + 3) / 4)
    if baseIterations < s.iterationsLeft then
      let iterationsLeft := s.iterationsLeft - baseIterations
      let maxIterationsNow := (iterationsLeft + 1) / 2
      let found := finder.findCandidateSet arith maxIterationsNow.toNat best
      let iterationsDoneNow := UInt64.ofNat found.1.2
      ((found.1.1, iterationsDoneNow, maxIterationsNow),
        { s with iterationsLeft := iterationsLeft - iterationsDoneNow, srcFinder := some found.2 })
    else ((best, 0, 0), s)

/-- `best` after the search of a pass: where the search used all it was allowed, or did not run,
it is intersected with the prefixes of the old chunks, so as not to cut across them. -/
def finishBest (searched : (SetInfo × UInt64 × UInt64) × LinearizeState) : SetInfo :=
  if searched.1.2.1 = searched.1.2.2 ∧ 0 < searched.2.oldChunking.numChunksLeft then
    searched.2.oldChunking.intersectPrefixes arith depgraph searched.1.1
  else searched.1.1

/-- One pass of the `while (true)` loop, and whether it ends with `break`. -/
def step (s : LinearizeState) : LinearizeState × Bool :=
  let searched := s.search arith (s.initialBest arith depgraph)
  let best := finishBest arith depgraph searched
  let s := searched.2
  let optimal := if searched.1.2.1 = searched.1.2.2 then false else s.optimal
  let linearization := depgraph.appendTopo s.linearization best.transactions
  let ancFinder := s.ancFinder.markDone depgraph best.transactions
  if ancFinder.allDone then
    ({ s with linearization := linearization, ancFinder := ancFinder, optimal := optimal }, true)
  else
    let oldChunking := if 0 < s.oldChunking.numChunksLeft then
        s.oldChunking.markDone arith depgraph best.transactions
      else s.oldChunking
    (⟨s.iterationsLeft, linearization, ancFinder, s.srcFinder.map (·.markDone best.transactions), optimal,
      oldChunking⟩, false)

/-- The loop, for at most `fuel` passes. -/
def loop : ℕ → LinearizeState → LinearizeState
  | 0, s => s
  | fuel + 1, s =>
    let next := s.step arith depgraph
    if next.2 then next.1 else loop fuel next.1

end LinearizeState

variable {P : Type} (arith : FeeFrac.Arith P) [DecidableEq P] (depgraph : DepGraph)

/-- `Linearize(depgraph, max_iterations, rng_seed, old_linearization)`: the linearization, whether
it is known to be optimal, and the iterations spent. The constructor of `SearchCandidateFinder` is
charged `N²/64` iterations, and it is not built without that many. Every pass takes at least one
transaction out, so `TxCount()` passes are enough. -/
def linearize (maxIterations rngSeed : UInt64) (oldLinearization : List ℕ) : List ℕ × Bool × UInt64 :=
  if depgraph.txCount = 0 then ([], true, 0)
  else
    let startIterations : UInt64 :=
      (UInt64.ofNat depgraph.txCount * UInt64.ofNat depgraph.txCount + 63) / 64
    let s : LinearizeState := ⟨maxIterations, [], AncestorCandidateFinder.init depgraph, none, true,
      LinearizationChunking.init arith depgraph oldLinearization⟩
    let s := if startIterations < s.iterationsLeft then
        { s with iterationsLeft := s.iterationsLeft - startIterations,
                 srcFinder := some (SearchCandidateFinder.init arith depgraph rngSeed) }
      else s
    let s := LinearizeState.loop arith depgraph depgraph.txCount s
    (s.linearization, s.optimal, maxIterations - s.iterationsLeft)

/-- The locals of `MergeLinearizations` that its loop updates: the output and the chunkings of
what remains of both inputs. -/
structure MergeState where
  ret : List ℕ
  chunking1 : LinearizationChunking
  chunking2 : LinearizationChunking

namespace MergeState

variable {P : Type} (arith : FeeFrac.Arith P) [DecidableEq P] (depgraph : DepGraph)

/-- One pass of the `while (true)` loop of `MergeLinearizations`, and whether it ends with
`break`: the best first chunk, intersected with the prefixes of the other input's chunks. -/
def step (s : MergeState) : MergeState × Bool :=
  let lin1Firstchunk := s.chunking1.getChunk 0
  let lin2Firstchunk := s.chunking2.getChunk 0
  let best := if FeeFrac.higherFeerate arith lin2Firstchunk.feerate lin1Firstchunk.feerate then
      s.chunking1.intersectPrefixes arith depgraph lin2Firstchunk
    else s.chunking2.intersectPrefixes arith depgraph lin1Firstchunk
  let ret := depgraph.appendTopo s.ret best.transactions
  let chunking1 := s.chunking1.markDone arith depgraph best.transactions
  if chunking1.numChunksLeft = 0 then (⟨ret, chunking1, s.chunking2⟩, true)
  else (⟨ret, chunking1, s.chunking2.markDone arith depgraph best.transactions⟩, false)

/-- The loop, for at most `fuel` passes. -/
def loop : ℕ → MergeState → MergeState
  | 0, s => s
  | fuel + 1, s =>
    let next := s.step arith depgraph
    if next.2 then next.1 else loop fuel next.1

end MergeState

/-- `MergeLinearizations(depgraph, lin1, lin2)`. Every pass takes at least one transaction out, so
`TxCount()` passes are enough. -/
def mergeLinearizations (lin1 lin2 : List ℕ) : List ℕ :=
  let chunking1 := LinearizationChunking.init arith depgraph lin1
  let chunking2 := LinearizationChunking.init arith depgraph lin2
  if depgraph.txCount = 0 then []
  else (MergeState.loop arith depgraph depgraph.txCount ⟨[], chunking1, chunking2⟩).ret

end Freycoin.Cluster
