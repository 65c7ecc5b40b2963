import Freycoin.Cluster.CandidateFinder

/-! `ChunkLinearization` and `LinearizationChunking` of `cluster_linearize.h`. -/

namespace Freycoin.Cluster

variable {P : Type} (arith : FeeFrac.Arith P)

/-- The `while` loop and the `push_back` of `ChunkLinearization`. -/
def pushFeerate (ret : List FeeFrac) (newChunk : FeeFrac) : List FeeFrac :=
  if nonempty : ret ≠ [] then
    -- As long as the new chunk has a higher feerate than the last chunk so far, absorb it.
    if FeeFrac.higherFeerate arith newChunk (ret.getLast nonempty) then
      pushFeerate ret.dropLast (newChunk + ret.getLast nonempty)
    else ret ++ [newChunk]
  else ret ++ [newChunk]
termination_by ret.length
decreasing_by
  rw [List.length_dropLast]
  exact Nat.sub_lt (List.length_pos_iff.mpr nonempty) Nat.one_pos

/-- `ChunkLinearization(depgraph, linearization)`: the feerates of the chunks. -/
def chunkLinearization (depgraph : DepGraph) (linearization : List ℕ) : List FeeFrac :=
  linearization.foldl (fun ret i => pushFeerate arith ret (depgraph.feeRate i)) []

/-- The `while` loop and the `push_back` of `BuildChunks`: the new chunk absorbs existing final
chunks while they have lower feerate. -/
def pushChunk (chunks : List SetInfo) (add : SetInfo) : List SetInfo :=
  if nonempty : chunks ≠ [] then
    if FeeFrac.higherFeerate arith add.feerate (chunks.getLast nonempty).feerate then
      pushChunk chunks.dropLast (add.orAssign (chunks.getLast nonempty))
    else chunks ++ [add]
  else chunks ++ [add]
termination_by chunks.length
decreasing_by
  rw [List.length_dropLast]
  exact Nat.sub_lt (List.length_pos_iff.mpr nonempty) Nat.one_pos

/-- `LinearizationChunking`: `m_linearization`, `m_chunks`, `m_chunks_skip` and `m_todo`; the graph
is a parameter of each method. -/
structure LinearizationChunking where
  linearization : List ℕ
  chunks : List SetInfo
  chunksSkip : ℕ
  todo : Finset ℕ

namespace LinearizationChunking

variable (depgraph : DepGraph)

/-- `BuildChunks()`, onto the chunks it is given (`Assume(m_chunks.empty())`). -/
def buildChunks (c : LinearizationChunking) : LinearizationChunking :=
  -- Chop off the initial part of m_linearization that is already done.
  let linearization := c.linearization.dropWhile fun i => decide (i ∉ c.todo)
  let chunks := linearization.foldl (fun chunks idx =>
    if idx ∈ c.todo then pushChunk arith chunks (SetInfo.ofPosition depgraph idx) else chunks) c.chunks
  { c with linearization := linearization, chunks := chunks }

/-- The constructor: everything in `lin` is still to do. -/
def init (lin : List ℕ) : LinearizationChunking :=
  buildChunks arith depgraph ⟨lin, [], 0, lin.foldl (fun todo i => insert i todo) ∅⟩

def numChunksLeft (c : LinearizationChunking) : ℕ := c.chunks.length - c.chunksSkip

def getChunk (c : LinearizationChunking) (n : ℕ) : SetInfo := c.chunks.getD (n + c.chunksSkip) default

def markDone (c : LinearizationChunking) (subset : Finset ℕ) : LinearizationChunking :=
  let c := { c with todo := c.todo \ subset }
  if (c.getChunk 0).transactions = subset then
    -- the first chunk is done: skip it, and at least as many transactions of the linearization
    { c with chunksSkip := c.chunksSkip + 1, linearization := c.linearization.drop subset.card }
  else buildChunks arith depgraph { c with chunks := [], chunksSkip := 0 }

/-- The loop of `IntersectPrefixes` over the chunks left, with the accumulator. -/
def intersectLoop (subset : SetInfo) : List SetInfo → SetInfo → SetInfo
  | [], _ => subset
  | chunk :: rest, accumulator =>
    let toAdd := chunk.transactions ∩ subset.transactions
    if toAdd.Nonempty then
      let transactions := accumulator.transactions ∪ toAdd
      -- hitting all of subset: no shorter intersection, so subset itself
      if transactions = subset.transactions then subset
      else
        let accumulator : SetInfo := ⟨transactions, accumulator.feerate + depgraph.feeRateOfSet toAdd⟩
        if !FeeFrac.lowerFeerate arith accumulator.feerate subset.feerate then accumulator
        else intersectLoop subset rest accumulator
    else intersectLoop subset rest accumulator

/-- `IntersectPrefixes(subset)`. -/
def intersectPrefixes (c : LinearizationChunking) (subset : SetInfo) : SetInfo :=
  intersectLoop arith depgraph subset ((List.range c.numChunksLeft).map c.getChunk) default

end LinearizationChunking

end Freycoin.Cluster
