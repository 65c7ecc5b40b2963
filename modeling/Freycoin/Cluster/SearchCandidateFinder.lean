import Mathlib.Data.List.Sort
import Freycoin.Cluster.CandidateFinder
import Freycoin.Util.InsecureRandom
import Freycoin.Util.VecDeque

/-! `SearchCandidateFinder` of `cluster_linearize.h`.

The lambdas `add_fn` and `split_fn` take and return the `SearchState` they capture by reference.
The loops that run until a set stops changing carry a fuel that their own progress bounds. -/

namespace Freycoin.Cluster

open Util

namespace SetInfo

/-- `SetInfo(depgraph, txn)`. -/
def ofSet (depgraph : DepGraph) (txn : Finset ℕ) : SetInfo := ⟨txn, depgraph.feeRateOfSet txn⟩

/-- `Set(depgraph, pos)`: one more transaction. -/
def set (s : SetInfo) (depgraph : DepGraph) (pos : ℕ) : SetInfo :=
  ⟨insert pos s.transactions, s.feerate + depgraph.feeRate pos⟩

/-- `Add(depgraph, txn)`: the transactions of `txn` not in the set yet, with their feerate. -/
def add (s : SetInfo) (depgraph : DepGraph) (txn : Finset ℕ) : SetInfo :=
  ⟨s.transactions ∪ txn, s.feerate + depgraph.feeRateOfSet (txn \ s.transactions)⟩

end SetInfo

namespace DepGraph

/-- The `do … while` loop of `GetConnectedComponent`, for at most `fuel` passes: each pass adds
the descendants and ancestors, within `todo`, of the transactions the pass before added. -/
def connectedLoop (g : DepGraph) (todo : Finset ℕ) : ℕ → Finset ℕ → Finset ℕ → Finset ℕ
  | 0, _, ret => ret
  | fuel + 1, toAdd, ret =>
    let old := ret
    let ret := (members toAdd).foldl (fun ret add => ret ∪ g.descendants add ∪ g.ancestors add) ret ∩ todo
    let toAdd := ret \ old
    if toAdd.Nonempty then g.connectedLoop todo fuel toAdd ret else ret

/-- `GetConnectedComponent(todo, tx)`; every pass but the last adds a transaction of `todo`. -/
def getConnectedComponent (g : DepGraph) (todo : Finset ℕ) (tx : ℕ) : Finset ℕ :=
  g.connectedLoop todo (todo.card + 1) {tx} ∅

/-- `FindConnectedComponent(todo)`: the component of the first transaction of `todo`. -/
def findConnectedComponent (g : DepGraph) (todo : Finset ℕ) : Finset ℕ :=
  if todo = ∅ then todo else g.getConnectedComponent todo (firstPosition todo)

end DepGraph

/-- The `WorkItem` of `FindCandidateSet`. -/
structure WorkItem where
  inc : SetInfo
  und : Finset ℕ
  potFeerate : FeeFrac

instance : Inhabited WorkItem := ⟨⟨default, ∅, default⟩⟩

/-- A `WorkItem` is bitsets and `FeeFrac`s, so trivially copyable and destructible. -/
def workItemTraits : Traits := ⟨true, true⟩

/-- `SearchCandidateFinder`: `m_rng`, the two index maps, `m_sorted_depgraph` and `m_todo`
(in sorted positions). -/
structure SearchCandidateFinder where
  rng : InsecureRandomContext
  sortedToOriginal : List ℕ
  originalToSorted : List ℕ
  sortedDepgraph : DepGraph
  todo : Finset ℕ

/-- The locals of `FindCandidateSet` that `add_fn` and `split_fn` change. -/
structure SearchState where
  queue : VecDeque WorkItem
  best : SetInfo
  imp : Finset ℕ
  iterationsLeft : ℕ
  rng : InsecureRandomContext

namespace SearchCandidateFinder

variable {P : Type} (arith : FeeFrac.Arith P) [DecidableEq P]

/-- The comparator of the constructor's `std::sort`: decreasing feerate under `<=>`, then
increasing position. -/
def sortsBefore (depgraph : DepGraph) (a b : ℕ) : Bool :=
  let feerateCmp := FeeFrac.threeWayCompare arith (depgraph.feeRate a) (depgraph.feeRate b)
  if feerateCmp = .eq then decide (a < b) else feerateCmp = .gt

/-- The constructor. `std::sort` with a comparator that orders the positions strictly gives the
one sorted permutation, which insertion sort computes with the order `!comp(b, a)`. -/
def init (depgraph : DepGraph) (rngSeed : UInt64) : SearchCandidateFinder :=
  let sortedToOriginal := (members depgraph.positions).insertionSort fun a b => sortsBefore arith depgraph b a = false
  let originalToSorted := (List.range sortedToOriginal.length).foldl
    (fun m i => m.set (sortedToOriginal.getD i 0) i) (List.replicate depgraph.positionRange 0)
  let sortedDepgraph := depgraph.remap originalToSorted sortedToOriginal.length
  ⟨InsecureRandomContext.ofSeed rngSeed, sortedToOriginal, originalToSorted, sortedDepgraph,
    sortedDepgraph.positions⟩

/-- `SortedToOriginal(arg)`. -/
def sortedToOriginalSet (f : SearchCandidateFinder) (arg : Finset ℕ) : Finset ℕ :=
  arg.image (f.sortedToOriginal.getD · 0)

/-- `OriginalToSorted(arg)`. -/
def originalToSortedSet (f : SearchCandidateFinder) (arg : Finset ℕ) : Finset ℕ :=
  arg.image (f.originalToSorted.getD · 0)

/-- The transactions still to do, in original positions. -/
def remaining (f : SearchCandidateFinder) : Finset ℕ := f.sortedToOriginalSet f.todo

/-- `AllDone()`. -/
def allDone (f : SearchCandidateFinder) : Bool := decide (f.todo = ∅)

/-- `MarkDone(done)`. -/
def markDone (f : SearchCandidateFinder) (done : Finset ℕ) : SearchCandidateFinder :=
  { f with todo := f.todo \ f.originalToSortedSet done }

section Search

variable (g : DepGraph) (todo : Finset ℕ)

/-- The loop that resets the last transaction of `imp` while it does not beat `best`, given the
transactions of `imp` from the last. -/
def trimImp (best : FeeFrac) : List ℕ → Finset ℕ → Finset ℕ
  | [], imp => imp
  | check :: rest, imp =>
    if FeeFrac.higherFeerate arith (g.feeRate check) best then imp else trimImp best rest (imp.erase check)

def pruneImp (best : FeeFrac) (imp : Finset ℕ) : Finset ℕ := trimImp arith g best (members imp).reverse imp

/-- The loop of `add_fn` over `imp & und`, in decreasing feerate order: each transaction of
higher feerate than `pot` joins it, and the first that is not stops the loop. -/
def growPot : SetInfo → List ℕ → SetInfo
  | pot, [] => pot
  | pot, pos :: rest =>
    if FeeFrac.higherFeerate arith (g.feeRate pos) pot.feerate then growPot (pot.set g pos) rest else pot

/-- One pass of the jump-ahead loop: a transaction whose remaining ancestors are all in `pot`
brings them into `inc`. -/
def jumpAhead (pot inc : Finset ℕ) (pos : ℕ) : Finset ℕ :=
  let ancTodo := g.ancestors pos ∩ todo
  if ancTodo ⊆ pot then inc ∪ ancTodo else inc

/-- `add_fn(inc, und)`. -/
def addItem (s : SearchState) (inc : SetInfo) (und : Finset ℕ) : SearchState :=
  if inc.feerate.size ≠ 0 then
    let pot := growPot arith g inc (members (s.imp ∩ und))
    let initInc := inc.transactions
    let incTx := (members (pot.transactions \ inc.transactions)).foldl (jumpAhead g todo pot.transactions)
      inc.transactions
    let und := und \ incTx
    let inc : SetInfo := ⟨incTx, inc.feerate + g.feeRateOfSet (incTx \ initInc)⟩
    let s := if FeeFrac.threeWayCompare arith inc.feerate s.best.feerate = .gt then
      { s with best := inc, imp := pruneImp arith g inc.feerate s.imp } else s
    if pot.feerate.size = inc.feerate.size then s
    else { s with queue := s.queue.emplaceBack workItemTraits ⟨inc, und, pot.feerate⟩ }
  else if und = ∅ then s
  else { s with queue := s.queue.emplaceBack workItemTraits ⟨inc, und, inc.feerate⟩ }

/-- `std::pair`'s `<`. -/
def pairLess (a b : ℕ × ℕ) : Bool := a.1 < b.1 || (a.1 == b.1 && a.2 < b.2)

/-- One pass of the loop that picks the split transaction: the counts `(max, min)` of the
undecided transactions left after including and after excluding `t`, kept if the smallest so
far. -/
def pickSplit (und : Finset ℕ) (chosen : ℕ × Option (ℕ × ℕ)) (t : ℕ) : ℕ × Option (ℕ × ℕ) :=
  let counts := ((und \ g.ancestors t).card, (und \ g.descendants t).card)
  let counts := if counts.1 < counts.2 then (counts.2, counts.1) else counts
  match chosen.2 with
  | none => (t, some counts)
  | some splitCounts => if pairLess counts splitCounts then (t, some counts) else chosen

/-- `split_fn(elem)`: dropped when it cannot beat `best`, else split on a transaction into an item
with it and its ancestors included and one with it and its descendants excluded. -/
def splitItem (s : SearchState) (elem : WorkItem) : SearchState :=
  let first := firstPosition elem.und
  let keep : Bool :=
    if elem.inc.feerate.size ≠ 0 then
      (elem.und ∩ s.imp).Nonempty ∧ FeeFrac.threeWayCompare arith elem.potFeerate s.best.feerate = .gt
    else FeeFrac.threeWayCompare arith (g.feeRate first) s.best.feerate = .gt
  if !keep then s
  else
    let select := elem.und ∩ g.ancestors first
    let split := ((members select).foldl (pickSplit g elem.und) (0, none)).1
    let desc := g.descendants split
    let s := addItem arith g todo s elem.inc (elem.und \ desc)
    let anc := g.ancestors split ∩ todo
    let s := addItem arith g todo s (elem.inc.add g anc) (elem.und \ anc)
    { s with iterationsLeft := s.iterationsLeft - 1 }

/-- `queue[0].Swap(queue[1])`. -/
def swapFront (queue : VecDeque WorkItem) : VecDeque WorkItem :=
  let first := (queue.get 0).getD default
  let second := (queue.get 1).getD default
  (queue.set 0 second).set 1 first

/-- The random swap at the top of each pass; `randbool()` is drawn only with two items or more. -/
def shuffleFront (s : SearchState) : SearchState :=
  if s.queue.size > 1 then
    let drawn := s.rng.randbool
    if drawn.1 then { s with queue := swapFront s.queue, rng := drawn.2 } else { s with rng := drawn.2 }
  else s

/-- The work loop, for at most `fuel` calls of `split_fn`, from the top of a pass (`atTop`) or
from the test of the inner DFS loop. -/
def workLoop : ℕ → Bool → SearchState → SearchState
  | 0, _, s => s
  | fuel + 1, atTop, s =>
    if atTop ∧ s.queue.empty = true then s
    else
      let s := if atTop then shuffleFront s else s
      if s.queue.size - 1 + (s.queue.front.getD default).und.card > s.queue.capacity then
        if s.iterationsLeft = 0 then s
        else workLoop fuel false (splitItem arith g todo { s with queue := s.queue.popBack } (s.queue.back.getD default))
      else if s.iterationsLeft = 0 then s
      else workLoop fuel true (splitItem arith g todo { s with queue := s.queue.popFront } (s.queue.front.getD default))

/-- The `do … while` loop that queues one work item per connected component of `m_todo`, and
makes the first component `best` if none was given. -/
def seedComponents : ℕ → Finset ℕ → VecDeque WorkItem → SetInfo → VecDeque WorkItem × SetInfo
  | 0, _, queue, best => (queue, best)
  | fuel + 1, toCover, queue, best =>
    let component := g.findConnectedComponent toCover
    let toCover := toCover \ component
    let best := if best.feerate.size = 0 then SetInfo.ofSet g component else best
    let queue := queue.emplaceBack workItemTraits ⟨default, component, default⟩
    if toCover.Nonempty then seedComponents fuel toCover queue best else (queue, best)

end Search

/-- `FindCandidateSet(max_iterations, best)`: the best set found, in original positions, and the
number of iterations done; the finder keeps the advanced random context. Every call of `split_fn`
drops an item or spends an iteration and adds at most two items, so the work loop ends within
the queue's size and three times the iterations. -/
def findCandidateSet (f : SearchCandidateFinder) (maxIterations : ℕ) (best : SetInfo) :
    (SetInfo × ℕ) × SearchCandidateFinder :=
  let g := f.sortedDepgraph
  let best : SetInfo := { best with transactions := f.originalToSortedSet best.transactions }
  let queue := (default : VecDeque WorkItem).reserve workItemTraits (max 256 (2 * f.todo.card))
  let seeded := seedComponents g (f.todo.card + 1) f.todo queue best
  let imp := pruneImp arith g seeded.2.feerate f.todo
  let s : SearchState := ⟨seeded.1, seeded.2, imp, maxIterations, f.rng⟩
  let s := workLoop arith g f.todo (s.queue.size + 3 * maxIterations + 1) true s
  let best : SetInfo := { s.best with transactions := f.sortedToOriginalSet s.best.transactions }
  ((best, maxIterations - s.iterationsLeft), { f with rng := s.rng })

end SearchCandidateFinder

end Freycoin.Cluster
