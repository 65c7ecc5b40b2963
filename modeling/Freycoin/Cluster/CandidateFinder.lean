import Freycoin.Cluster.DepGraph
import Freycoin.Library.OrderedLoop

/-! `SetInfo` and `AncestorCandidateFinder` of `cluster_linearize.h`.

Where the `Assume` of `FindCandidateSet` fails and no transaction remains, it reads position
`0`. -/

namespace Freycoin.Cluster

/-- `SetInfo`: a set of transactions and their combined fee and size. -/
structure SetInfo where
  transactions : Finset ℕ
  feerate : FeeFrac
  deriving DecidableEq

instance : Inhabited SetInfo := ⟨⟨∅, default⟩⟩

namespace SetInfo

/-- `SetInfo(depgraph, pos)`: one transaction and its feerate. -/
def ofPosition (depgraph : DepGraph) (pos : ℕ) : SetInfo := ⟨{pos}, depgraph.feeRate pos⟩

/-- `operator|=`: the transactions of `other` added, with their feerate. -/
def orAssign (s other : SetInfo) : SetInfo := ⟨s.transactions ∪ other.transactions, s.feerate + other.feerate⟩

end SetInfo

/-- `First()` of a set: the first position its iterator visits. -/
def firstPosition (s : Finset ℕ) : ℕ := (members s).headD 0

/-- `AncestorCandidateFinder`: `m_todo` and `m_ancestor_set_feerates`; the graph is a parameter
of each method. -/
structure AncestorCandidateFinder where
  todo : Finset ℕ
  ancestorSetFeerates : List FeeFrac

namespace AncestorCandidateFinder

variable (depgraph : DepGraph)

/-- One pass of the constructor's loop: the ancestor-set feerate of `i`. -/
def precompute (feerates : List FeeFrac) (i : ℕ) : List FeeFrac :=
  let ancToAdd := depgraph.ancestors i
  let first := firstPosition ancToAdd
  -- Reuse accumulated feerate from first ancestor, if usable.
  let reused :=
    if first < i then (feerates.getD first default, ancToAdd \ depgraph.ancestors first)
    else (default, ancToAdd)
  -- Add in other ancestors (which necessarily include i itself).
  feerates.set i (reused.1 + depgraph.feeRateOfSet reused.2)

def init : AncestorCandidateFinder :=
  ⟨depgraph.positions,
    (members depgraph.positions).foldl (precompute depgraph) (List.replicate depgraph.positionRange default)⟩

/-- One pass of the outer loop of `MarkDone`: the feerate of `i` leaves the ancestor-set
feerates of its remaining descendants. -/
def subtractDescendants (todo : Finset ℕ) (feerates : List FeeFrac) (i : ℕ) : List FeeFrac :=
  (members (depgraph.descendants i ∩ todo)).foldl
    (fun feerates j => feerates.modify j (· - depgraph.feeRate i)) feerates

def markDone (f : AncestorCandidateFinder) (select : Finset ℕ) : AncestorCandidateFinder :=
  let todo := f.todo \ select
  ⟨todo, (members select).foldl (subtractDescendants depgraph todo) f.ancestorSetFeerates⟩

def allDone (f : AncestorCandidateFinder) : Bool := decide (f.todo = ∅)

def numRemaining (f : AncestorCandidateFinder) : ℕ := f.todo.card

/-- `FindCandidateSet()`: the remaining ancestors of the kept transaction, with its stored
feerate. -/
def findCandidateSet {P : Type} (arith : FeeFrac.Arith P) [DecidableEq P] (f : AncestorCandidateFinder) :
    SetInfo :=
  let feerates := f.ancestorSetFeerates
  let best := (members f.todo).foldl (OrderedLoop.keepBest fun i b =>
    FeeFrac.threeWayCompare arith (feerates.getD i default) (feerates.getD b default) == .gt) none
  let b := best.getD 0
  ⟨depgraph.ancestors b ∩ f.todo, feerates.getD b default⟩

end AncestorCandidateFinder

end Freycoin.Cluster
