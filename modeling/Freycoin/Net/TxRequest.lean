import Mathlib
import Freycoin.Library.SortedNeighbors

/-! `TxRequestTracker::Impl` of src/txrequest.cpp.

The `multi_index` container is the list `index` in the ByTxHash order; `Modify` takes an element
out and puts it back where its new key sorts it. The priority is a function `computer`, since
the tracker only compares its values, and times are only compared. -/

namespace Freycoin.TxRequest

open SortedNeighbors

inductive State
  | candidateDelayed
  | candidateReady
  | candidateBest
  | requested
  | completed
  deriving DecidableEq, Repr

/-- The place of a state in the enum, which the ByTxHash order relies on. -/
def State.rank : State → Nat
  | .candidateDelayed => 0
  | .candidateReady => 1
  | .candidateBest => 2
  | .requested => 3
  | .completed => 4

structure GenTxid (H : Type) where
  isWtxid : Bool
  hash : H
  deriving DecidableEq, Repr

/-- The sequence number is a 59-bit field of the announcement. -/
structure Announcement (H P : Type) where
  gtxid : GenTxid H
  time : Int
  peer : P
  sequence : BitVec 59
  preferred : Bool
  state : State
  deriving DecidableEq, Repr

variable {H P : Type}

namespace Announcement

def txhash (ann : Announcement H P) : H := ann.gtxid.hash

def setState (ann : Announcement H P) (state : State) : Announcement H P := { ann with state }

def isSelected (ann : Announcement H P) : Bool :=
  ann.state == State.candidateBest || ann.state == State.requested

def isWaiting (ann : Announcement H P) : Bool :=
  ann.state == State.requested || ann.state == State.candidateDelayed

def isSelectable (ann : Announcement H P) : Bool :=
  ann.state == State.candidateReady || ann.state == State.candidateBest

end Announcement

/-- `PriorityComputer::operator()` on an announcement. -/
def priority (computer : H → P → Bool → UInt64) (ann : Announcement H P) : UInt64 :=
  computer ann.txhash ann.peer ann.preferred

namespace Announcement

@[simp] theorem setState_state (ann : Announcement H P) (state : State) :
    (ann.setState state).state = state := rfl

@[simp] theorem setState_txhash (ann : Announcement H P) (state : State) :
    (ann.setState state).txhash = ann.txhash := rfl

@[simp] theorem setState_peer (ann : Announcement H P) (state : State) :
    (ann.setState state).peer = ann.peer := rfl

@[simp] theorem setState_time (ann : Announcement H P) (state : State) :
    (ann.setState state).time = ann.time := rfl

@[simp] theorem setState_setState (ann : Announcement H P) (state state' : State) :
    (ann.setState state).setState state' = ann.setState state' := rfl

theorem isSelected_iff (ann : Announcement H P) :
    ann.isSelected = true ↔ ann.state = State.candidateBest ∨ ann.state = State.requested := by
  unfold isSelected
  cases ann.state <;> decide

end Announcement

@[simp] theorem priority_setState (computer : H → P → Bool → UInt64) (ann : Announcement H P)
    (state : State) : priority computer (ann.setState state) = priority computer ann := rfl

/-- `ByTxHashViewExtractor`: the priority counts only for `CANDIDATE_READY`. -/
def byTxHashView (computer : H → P → Bool → UInt64) (ann : Announcement H P) :
    Lex (H × Lex (Nat × Nat)) :=
  toLex (ann.txhash, toLex (ann.state.rank,
    if ann.state = State.candidateReady then (priority computer ann).toNat else 0))

inductive WaitState
  | futureEvent
  | noEvent
  | pastEvent
  deriving DecidableEq, Repr

def WaitState.rank : WaitState → Nat
  | .futureEvent => 0
  | .noEvent => 1
  | .pastEvent => 2

def getWaitState (ann : Announcement H P) : WaitState :=
  if ann.isWaiting then .futureEvent
  else if ann.isSelectable then .pastEvent
  else .noEvent

/-- `ByTimeViewExtractor`. -/
def byTimeView (ann : Announcement H P) : Lex (Nat × Int) :=
  toLex ((getWaitState ann).rank, ann.time)

/-- The ByTime order: lexicographic over the computable orders of `Nat` and `Int`, so that
`argmin` and `argmax` over it run. -/
instance byTimeOrder : LinearOrder (Lex (Nat × Int)) :=
  @Prod.Lex.instLinearOrder Nat Int Nat.instLinearOrder Int.instLinearOrder

instance byTimePreorder : Preorder (Lex (Nat × Int)) := byTimeOrder.toPreorder

structure PeerInfo where
  total : Nat := 0
  completed : Nat := 0
  requested : Nat := 0
  deriving DecidableEq, Repr

/-- `RecomputePeerInfo`, the statistics `m_peerinfo` caches; a peer without announcements
reads as zeros, as the counters return for a peer that `m_peerinfo` does not hold. -/
def recomputePeerInfo [DecidableEq P] (index : List (Announcement H P)) (peer : P) : PeerInfo :=
  ⟨(index.filter (·.peer == peer)).length,
    (index.filter (fun ann => ann.peer == peer && ann.state == State.completed)).length,
    (index.filter (fun ann => ann.peer == peer && ann.state == State.requested)).length⟩

/-- The tracker's state. `m_peerinfo` is a map in the source; here it is a function that
is zero where the map has no entry. -/
structure Impl (H P : Type) where
  currentSequence : UInt64
  computer : H → P → Bool → UInt64
  index : List (Announcement H P)
  peerinfo : P → PeerInfo

/-- The calls of the public interface, `TxRequestTracker`. -/
inductive Operation (H P : Type)
  | receivedInv (peer : P) (gtxid : GenTxid H) (preferred : Bool) (reqtime : Int)
  | requestedTx (peer : P) (txhash : H) (expiry : Int)
  | receivedResponse (peer : P) (txhash : H)
  | disconnectedPeer (peer : P)
  | forgetTxHash (txhash : H)
  | getRequestable (peer : P) (now : Int)
  | countInFlight (peer : P)
  | countCandidates (peer : P)
  | count (peer : P)
  | size
  | getCandidatePeers (txhash : H)

inductive Output (H P : Type)
  | done
  | requestable (result : List (GenTxid H)) (expired : List (P × GenTxid H))
  | number (value : Nat)
  | peers (result : List P)

namespace Impl

variable [LinearOrder H] [DecidableEq P]

def init (computer : H → P → Bool → UInt64) : Impl H P := ⟨0, computer, [], fun _ => {}⟩

/-- The ByTxHash order of the tracker's priority computer. -/
def byTxHash (impl : Impl H P) (a b : Announcement H P) : Prop :=
  byTxHashView impl.computer a ≤ byTxHashView impl.computer b

instance (impl : Impl H P) : DecidableRel impl.byTxHash :=
  fun a b => inferInstanceAs (Decidable (byTxHashView impl.computer a ≤ byTxHashView impl.computer b))

/-- `Modify`: the counters of the announcement's peer follow its state. -/
def modify (impl : Impl H P) (ann new : Announcement H P) : Impl H P :=
  let info := impl.peerinfo ann.peer
  let info := { info with
    completed := info.completed - (ann.state == State.completed).toNat
    requested := info.requested - (ann.state == State.requested).toNat }
  { impl with
    index := (impl.index.erase ann).orderedInsert impl.byTxHash new
    peerinfo := Function.update impl.peerinfo ann.peer { info with
      completed := info.completed + (new.state == State.completed).toNat
      requested := info.requested + (new.state == State.requested).toNat } }

/-- `Erase`: the peer's entry goes when its last announcement does. -/
def erase (impl : Impl H P) (ann : Announcement H P) : Impl H P :=
  let info := impl.peerinfo ann.peer
  let info : PeerInfo := ⟨info.total - 1, info.completed - (ann.state == State.completed).toNat,
    info.requested - (ann.state == State.requested).toNat⟩
  { impl with
    index := impl.index.erase ann
    peerinfo := Function.update impl.peerinfo ann.peer (if info.total = 0 then {} else info) }

/-- `lower_bound` on the ByTxHash index: the suffix from the first announcement whose key
is not below `view`. -/
def lowerBound (impl : Impl H P) (view : Lex (H × Lex (Nat × Nat))) : List (Announcement H P) :=
  impl.index.dropWhile fun ann => byTxHashView impl.computer ann < view

def promoteCandidateReady (impl : Impl H P) (it : Announcement H P) : Impl H P :=
  let ready := it.setState .candidateReady
  let impl := impl.modify it ready
  let best := ready.setState .candidateBest
  match next impl.index ready with
  | none => impl.modify ready best
  | some itNext =>
    if itNext.txhash ≠ ready.txhash ∨ itNext.state = State.completed then impl.modify ready best
    else if itNext.state = State.candidateBest then
      if priority impl.computer itNext < priority impl.computer ready then
        (impl.modify itNext (itNext.setState .candidateReady)).modify ready best
      else impl
    else impl

def changeAndReselect (impl : Impl H P) (it : Announcement H P) (newState : State) :
    Impl H P :=
  let impl :=
    match it.isSelected, prev impl.index it with
    | true, some itPrev =>
      if itPrev.txhash = it.txhash ∧ itPrev.state = State.candidateReady then
        impl.modify itPrev (itPrev.setState .candidateBest)
      else impl
    | _, _ => impl
  impl.modify it (it.setState newState)

def isOnlyNonCompleted (index : List (Announcement H P)) (it : Announcement H P) : Bool :=
  !((prev index it).any fun itPrev => itPrev.txhash == it.txhash) &&
    !((next index it).any fun itNext =>
      itNext.txhash == it.txhash && itNext.state != State.completed)

/-- Whether the announcement still exists, and the tracker after. -/
def makeCompleted (impl : Impl H P) (it : Announcement H P) : Bool × Impl H P :=
  if it.state = State.completed then (true, impl)
  else if isOnlyNonCompleted impl.index it then
    -- the do-while loop erases `it` and then what follows it while the txhash is the same
    (false, ((impl.index.dropWhile (· != it)).takeWhile (·.txhash == it.txhash)).foldl erase impl)
  else (true, impl.changeAndReselect it .completed)

/-- The first loop of `SetTimePoint`, over the ByTime order from its start; it runs at most
once per announcement, which `fuel` counts. -/
def promoteDue (now : Int) :
    Nat → List (P × GenTxid H) → Impl H P → List (P × GenTxid H) × Impl H P
  | 0, expired, impl => (expired, impl)
  | fuel + 1, expired, impl =>
    match impl.index.argmin byTimeView with
    | none => (expired, impl)
    | some it =>
      if it.state = State.candidateDelayed ∧ it.time ≤ now then
        promoteDue now fuel expired (impl.promoteCandidateReady it)
      else if it.state = State.requested ∧ it.time ≤ now then
        promoteDue now fuel (expired ++ [(it.peer, it.gtxid)]) (impl.makeCompleted it).2
      else (expired, impl)

/-- The second loop of `SetTimePoint`, over the ByTime order from its end. -/
def demoteFuture (now : Int) : Nat → Impl H P → Impl H P
  | 0, impl => impl
  | fuel + 1, impl =>
    match impl.index.argmax byTimeView with
    | none => impl
    | some it =>
      if it.isSelectable ∧ now < it.time then
        demoteFuture now fuel (impl.changeAndReselect it .candidateDelayed)
      else impl

/-- The expired requests, and the tracker after. -/
def setTimePoint (impl : Impl H P) (now : Int) : List (P × GenTxid H) × Impl H P :=
  let (expired, impl) := promoteDue now impl.index.length [] impl
  (expired, demoteFuture now impl.index.length impl)

/-- The peer's announcements in the ByPeer order, `(state == CANDIDATE_BEST, txhash)`. -/
def byPeer (impl : Impl H P) (peer : P) : List (Announcement H P) :=
  impl.index.filter (fun ann => ann.peer == peer && ann.state != State.candidateBest) ++
    impl.index.filter (fun ann => ann.peer == peer && ann.state == State.candidateBest)

def disconnectedPeer (impl : Impl H P) (peer : P) : Impl H P :=
  (impl.byPeer peer).foldl (fun impl it =>
    match impl.makeCompleted it with
    | (true, impl) => impl.erase (it.setState .completed)
    | (false, impl) => impl) impl

def forgetTxHash (impl : Impl H P) (txhash : H) : Impl H P :=
  ((impl.lowerBound (toLex (txhash, toLex (State.candidateDelayed.rank, 0)))).takeWhile
    (·.txhash == txhash)).foldl erase impl

def getCandidatePeers (impl : Impl H P) (txhash : H) : List P :=
  ((impl.lowerBound (toLex (txhash, toLex (State.candidateDelayed.rank, 0)))).takeWhile
    (fun ann => ann.txhash == txhash && ann.state != State.completed)).map (·.peer)

/-- The announcement of `(peer, txhash)` in the ByPeer index whose `state == BEST` is `best`. -/
def findByPeer (impl : Impl H P) (peer : P) (best : Bool) (txhash : H) :
    Option (Announcement H P) :=
  impl.index.find? fun ann =>
    ann.peer == peer && (ann.state == State.candidateBest) == best && ann.txhash == txhash

def receivedInv (impl : Impl H P) (peer : P) (gtxid : GenTxid H) (preferred : Bool)
    (reqtime : Int) : Impl H P :=
  if (impl.findByPeer peer true gtxid.hash).isSome then impl
  -- `emplace` fails on the uniqueness of `(peer, false, txhash)` in the ByPeer index
  else if (impl.findByPeer peer false gtxid.hash).isSome then impl
  else
    let ann : Announcement H P := ⟨gtxid, reqtime, peer,
      impl.currentSequence.toBitVec.setWidth 59, preferred, .candidateDelayed⟩
    { impl with
      index := impl.index.orderedInsert impl.byTxHash ann
      peerinfo := Function.update impl.peerinfo peer
        { impl.peerinfo peer with total := (impl.peerinfo peer).total + 1 }
      currentSequence := impl.currentSequence + 1 }

/-- The txhashes to request from `peer` and the expired requests, and the tracker after. -/
def getRequestable (impl : Impl H P) (peer : P) (now : Int) :
    (List (GenTxid H) × List (P × GenTxid H)) × Impl H P :=
  let (expired, impl) := impl.setTimePoint now
  let selected := impl.index.filter fun ann => ann.peer == peer && ann.state == State.candidateBest
  ((((selected.mergeSort fun a b => a.sequence ≤ b.sequence)).map (·.gtxid), expired), impl)

def requestedTx (impl : Impl H P) (peer : P) (txhash : H) (expiry : Int) : Impl H P :=
  match impl.findByPeer peer true txhash with
  | some it => impl.modify it { it with state := .requested, time := expiry }
  | none =>
    match impl.findByPeer peer false txhash with
    | none => impl
    | some it =>
      if it.state ≠ State.candidateDelayed ∧ it.state ≠ State.candidateReady then impl
      else
        let impl :=
          match (impl.lowerBound (toLex (txhash, toLex (State.candidateBest.rank, 0)))).head? with
          | some itOld =>
            if itOld.txhash = txhash then
              if itOld.state = State.candidateBest then
                impl.modify itOld (itOld.setState .candidateReady)
              else if itOld.state = State.requested then
                impl.modify itOld (itOld.setState .completed)
              else impl
            else impl
          | none => impl
        impl.modify it { it with state := .requested, time := expiry }

def receivedResponse (impl : Impl H P) (peer : P) (txhash : H) : Impl H P :=
  match (impl.findByPeer peer false txhash).orElse fun _ => impl.findByPeer peer true txhash with
  | some it => (impl.makeCompleted it).2
  | none => impl

def countInFlight (impl : Impl H P) (peer : P) : Nat := (impl.peerinfo peer).requested

def countCandidates (impl : Impl H P) (peer : P) : Nat :=
  (impl.peerinfo peer).total - (impl.peerinfo peer).requested - (impl.peerinfo peer).completed

def count (impl : Impl H P) (peer : P) : Nat := (impl.peerinfo peer).total

def size (impl : Impl H P) : Nat := impl.index.length

/-- One call of the interface. -/
def apply (impl : Impl H P) : Operation H P → Output H P × Impl H P
  | .receivedInv peer gtxid preferred reqtime =>
    (.done, impl.receivedInv peer gtxid preferred reqtime)
  | .requestedTx peer txhash expiry => (.done, impl.requestedTx peer txhash expiry)
  | .receivedResponse peer txhash => (.done, impl.receivedResponse peer txhash)
  | .disconnectedPeer peer => (.done, impl.disconnectedPeer peer)
  | .forgetTxHash txhash => (.done, impl.forgetTxHash txhash)
  | .getRequestable peer now =>
    let ((result, expired), impl) := impl.getRequestable peer now
    (.requestable result expired, impl)
  | .countInFlight peer => (.number (impl.countInFlight peer), impl)
  | .countCandidates peer => (.number (impl.countCandidates peer), impl)
  | .count peer => (.number (impl.count peer), impl)
  | .size => (.number impl.size, impl)
  | .getCandidatePeers txhash => (.peers (impl.getCandidatePeers txhash), impl)

/-- The outputs of a run of calls. -/
def run (impl : Impl H P) : List (Operation H P) → List (Output H P)
  | [] => []
  | operation :: rest =>
    let (output, impl) := impl.apply operation
    output :: run impl rest

end Impl

end Freycoin.TxRequest
