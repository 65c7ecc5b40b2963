import Freycoin.Net.TxRequest

/-! The naive reference the tracker is compared with: a table from each `(txhash, peer)` to
nothing or to an announcement whose state is candidate, requested or completed, the model
the fuzz test keeps next to the tracker (`Tester` in src/test/fuzz/txrequest.cpp). -/

namespace Freycoin.TxRequest.Tester

inductive State
  | candidate
  | requested
  | completed
  deriving DecidableEq, Repr

/-- The priority that the test stores is the tracker's `ComputePriority` of the txhash, the
peer and the preferred flag; it is computed where it is used. -/
structure Announcement where
  time : Int
  sequence : Nat
  state : State
  preferred : Bool
  isWtxid : Bool
  deriving DecidableEq, Repr

variable {H P : Type} [DecidableEq H] [DecidableEq P]

/-- The table, `none` standing for NOTHING. -/
structure Table (H P : Type) where
  currentSequence : Nat
  announcements : H → P → Option Announcement

def Table.empty : Table H P := ⟨0, fun _ _ => none⟩

section Universe

variable (txhashes : List H) (peers : List P) (computer : H → P → Bool → UInt64)

/-- `Cleanup` on one txhash's row. -/
def cleanupRow (row : P → Option Announcement) : P → Option Announcement :=
  if peers.all fun peer => (row peer).all (·.state == State.completed) then fun _ => none
  else row

/-- `GetSelected`: no peer while a request is in flight; otherwise the candidate due by
`now` of highest priority, the first in `peers` among equals. -/
def getSelected (txhash : H) (row : P → Option Announcement) (now : Int) : Option P :=
  if peers.any fun peer => (row peer).any (·.state == State.requested) then none
  else
    (peers.foldl (fun best peer =>
      match row peer with
      | some ann =>
        if ann.state = State.candidate ∧ ann.time ≤ now then
          match best with
          | some (_, bestPriority) =>
            if bestPriority < computer txhash peer ann.preferred then
              some (peer, computer txhash peer ann.preferred)
            else best
          | none => some (peer, computer txhash peer ann.preferred)
        else best
      | none => best) none).map (·.1)

/-- The first request of a row that is due by `now`. -/
def dueRequest (row : P → Option Announcement) (now : Int) : Option (P × Announcement) :=
  peers.findSome? fun peer =>
    (row peer).bind fun ann =>
      if ann.state = State.requested ∧ ann.time ≤ now then some (peer, ann) else none

/-- A row after its due request is marked completed and the row cleaned up. -/
def expireRow (row : P → Option Announcement) (now : Int) : P → Option Announcement :=
  cleanupRow peers
    (match dueRequest peers row now with
      | some (peer, ann) => Function.update row peer (some { ann with state := State.completed })
      | none => row)

def receivedInv (table : Table H P) (peer : P) (gtxid : GenTxid H) (preferred : Bool)
    (reqtime : Int) : Table H P :=
  match table.announcements gtxid.hash peer with
  | none =>
    ⟨table.currentSequence + 1, Function.update table.announcements gtxid.hash
      (Function.update (table.announcements gtxid.hash) peer
        (some ⟨reqtime, table.currentSequence, State.candidate, preferred, gtxid.isWtxid⟩))⟩
  | some _ => table

def requestedTx (table : Table H P) (peer : P) (txhash : H) (expiry : Int) : Table H P :=
  match table.announcements txhash peer with
  | some ann =>
    if ann.state = State.candidate then
      { table with
        announcements := Function.update table.announcements txhash fun peer2 =>
          if peer2 = peer then some { ann with state := State.requested, time := expiry }
          else (table.announcements txhash peer2).map fun ann2 =>
            if ann2.state = State.requested then { ann2 with state := State.completed } else ann2 }
    else table
  | none => table

def receivedResponse (table : Table H P) (peer : P) (txhash : H) : Table H P :=
  match table.announcements txhash peer with
  | some ann =>
    { table with
      announcements := Function.update table.announcements txhash
        (cleanupRow peers (Function.update (table.announcements txhash) peer
          (some { ann with state := State.completed }))) }
  | none => table

def disconnectedPeer (table : Table H P) (peer : P) : Table H P :=
  { table with
    announcements := fun txhash =>
      if (table.announcements txhash peer).isSome then
        cleanupRow peers (Function.update (table.announcements txhash) peer none)
      else table.announcements txhash }

def forgetTxHash (table : Table H P) (txhash : H) : Table H P :=
  { table with announcements := Function.update table.announcements txhash fun _ => none }

def getRequestable (table : Table H P) (peer : P) (now : Int) :
    (List (GenTxid H) × List (P × GenTxid H)) × Table H P :=
  let expired := txhashes.filterMap fun txhash =>
    (dueRequest peers (table.announcements txhash) now).map fun (peer2, ann) =>
      (peer2, (⟨ann.isWtxid, txhash⟩ : GenTxid H))
  let announcements := fun txhash => expireRow peers (table.announcements txhash) now
  let result := txhashes.filterMap fun txhash =>
    (announcements txhash peer).bind fun ann =>
      if ann.state = State.candidate ∧
          getSelected peers computer txhash (announcements txhash) now = some peer then
        some (ann.sequence, (⟨ann.isWtxid, txhash⟩ : GenTxid H))
      else none
  ((((result.mergeSort fun a b => a.1 ≤ b.1)).map (·.2), expired),
    { table with announcements })

/-- The txhashes where the peer's announcement satisfies `test`. -/
def countWhere (table : Table H P) (peer : P) (test : Announcement → Bool) : Nat :=
  (txhashes.filter fun txhash => (table.announcements txhash peer).any test).length

def getCandidatePeers (table : Table H P) (txhash : H) : List P :=
  peers.filter fun peer => (table.announcements txhash peer).any fun ann =>
    ann.state == State.candidate || ann.state == State.requested

/-- One call of the interface on the table. -/
def apply (table : Table H P) : Operation H P → Output H P × Table H P
  | .receivedInv peer gtxid preferred reqtime =>
    (.done, receivedInv table peer gtxid preferred reqtime)
  | .requestedTx peer txhash expiry => (.done, requestedTx table peer txhash expiry)
  | .receivedResponse peer txhash => (.done, receivedResponse peers table peer txhash)
  | .disconnectedPeer peer => (.done, disconnectedPeer peers table peer)
  | .forgetTxHash txhash => (.done, forgetTxHash table txhash)
  | .getRequestable peer now =>
    let ((result, expired), table) := getRequestable txhashes peers computer table peer now
    (.requestable result expired, table)
  | .countInFlight peer => (.number (countWhere txhashes table peer (·.state == State.requested)), table)
  | .countCandidates peer =>
    (.number (countWhere txhashes table peer (·.state == State.candidate)), table)
  | .count peer => (.number (countWhere txhashes table peer fun _ => true), table)
  | .size => (.number (peers.map fun peer => countWhere txhashes table peer fun _ => true).sum, table)
  | .getCandidatePeers txhash => (.peers (getCandidatePeers peers table txhash), table)

def run (table : Table H P) : List (Operation H P) → List (Output H P)
  | [] => []
  | operation :: rest =>
    let (output, table) := apply txhashes peers computer table operation
    output :: run table rest

end Universe

end Freycoin.TxRequest.Tester
