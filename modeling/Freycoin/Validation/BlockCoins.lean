import Freycoin.Coins.StackRefinement

/-! What connecting and disconnecting a block does to the UTXO view: `AddCoins` of
`coins.cpp`, `UpdateCoins`, `ApplyTxInUndo` and the loop of `Chainstate::DisconnectBlock` in
`validation.cpp`, and the `UpdateCoins` loop of `ConnectBlock` that collects the undo
records. The view is a `CCoinsViewCache` on top of a stack; a transaction carries the hash
`CTransaction` computes once at construction. Reading the undo data from disk and moving
the best block are left out: the loop is run on the undo data it is given. -/

namespace Freycoin.Validation

open Freycoin.Coins

structure CTxIn where
  prevout : COutPoint
  deriving Repr, DecidableEq

structure CTransaction where
  vin : List CTxIn
  vout : List CTxOut
  hash : Vector UInt8 32
  deriving Repr, DecidableEq

structure CTxUndo where
  vprevout : List Coin
  deriving Repr, DecidableEq

structure CBlockUndo where
  vtxundo : List CTxUndo
  deriving Repr, DecidableEq

structure CBlock where
  vtx : List CTransaction
  deriving Repr, DecidableEq

def CTransaction.isCoinBase (tx : CTransaction) : Bool :=
  match tx.vin with
  | [txin] => txin.prevout.isNull
  | _ => false

inductive DisconnectResult where
  | disconnectOk
  | disconnectUnclean
  | disconnectFailed
  deriving Repr, DecidableEq

/-- `WITNESS_SCALE_FACTOR` times the nine bytes of a serialized empty `CTxOut`. -/
def minTransactionOutputWeight : Nat := 4 * 9

def maxBlockWeight : Nat := 2000000

def maxOutputsPerBlock : Nat := maxBlockWeight / minTransactionOutputWeight

/-- The loop of `AddCoins` from output `i` on. -/
def addCoinsFrom (tx : CTransaction) (nHeight : Int32) (checkForOverwrite : Bool) :
    Nat → List CTxOut → CoinsStack → Option CoinsStack
  | _, [], cache => some cache
  | i, out :: rest, cache => do
      let outpoint : COutPoint := ⟨tx.hash, UInt32.ofNat i⟩
      let (overwrite, cache) ←
        if checkForOverwrite then cache.haveCoinAt 0 outpoint else some (tx.isCoinBase, cache)
      -- coinbases may always be overwritten, for the duplicate coinbases before BIP30
      let cache ← cache.addCoin outpoint (Coin.ofTxOut out nHeight tx.isCoinBase) overwrite
      addCoinsFrom tx nHeight checkForOverwrite (i + 1) rest cache

def addCoins (cache : CoinsStack) (tx : CTransaction) (nHeight : Int32)
    (checkForOverwrite : Bool) : Option CoinsStack :=
  addCoinsFrom tx nHeight checkForOverwrite 0 tx.vout cache

/-- The inputs loop of `UpdateCoins`: each spent coin moves into the undo record; a missing
one fails `assert(is_spent)`. -/
def spendInputs : List CTxIn → CoinsStack → Option (List Coin × CoinsStack)
  | [], inputs => some ([], inputs)
  | txin :: rest, inputs => do
      let (moved, inputs) ← inputs.spendCoin txin.prevout
      let coin ← moved
      let (coins, inputs) ← spendInputs rest inputs
      some (coin :: coins, inputs)

def updateCoins (tx : CTransaction) (inputs : CoinsStack) (nHeight : Int32) :
    Option (CTxUndo × CoinsStack) := do
  let (vprevout, inputs) ← if tx.isCoinBase then some ([], inputs) else spendInputs tx.vin inputs
  let inputs ← addCoins inputs tx nHeight false
  some (⟨vprevout⟩, inputs)

/-- The `UpdateCoins` calls of `ConnectBlock` for the transactions after the coinbase, each
with its own undo record. -/
def updateTxsCoins (nHeight : Int32) : List CTransaction → CoinsStack →
    Option (List CTxUndo × CoinsStack)
  | [], view => some ([], view)
  | tx :: rest, view => do
      let (txundo, view) ← updateCoins tx view nHeight
      let (vtxundo, view) ← updateTxsCoins nHeight rest view
      some (txundo :: vtxundo, view)

/-- The coins part of `ConnectBlock`: the coinbase's undo record is a dummy, the others are
collected into the block's. -/
def connectBlockCoins (block : CBlock) (nHeight : Int32) (view : CoinsStack) :
    Option (CBlockUndo × CoinsStack) :=
  match block.vtx with
  | [] => some (⟨[]⟩, view)
  | coinbase :: rest => do
      let (_, view) ← updateCoins coinbase view nHeight
      let (vtxundo, view) ← updateTxsCoins nHeight rest view
      some (⟨vtxundo⟩, view)

/-- The loop of `AccessByTxid` from output `n` on, with `remaining` turns left. -/
def accessByTxidFrom (txid : Vector UInt8 32) : Nat → UInt32 → CoinsStack →
    Option (Coin × CoinsStack)
  | 0, _, view => some (Coin.empty, view)
  | remaining + 1, n, view => do
      let (alternate, view) ← view.accessCoinAt 0 ⟨txid, n⟩
      if !alternate.isSpent then some (alternate, view)
      else accessByTxidFrom txid remaining (n + 1) view

def accessByTxid (view : CoinsStack) (txid : Vector UInt8 32) : Option (Coin × CoinsStack) :=
  accessByTxidFrom txid maxOutputsPerBlock 0 view

def applyTxInUndo (undo : Coin) (view : CoinsStack) (out : COutPoint) :
    Option (DisconnectResult × CoinsStack) := do
  let (overwriting, view) ← view.haveCoinAt 0 out
  let fClean := !overwriting
  -- undo data without height and coinbase flag, as older versions wrote for all but the
  -- last spend of a transaction: take them from another output of the same transaction
  let restored ←
    if undo.nHeight = 0 then do
      let (alternate, view) ← accessByTxid view out.hash
      if !alternate.isSpent then
        some (some { undo with nHeight := alternate.nHeight, fCoinBase := alternate.fCoinBase },
          view)
      else some (none, view)
    else some (some undo, view)
  match restored with
  | (none, view) => some (.disconnectFailed, view)
  | (some undo, view) => do
      let view ← view.addCoin out undo (!fClean)
      some (if fClean then .disconnectOk else .disconnectUnclean, view)

/-- The outputs loop of `DisconnectBlock` from output `o` on: each spendable output is spent
and must have been there as the transaction created it. -/
def spendOutputsFrom (tx : CTransaction) (nHeight : Int32) (isCoinbase : Bool) :
    Nat → List CTxOut → Bool → CoinsStack → Option (Bool × CoinsStack)
  | _, [], fClean, view => some (fClean, view)
  | o, out :: rest, fClean, view =>
      if isUnspendable out.scriptPubKey then
        spendOutputsFrom tx nHeight isCoinbase (o + 1) rest fClean view
      else do
        let (moved, view) ← view.spendCoin ⟨tx.hash, UInt32.ofNat o⟩
        let coin := moved.getD Coin.empty
        let mismatch := moved.isNone || out != coin.out ||
          nHeight.toInt != (coin.nHeight.toNat : Int) || isCoinbase != coin.fCoinBase
        spendOutputsFrom tx nHeight isCoinbase (o + 1) rest (fClean && !mismatch) view

/-- The inputs loop of `DisconnectBlock`, the last input first: `none` where an undo fails. -/
def restoreInputs : List (Coin × CTxIn) → Bool → CoinsStack → Option (Option Bool × CoinsStack)
  | [], fClean, view => some (some fClean, view)
  | (undo, txin) :: rest, fClean, view => do
      let (res, view) ← applyTxInUndo undo view txin.prevout
      if res = .disconnectFailed then some (none, view)
      else restoreInputs rest (fClean && res != .disconnectUnclean) view

/-- The body of the loop of `DisconnectBlock` for the transactions from the last to the
first, each with its undo record (none for the coinbase). -/
def disconnectTxs (nHeight : Int32) : List (CTransaction × Option CTxUndo) → Bool →
    CoinsStack → Option (DisconnectResult × CoinsStack)
  | [], fClean, view =>
      some (if fClean then .disconnectOk else .disconnectUnclean, view)
  | (tx, txundo) :: rest, fClean, view => do
      let (fClean, view) ← spendOutputsFrom tx nHeight tx.isCoinBase 0 tx.vout fClean view
      match txundo with
      | none => disconnectTxs nHeight rest fClean view
      | some txundo =>
          if txundo.vprevout.length ≠ tx.vin.length then some (.disconnectFailed, view)
          else
            match ← restoreInputs (txundo.vprevout.zip tx.vin).reverse fClean view with
            | (none, view) => some (.disconnectFailed, view)
            | (some fClean, view) => disconnectTxs nHeight rest fClean view

/-- The transactions of a block with their undo records, the coinbase's none. -/
def withUndo (vtx : List CTransaction) (vtxundo : List CTxUndo) :
    List (CTransaction × Option CTxUndo) :=
  vtx.zip (none :: vtxundo.map some)

def disconnectBlockCoins (block : CBlock) (nHeight : Int32) (blockUndo : CBlockUndo)
    (view : CoinsStack) : Option (DisconnectResult × CoinsStack) :=
  if blockUndo.vtxundo.length + 1 ≠ block.vtx.length then some (.disconnectFailed, view)
  else disconnectTxs nHeight (withUndo block.vtx blockUndo.vtxundo).reverse true view

end Freycoin.Validation
