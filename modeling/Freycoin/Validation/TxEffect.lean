import Freycoin.Validation.BlockCoins
import Freycoin.Library.FunctionUpdates
import Freycoin.Library.Simulation

/-! What a transaction does to the UTXO map, as a map from outpoint to unspent coin: it
removes the outpoints its inputs spend (none for a coinbase), then sets a coin at the
outpoint of each spendable output. Its undo record is the coins it removed. -/

namespace Freycoin.Validation

open Freycoin.Coins FunctionUpdates

def spentOutpoints (tx : CTransaction) : List COutPoint :=
  if tx.isCoinBase then [] else tx.vin.map CTxIn.prevout

/-- The coins the outputs from index `i` on create, at their outpoints. -/
def createdFrom (tx : CTransaction) (nHeight : Int32) : Nat → List CTxOut →
    List (COutPoint × Coin)
  | _, [] => []
  | i, out :: rest =>
      if isUnspendable out.scriptPubKey then createdFrom tx nHeight (i + 1) rest
      else (⟨tx.hash, UInt32.ofNat i⟩, Coin.ofTxOut out nHeight tx.isCoinBase) ::
        createdFrom tx nHeight (i + 1) rest

def createdCoins (tx : CTransaction) (nHeight : Int32) : List (COutPoint × Coin) :=
  createdFrom tx nHeight 0 tx.vout

def applyTx (nHeight : Int32) (view : COutPoint → Option Coin) (tx : CTransaction) :
    COutPoint → Option Coin :=
  updateAll (updateAll view (removeKeys (spentOutpoints tx))) (setEntries (createdCoins tx nHeight))

def txUndoOf (view : COutPoint → Option Coin) (tx : CTransaction) : CTxUndo :=
  ⟨(spentOutpoints tx).map fun outpoint => (view outpoint).getD Coin.empty⟩

/-- The undo records of transactions applied in order, each taken from the map before it. -/
def undosOf (nHeight : Int32) : (COutPoint → Option Coin) → List CTransaction → List CTxUndo
  | _, [] => []
  | view, tx :: rest => txUndoOf view tx :: undosOf nHeight (applyTx nHeight view tx) rest

/-- The edits with which `DisconnectBlock` restores the inputs: the last input first. -/
def restoreEntries (vprevout : List Coin) (vin : List CTxIn) : List (COutPoint × Coin) :=
  ((vprevout.zip vin).reverse).map fun pair => (pair.2.prevout, pair.1)

structure TxConnects (nHeight : Int32) (view : COutPoint → Option Coin) (tx : CTransaction) :
    Prop where
  inputsDistinct : (spentOutpoints tx).Nodup
  inputsUnspent : ∀ outpoint ∈ spentOutpoints tx, view outpoint ≠ none
  outputsNotNull : ∀ out ∈ tx.vout, out.isNull = false
  outputsDistinct : ((createdCoins tx nHeight).map Prod.fst).Nodup
  outputsFresh : ∀ outpoint ∈ (createdCoins tx nHeight).map Prod.fst,
    updateAll view (removeKeys (spentOutpoints tx)) outpoint = none

structure Restorable (coin : Coin) : Prop where
  unspent : coin.isSpent = false
  height : coin.nHeight ≠ 0
  spendable : isUnspendable coin.out.scriptPubKey = false

def ViewRestorable (view : COutPoint → Option Coin) : Prop :=
  ∀ outpoint coin, view outpoint = some coin → Restorable coin

section Heights

variable {nHeight : Int32}

theorem ofTxOut_nHeight_toNat (nonneg : 0 ≤ nHeight.toInt) (out : CTxOut) (fCoinBase : Bool) :
    ((Coin.ofTxOut out nHeight fCoinBase).nHeight.toNat : Int) = nHeight.toInt := by
  have below : nHeight.toInt < 2 ^ 31 := Int32.toInt_lt nHeight
  rw [Coin.ofTxOut, BitVec.toNat_ofInt, Int.toNat_of_nonneg (Int.emod_nonneg _ (by decide)),
    Int.emod_eq_of_lt nonneg (by simpa using below)]

theorem ofTxOut_nHeight_ne_zero (positive : 0 < nHeight.toInt) (out : CTxOut)
    (fCoinBase : Bool) : (Coin.ofTxOut out nHeight fCoinBase).nHeight ≠ 0 := by
  intro zero
  have kept := ofTxOut_nHeight_toNat (Int.le_of_lt positive) out fCoinBase
  rw [zero] at kept
  have lost : (0 : Int) = nHeight.toInt := by simpa using kept
  omega

end Heights

section Created

variable {tx : CTransaction} {nHeight : Int32}

theorem createdFrom_cons (i : Nat) (out : CTxOut) (rest : List CTxOut) :
    createdFrom tx nHeight i (out :: rest) =
      if isUnspendable out.scriptPubKey then createdFrom tx nHeight (i + 1) rest
      else (⟨tx.hash, UInt32.ofNat i⟩, Coin.ofTxOut out nHeight tx.isCoinBase) ::
        createdFrom tx nHeight (i + 1) rest := rfl

theorem createdFrom_mem : ∀ {i : Nat} {outs : List CTxOut} {created : COutPoint × Coin},
    created ∈ createdFrom tx nHeight i outs →
      ∃ out ∈ outs, created.2 = Coin.ofTxOut out nHeight tx.isCoinBase ∧
        isUnspendable out.scriptPubKey = false
  | _, [], _, inside => absurd inside List.not_mem_nil
  | i, out :: rest, created, inside => by
      rw [createdFrom_cons] at inside
      by_cases unspendable : isUnspendable out.scriptPubKey = true
      · rw [if_pos unspendable] at inside
        obtain ⟨out', mem, coin, spendable⟩ := createdFrom_mem inside
        exact ⟨out', List.mem_cons_of_mem _ mem, coin, spendable⟩
      · rw [if_neg unspendable] at inside
        rcases List.mem_cons.mp inside with rfl | later
        · exact ⟨out, List.mem_cons_self, rfl, by simpa using unspendable⟩
        · obtain ⟨out', mem, coin, spendable⟩ := createdFrom_mem later
          exact ⟨out', List.mem_cons_of_mem _ mem, coin, spendable⟩

theorem createdCoins_restorable (positive : 0 < nHeight.toInt)
    (notNull : ∀ out ∈ tx.vout, out.isNull = false) {created : COutPoint × Coin}
    (inside : created ∈ createdCoins tx nHeight) : Restorable created.2 := by
  obtain ⟨out, listed, coin, spendable⟩ := createdFrom_mem inside
  rw [coin]
  exact ⟨notNull out listed, ofTxOut_nHeight_ne_zero positive out _, spendable⟩

end Created

section Effect

variable {nHeight : Int32} {view : COutPoint → Option Coin} {tx : CTransaction}

theorem spentOutpoints_of_not_isCoinBase (notCoinbase : tx.isCoinBase = false) :
    spentOutpoints tx = tx.vin.map CTxIn.prevout := by
  rw [spentOutpoints, if_neg (by simp [notCoinbase])]

theorem spentOutpoints_of_isCoinBase (coinbase : tx.isCoinBase = true) :
    spentOutpoints tx = [] := by
  rw [spentOutpoints, if_pos coinbase]

theorem updateAll_removeKeys_of_mem {outpoint : COutPoint} :
    ∀ {outpoints : List COutPoint} {view : COutPoint → Option Coin}, outpoint ∈ outpoints →
      updateAll view (removeKeys outpoints) outpoint = none
  | [], _, inside => absurd inside List.not_mem_nil
  | first :: rest, view, inside => by
      show updateAll (Function.update view first none) (removeKeys rest) outpoint = none
      by_cases later : outpoint ∈ rest
      · exact updateAll_removeKeys_of_mem later
      · have first_eq : outpoint = first := by simpa [later] using inside
        rw [updateAll_of_notMem (by simpa using later), first_eq, Function.update_self]

theorem length_undosOf (nHeight : Int32) : ∀ (view : COutPoint → Option Coin)
    (txs : List CTransaction), (undosOf nHeight view txs).length = txs.length
  | _, [] => rfl
  | view, tx :: txs => by
      rw [undosOf, List.length_cons, List.length_cons, length_undosOf]

theorem applyTx_created (connects : TxConnects nHeight view tx) {created : COutPoint × Coin}
    (inside : created ∈ createdCoins tx nHeight) :
    applyTx nHeight view tx created.1 = some created.2 := by
  have distinct : ((setEntries (createdCoins tx nHeight)).map Prod.fst).Nodup := by
    simpa using connects.outputsDistinct
  exact updateAll_of_mem distinct (List.mem_map_of_mem inside)

theorem applyTx_removeCreated (connects : TxConnects nHeight view tx) :
    updateAll (applyTx nHeight view tx) (removeKeys ((createdCoins tx nHeight).map Prod.fst)) =
      updateAll view (removeKeys (spentOutpoints tx)) := by
  have distinct : ((removeKeys ((createdCoins tx nHeight).map Prod.fst) :
      List (COutPoint × Option Coin)).map Prod.fst).Nodup := by
    simpa using connects.outputsDistinct
  rw [applyTx, updateAll_override (by simp) distinct]
  -- nothing was unspent at the created outpoints before they were created
  apply updateAll_of_agree
  intro edit inside
  obtain ⟨outpoint, created, rfl⟩ := List.mem_map.mp inside
  exact connects.outputsFresh outpoint created

theorem zip_map_self {α γ : Type} (g : α → γ) :
    ∀ l : List α, (l.map g).zip l = l.map fun a => (g a, a)
  | [] => rfl
  | a :: l => by rw [List.map_cons, List.zip_cons_cons, zip_map_self g l, List.map_cons]

theorem txUndoOf_zip (notCoinbase : tx.isCoinBase = false) :
    (txUndoOf view tx).vprevout.zip tx.vin =
      tx.vin.map fun txin => ((view txin.prevout).getD Coin.empty, txin) := by
  simp only [txUndoOf, spentOutpoints_of_not_isCoinBase notCoinbase, List.map_map]
  exact zip_map_self _ tx.vin

theorem restoreEntries_txUndoOf (notCoinbase : tx.isCoinBase = false) :
    restoreEntries (txUndoOf view tx).vprevout tx.vin =
      (tx.vin.map fun txin => (txin.prevout, (view txin.prevout).getD Coin.empty)).reverse := by
  rw [restoreEntries, txUndoOf_zip notCoinbase, List.map_reverse, List.map_map]
  rfl

theorem restore_spent (connects : TxConnects nHeight view tx) (notCoinbase : tx.isCoinBase = false) :
    updateAll (updateAll view (removeKeys (spentOutpoints tx)))
      (setEntries (restoreEntries (txUndoOf view tx).vprevout tx.vin)) = view := by
  have keys : (setEntries (restoreEntries (txUndoOf view tx).vprevout tx.vin)).map Prod.fst =
      (spentOutpoints tx).reverse := by
    rw [keys_setEntries, restoreEntries_txUndoOf notCoinbase,
      spentOutpoints_of_not_isCoinBase notCoinbase, List.map_reverse, List.map_map]
    rfl
  have distinct : (spentOutpoints tx).reverse.Nodup := List.nodup_reverse.mpr connects.inputsDistinct
  rw [updateAll_override (by simp [keys]) (keys ▸ distinct)]
  -- each input was unspent, so its undo coin is the coin the map had
  apply updateAll_of_agree
  intro edit inside
  rw [setEntries, restoreEntries_txUndoOf notCoinbase, List.map_reverse, List.mem_reverse,
    List.map_map, List.mem_map] at inside
  obtain ⟨txin, listed, rfl⟩ := inside
  have unspentInput : view txin.prevout ≠ none := connects.inputsUnspent txin.prevout
    (by rw [spentOutpoints_of_not_isCoinBase notCoinbase]; exact List.mem_map_of_mem listed)
  obtain ⟨coin, found⟩ := Option.ne_none_iff_exists'.mp unspentInput
  simp [found]

theorem viewRestorable_applyTx (restorable : ViewRestorable view)
    (positive : 0 < nHeight.toInt) (notNull : ∀ out ∈ tx.vout, out.isNull = false) :
    ViewRestorable (applyTx nHeight view tx) := by
  intro outpoint coin found
  rw [applyTx] at found
  rcases updateAll_eq_or_mem (updateAll view (removeKeys (spentOutpoints tx))) outpoint
    (setEntries (createdCoins tx nHeight)) with kept | created
  · rw [kept] at found
    rcases updateAll_eq_or_mem view outpoint (removeKeys (spentOutpoints tx)) with old | removed
    · exact restorable outpoint coin (old ▸ found)
    · -- a removal writes nothing, so the coin cannot come from one
      rw [found, removeKeys, List.mem_map] at removed
      obtain ⟨_, -, written⟩ := removed
      cases written
  · rw [found, setEntries, List.mem_map] at created
    obtain ⟨entry, inside, written⟩ := created
    cases written
    exact createdCoins_restorable positive notNull inside

end Effect

end Freycoin.Validation
