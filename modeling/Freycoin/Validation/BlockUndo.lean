import Freycoin.Validation.DisconnectSpec

/-! Disconnecting a block with the undo data connecting it produced gives back the view it
was connected to. -/

namespace Freycoin.Validation

open Freycoin.Coins FunctionUpdates Simulation

theorem disconnectBlock_undoes_connectBlock (block : CBlock) (nHeight : Int32)
    (view : CoinsStack) (valid : view.Valid) (hasCache : view.caches ≠ [])
    (positive : 0 < nHeight.toInt)
    (heights : ∀ outpoint coin, view.view outpoint = some coin → 0 < coin.nHeight.toNat)
    (scripts : ∀ outpoint coin, view.view outpoint = some coin →
      isUnspendable coin.out.scriptPubKey = false)
    (coinbaseOnly : ∃ coinbase txs, block.vtx = coinbase :: txs ∧ coinbase.isCoinBase = true ∧
      ∀ tx ∈ txs, tx.isCoinBase = false)
    (connects : Admissible (TxConnects nHeight) (applyTx nHeight) view.view block.vtx) :
    ∃ blockUndo connected, connectBlockCoins block nHeight view = some (blockUndo, connected) ∧
      ∃ disconnected, disconnectBlockCoins block nHeight blockUndo connected =
          some (.disconnectOk, disconnected) ∧ disconnected.views = view.views := by
  obtain ⟨coinbase, txs, vtx, coinbaseFlag, notCoinbase⟩ := coinbaseOnly
  have top : TopView view view.views.tail := ⟨valid, hasCache, rfl⟩
  have restorable : ViewRestorable view.view := by
    intro outpoint coin found
    have height : coin.nHeight ≠ 0 := fun zero => by
      have above := heights outpoint coin found
      rw [zero] at above
      simp at above
    exact ⟨StackValid.live valid outpoint coin found, height, scripts outpoint coin found⟩
  obtain ⟨connected, connect, connectedTop, connectedView⟩ :=
    connectBlockCoins_spec vtx top connects
  rw [vtx] at connects connectedView
  obtain ⟨connectsCoinbase, later⟩ := connects
  -- the transactions after the coinbase are undone first, back to the view the coinbase left
  obtain ⟨afterCoinbase, run, afterTop, afterView⟩ :=
    disconnectTxs_undoes positive txs [(coinbase, none)] true connectedTop connectedView later
      (viewRestorable_applyTx restorable positive connectsCoinbase.outputsNotNull) notCoinbase
  obtain ⟨disconnected, undone, disconnectedTop, disconnectedView⟩ :=
    disconnectTxs_coinbase (Int.le_of_lt positive) afterTop connectsCoinbase afterView
      coinbaseFlag [] true
  refine ⟨_, connected, connect, disconnected, ?_, ?_⟩
  · have consistent : (undosOf nHeight (applyTx nHeight view.view coinbase) txs).length + 1 =
        block.vtx.length := by
      rw [vtx, length_undosOf, List.length_cons]
    rw [disconnectBlockCoins, if_neg (not_not.mpr consistent), vtx, withUndo]
    dsimp only
    rw [List.zip_cons_cons, List.reverse_cons, run, undone]
    rfl
  · rw [disconnectedTop.views, disconnectedView]
    exact top.views.symm

def priorOutpoint : COutPoint := ⟨Vector.replicate 32 7, 0⟩

def priorCoin : Coin := ⟨⟨50, [0x51]⟩, false, 1⟩

def priorBase (outpoint : COutPoint) : Option Coin :=
  if outpoint = priorOutpoint then some priorCoin else none

/-- Before the block: a cache, still empty, over a base view with one coin of fifty units
locked by `OP_TRUE` at height one. -/
def priorView : CoinsStack := ⟨[∅], priorBase⟩

theorem eq_of_single_found {target outpoint : COutPoint} {stored coin : Coin}
    (found : (if outpoint = target then some stored else none) = some coin) : coin = stored := by
  split at found
  · cases found
    rfl
  · cases found

theorem priorBase_live : ViewUnspent priorBase := fun _ _ found => by
  rw [eq_of_single_found found]
  rfl

theorem priorView_valid : priorView.Valid :=
  ⟨cacheValid_empty priorBase, priorBase_live⟩

theorem priorView_coin {outpoint : COutPoint} {coin : Coin}
    (found : priorView.view outpoint = some coin) : coin = priorCoin :=
  eq_of_single_found (show priorBase outpoint = some coin from found)

theorem priorView_heights :
    ∀ outpoint coin, priorView.view outpoint = some coin → 0 < coin.nHeight.toNat :=
  fun _ _ found => by
    rw [priorView_coin found]
    decide

theorem priorView_scripts : ∀ outpoint coin, priorView.view outpoint = some coin →
    isUnspendable coin.out.scriptPubKey = false := fun _ _ found => by
  rw [priorView_coin found]
  decide

def nullPrevout : COutPoint := ⟨Vector.replicate 32 0, COutPoint.nullIndex⟩

/-- A coinbase paying twenty-five units, and a transaction moving the prior coin. -/
def rewardTx : CTransaction := ⟨[⟨nullPrevout⟩], [⟨25, [0x51]⟩], Vector.replicate 32 1⟩

def spendTx : CTransaction := ⟨[⟨priorOutpoint⟩], [⟨50, [0x51]⟩], Vector.replicate 32 2⟩

def sampleBlock : CBlock := ⟨[rewardTx, spendTx]⟩

theorem sampleBlock_coinbase_first : ∃ coinbase txs, sampleBlock.vtx = coinbase :: txs ∧
    coinbase.isCoinBase = true ∧ ∀ tx ∈ txs, tx.isCoinBase = false :=
  ⟨rewardTx, [spendTx], rfl, by decide, by decide⟩

theorem sample_block_round_trip :
    priorView.Valid ∧ priorView.caches ≠ [] ∧ 0 < (1 : Int32).toInt ∧
      (∀ outpoint coin, priorView.view outpoint = some coin → 0 < coin.nHeight.toNat) ∧
      (∀ outpoint coin, priorView.view outpoint = some coin →
        isUnspendable coin.out.scriptPubKey = false) ∧
      (∃ coinbase txs, sampleBlock.vtx = coinbase :: txs ∧ coinbase.isCoinBase = true ∧
        ∀ tx ∈ txs, tx.isCoinBase = false) ∧
      Admissible (TxConnects 1) (applyTx 1) priorView.view sampleBlock.vtx ∧
      ∃ blockUndo connected, connectBlockCoins sampleBlock 1 priorView =
          some (blockUndo, connected) ∧
        ∃ disconnected, disconnectBlockCoins sampleBlock 1 blockUndo connected =
            some (.disconnectOk, disconnected) ∧ disconnected.views = priorView.views := by
  have connects : Admissible (TxConnects 1) (applyTx 1) priorView.view sampleBlock.vtx :=
    ⟨⟨by decide, by decide, by decide, by decide, by decide⟩,
      ⟨by decide, by decide, by decide, by decide, by decide⟩, trivial⟩
  exact ⟨priorView_valid, List.cons_ne_nil _ _, by decide, priorView_heights, priorView_scripts,
    sampleBlock_coinbase_first, connects, disconnectBlock_undoes_connectBlock sampleBlock 1
      priorView priorView_valid (List.cons_ne_nil _ _) (by decide) priorView_heights
      priorView_scripts sampleBlock_coinbase_first connects⟩

/-- A coinbase without outputs, and a transaction that names the prior coin twice. -/
def bareCoinbase : CTransaction := ⟨[⟨nullPrevout⟩], [], Vector.replicate 32 1⟩

def doubleSpend : CTransaction := ⟨[⟨priorOutpoint⟩, ⟨priorOutpoint⟩], [], Vector.replicate 32 2⟩

def doubleSpendBlock : CBlock := ⟨[bareCoinbase, doubleSpend]⟩

/-- The view after connecting it: the prior coin fetched into the cache and spent there,
DIRTY and not FRESH. -/
def spentTwice : CoinsStack :=
  ⟨[(∅ : CCoinsMap).insert priorOutpoint ⟨Coin.empty, true, false⟩], priorBase⟩

theorem spentTwice_top : TopView spentTwice [priorBase] :=
  ⟨⟨(cacheValid_empty priorBase).insert ⟨fun clean => (by cases clean),
    fun fresh => (by cases fresh), fun _ => rfl⟩, priorBase_live⟩, List.cons_ne_nil _ _, rfl⟩

theorem spentTwice_unknown (index : UInt32) :
    spentTwice.view ⟨priorOutpoint.hash, index⟩ = none := by
  by_cases same : (⟨priorOutpoint.hash, index⟩ : COutPoint) = priorOutpoint
  · rw [same]
    rfl
  · show cacheView ((∅ : CCoinsMap).insert priorOutpoint _) priorBase _ = none
    rw [cacheView_insert_ne same, cacheView_empty, priorBase, if_neg same]

theorem duplicate_input_defeats_disconnect :
    priorView.Valid ∧ priorView.caches ≠ [] ∧ 0 < (1 : Int32).toInt ∧
      (∀ outpoint coin, priorView.view outpoint = some coin → 0 < coin.nHeight.toNat) ∧
      bareCoinbase.isCoinBase = true ∧ doubleSpend.isCoinBase = false ∧
      (∀ txin ∈ doubleSpend.vin, applyTx 1 priorView.view bareCoinbase txin.prevout ≠ none) ∧
      createdCoins bareCoinbase 1 = [] ∧ createdCoins doubleSpend 1 = [] ∧
      connectBlockCoins doubleSpendBlock 1 priorView =
        some (⟨[⟨[priorCoin, Coin.empty]⟩]⟩, spentTwice) ∧
      ∃ disconnected, disconnectBlockCoins doubleSpendBlock 1 ⟨[⟨[priorCoin, Coin.empty]⟩]⟩
        spentTwice = some (.disconnectFailed, disconnected) := by
  -- the second input's undo coin is the spent one, without a height: its legacy path fails
  obtain ⟨failedStack, failed⟩ :=
    applyTxInUndo_of_unknown spentTwice_top (rfl : Coin.empty.nHeight = 0) spentTwice_unknown
  have restored : restoreInputs ([priorCoin, Coin.empty].zip doubleSpend.vin).reverse true
      spentTwice = some (none, failedStack) := by
    show restoreInputs [(Coin.empty, ⟨priorOutpoint⟩), (priorCoin, ⟨priorOutpoint⟩)] true
      spentTwice = _
    rw [restoreInputs, failed]
    rfl
  have outputs : spendOutputsFrom doubleSpend 1 doubleSpend.isCoinBase 0 doubleSpend.vout true
      spentTwice = some (true, spentTwice) := rfl
  refine ⟨priorView_valid, List.cons_ne_nil _ _, by decide, priorView_heights, by decide, by decide,
    by decide, rfl, rfl, rfl, failedStack, ?_⟩
  rw [disconnectBlockCoins, if_neg (by decide)]
  show disconnectTxs 1 [(doubleSpend, some ⟨[priorCoin, Coin.empty]⟩), (bareCoinbase, none)] true
    spentTwice = _
  rw [disconnectTxs, outputs, Option.bind_eq_bind, Option.bind_some]
  dsimp only
  rw [if_neg (by decide), restored, Option.bind_eq_bind, Option.bind_some]

/-- A coinbase whose only output is the null `CTxOut`: `AddCoin` asserts on it. -/
def nullRewardTx : CTransaction := ⟨[⟨nullPrevout⟩], [⟨-1, [0x51]⟩], Vector.replicate 32 1⟩

def nullOutputBlock : CBlock := ⟨[nullRewardTx]⟩

theorem null_output_defeats_connect :
    priorView.Valid ∧ priorView.caches ≠ [] ∧ 0 < (1 : Int32).toInt ∧
      nullRewardTx.isCoinBase = true ∧ (spentOutpoints nullRewardTx).Nodup ∧
      ((createdCoins nullRewardTx 1).map Prod.fst).Nodup ∧
      (∀ outpoint ∈ (createdCoins nullRewardTx 1).map Prod.fst,
        updateAll priorView.view (removeKeys (spentOutpoints nullRewardTx)) outpoint = none) ∧
      (∃ out ∈ nullRewardTx.vout, out.isNull = true) ∧
      connectBlockCoins nullOutputBlock 1 priorView = none := by
  have fresh : ∀ outpoint ∈ (createdCoins nullRewardTx 1).map Prod.fst,
      updateAll priorView.view (removeKeys (spentOutpoints nullRewardTx)) outpoint = none := by
    intro outpoint created
    rw [show (createdCoins nullRewardTx 1).map Prod.fst = [⟨Vector.replicate 32 1, 0⟩] from rfl,
      List.mem_singleton] at created
    subst created
    decide
  exact ⟨priorView_valid, List.cons_ne_nil _ _, by decide, by decide, by decide, by decide,
    fresh, ⟨_, List.mem_singleton_self _, rfl⟩, rfl⟩

/-- The prior coin again, but locked by `OP_RETURN`: `AddCoin` drops it when it is put back. -/
def burntCoin : Coin := ⟨⟨50, [0x6a]⟩, false, 1⟩

def burntBase (outpoint : COutPoint) : Option Coin :=
  if outpoint = priorOutpoint then some burntCoin else none

def burntView : CoinsStack := ⟨[∅], burntBase⟩

theorem unspendable_coin_defeats_disconnect :
    burntView.Valid ∧ burntView.caches ≠ [] ∧ 0 < (1 : Int32).toInt ∧
      (∀ outpoint coin, burntView.view outpoint = some coin → 0 < coin.nHeight.toNat) ∧
      (∃ coinbase txs, sampleBlock.vtx = coinbase :: txs ∧ coinbase.isCoinBase = true ∧
        ∀ tx ∈ txs, tx.isCoinBase = false) ∧
      Admissible (TxConnects 1) (applyTx 1) burntView.view sampleBlock.vtx ∧
      burntView.view priorOutpoint = some burntCoin ∧
      isUnspendable burntCoin.out.scriptPubKey = true ∧
      ∃ blockUndo connected, connectBlockCoins sampleBlock 1 burntView =
          some (blockUndo, connected) ∧
        ∃ disconnected, disconnectBlockCoins sampleBlock 1 blockUndo connected =
            some (.disconnectOk, disconnected) ∧ disconnected.view priorOutpoint = none := by
  have live : ViewUnspent burntBase := fun _ _ found => by
    rw [eq_of_single_found found]
    rfl
  have heights : ∀ outpoint coin, burntView.view outpoint = some coin →
      0 < coin.nHeight.toNat := fun outpoint coin found => by
    rw [eq_of_single_found (show burntBase outpoint = some coin from found)]
    decide
  have connects : Admissible (TxConnects 1) (applyTx 1) burntView.view sampleBlock.vtx :=
    ⟨⟨by decide, by decide, by decide, by decide, by decide⟩,
      ⟨by decide, by decide, by decide, by decide, by decide⟩, trivial⟩
  -- both runs are computed: the restored coin is reported clean, and is not there
  exact ⟨⟨cacheValid_empty burntBase, live⟩, List.cons_ne_nil _ _, by decide, heights,
    sampleBlock_coinbase_first, connects, rfl, rfl,
    _, _, rfl, _, rfl, rfl⟩

end Freycoin.Validation
