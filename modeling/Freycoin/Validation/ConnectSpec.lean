import Freycoin.Validation.TxEffect
import Freycoin.Coins.StackRefinement

/-! Connecting a block's transactions to a cache does to the cache's view what `applyTx`
does to a map, and leaves as undo data the records `undosOf` computes. -/

namespace Freycoin.Validation

open Freycoin.Coins FunctionUpdates Simulation

structure TopView (stack : CoinsStack) (rest : List (COutPoint → Option Coin)) : Prop where
  valid : stack.Valid
  hasCache : stack.caches ≠ []
  below : stack.views.tail = rest

namespace TopView

variable {stack stack' : CoinsStack} {rest : List (COutPoint → Option Coin)}

theorem views (top : TopView stack rest) : stack.views = stack.view :: rest := by
  rw [CoinsStack.views_eq, top.below]

theorem inside (top : TopView stack rest) : 0 < stack.caches.length :=
  List.length_pos_iff.mpr top.hasCache

theorem of_views (top : TopView stack rest) {level : COutPoint → Option Coin}
    (valid' : stack'.Valid) (views' : stack'.views = level :: stack.views.tail) :
    TopView stack' rest ∧ stack'.view = level := by
  have several : 1 < stack'.views.length := by
    have length := CoinsStack.caches_length stack
    rw [views', List.length_cons, List.length_tail, length]
    have := top.inside
    omega
  have shown : stack'.view :: stack'.views.tail = level :: stack.views.tail := by
    rw [← CoinsStack.views_eq, views']
  obtain ⟨viewEq, tailEq⟩ := List.cons.inj shown
  exact ⟨⟨valid', CoinsStack.caches_ne_nil several, tailEq.trans top.below⟩, viewEq⟩

theorem of_same (top : TopView stack rest) (valid' : stack'.Valid)
    (views' : stack'.views = stack.views) : TopView stack' rest ∧ stack'.view = stack.view :=
  top.of_views valid' (views'.trans (CoinsStack.views_eq stack))

theorem haveCoin (top : TopView stack rest) (outpoint : COutPoint) :
    ∃ stack', stack.haveCoinAt 0 outpoint = some ((stack.view outpoint).isSome, stack') ∧
      TopView stack' rest ∧ stack'.view = stack.view := by
  obtain ⟨found, stack', asked, valid', views', foundLevel⟩ :=
    stack.haveCoinAt_spec top.valid top.inside outpoint
  have reported : found = (stack.view outpoint).isSome :=
    foundLevel stack.view (by rw [top.views]; rfl)
  rw [reported] at asked
  exact ⟨stack', asked, top.of_same valid' views'⟩

theorem accessCoin (top : TopView stack rest) (outpoint : COutPoint) :
    ∃ stack', stack.accessCoinAt 0 outpoint = some ((stack.view outpoint).getD Coin.empty, stack') ∧
      TopView stack' rest ∧ stack'.view = stack.view := by
  obtain ⟨coin, stack', read, valid', views', coinLevel⟩ :=
    stack.accessCoinAt_spec top.valid top.inside outpoint
  have reported : coin = (stack.view outpoint).getD Coin.empty :=
    coinLevel stack.view (by rw [top.views]; rfl)
  rw [reported] at read
  exact ⟨stack', read, top.of_same valid' views'⟩

theorem spendCoin (top : TopView stack rest) {outpoint : COutPoint} {coin : Coin}
    (found : stack.view outpoint = some coin) :
    ∃ stack', stack.spendCoin outpoint = some (some coin, stack') ∧ TopView stack' rest ∧
      stack'.view = Function.update stack.view outpoint none := by
  obtain ⟨moved, stack', spent, valid', views', movedCoin⟩ :=
    @CoinsStack.spendCoin_spec stack outpoint top.valid top.hasCache
  rw [movedCoin coin found] at spent
  exact ⟨stack', spent, top.of_views valid' views'⟩

theorem addCoin (top : TopView stack rest) (outpoint : COutPoint) {coin : Coin}
    (possibleOverwrite : Bool) (unspentCoin : coin.isSpent = false)
    (promise : possibleOverwrite = false → isUnspendable coin.out.scriptPubKey = false →
      stack.view outpoint = none) :
    ∃ stack', stack.addCoin outpoint coin possibleOverwrite = some stack' ∧ TopView stack' rest ∧
      stack'.view = if isUnspendable coin.out.scriptPubKey then stack.view
        else Function.update stack.view outpoint (some coin) := by
  obtain ⟨stack', added, valid', views'⟩ :=
    @CoinsStack.addCoin_spec stack outpoint coin possibleOverwrite top.valid top.hasCache
      unspentCoin promise
  exact ⟨stack', added, top.of_views valid' views'⟩

end TopView

section Connect

variable {rest : List (COutPoint → Option Coin)}

theorem spendInputs_spec : ∀ (vin : List CTxIn) {stack : CoinsStack}, TopView stack rest →
    (vin.map CTxIn.prevout).Nodup → (∀ txin ∈ vin, stack.view txin.prevout ≠ none) →
    ∃ stack', spendInputs vin stack =
        some (vin.map fun txin => (stack.view txin.prevout).getD Coin.empty, stack') ∧
      TopView stack' rest ∧ stack'.view = updateAll stack.view (removeKeys (vin.map CTxIn.prevout))
  | [], stack, top, _, _ => ⟨stack, rfl, top, rfl⟩
  | txin :: vin, stack, top, distinct, present => by
      rw [List.map_cons, List.nodup_cons] at distinct
      obtain ⟨coin, found⟩ := Option.ne_none_iff_exists'.mp (present txin List.mem_cons_self)
      obtain ⟨spentStack, spent, spentTop, spentView⟩ := top.spendCoin found
      -- the later inputs are elsewhere, so the first spend does not touch them
      have elsewhere : ∀ later ∈ vin, spentStack.view later.prevout = stack.view later.prevout := by
        intro later listed
        rw [spentView, Function.update_of_ne]
        exact fun same => distinct.1 (same ▸ List.mem_map_of_mem listed)
      obtain ⟨stack', spentRest, top', view'⟩ := spendInputs_spec vin spentTop distinct.2
        fun later listed => elsewhere later listed ▸ present later (List.mem_cons_of_mem _ listed)
      have movedRest : (vin.map fun later => (spentStack.view later.prevout).getD Coin.empty) =
          vin.map fun later => (stack.view later.prevout).getD Coin.empty :=
        List.map_congr_left fun later listed => by rw [elsewhere later listed]
      refine ⟨stack', ?_, top', by rw [view', spentView]; rfl⟩
      simp only [spendInputs, spent, spentRest, movedRest, found, List.map_cons,
        Option.getD_some, Option.bind_eq_bind, Option.bind_some]

theorem addCoinsFrom_spec (tx : CTransaction) (nHeight : Int32) :
    ∀ (i : Nat) (outs : List CTxOut) {stack : CoinsStack}, TopView stack rest →
      (∀ out ∈ outs, out.isNull = false) →
      ((createdFrom tx nHeight i outs).map Prod.fst).Nodup →
      (∀ outpoint ∈ (createdFrom tx nHeight i outs).map Prod.fst, stack.view outpoint = none) →
      ∃ stack', addCoinsFrom tx nHeight false i outs stack = some stack' ∧ TopView stack' rest ∧
        stack'.view = updateAll stack.view (setEntries (createdFrom tx nHeight i outs))
  | _, [], stack, top, _, _, _ => ⟨stack, rfl, top, rfl⟩
  | i, out :: outs, stack, top, notNull, distinct, fresh => by
      have unspentCoin : (Coin.ofTxOut out nHeight tx.isCoinBase).isSpent = false :=
        notNull out List.mem_cons_self
      have notNullRest : ∀ later ∈ outs, later.isNull = false :=
        fun later listed => notNull later (List.mem_cons_of_mem _ listed)
      rw [createdFrom_cons] at distinct fresh ⊢
      by_cases unspendable : isUnspendable out.scriptPubKey = true
      · -- `AddCoin` returns before looking at the outpoint
        rw [if_pos unspendable] at distinct fresh ⊢
        obtain ⟨added, addedStep, addedTop, addedView⟩ :=
          top.addCoin ⟨tx.hash, UInt32.ofNat i⟩ tx.isCoinBase unspentCoin fun _ spendable => by
            rw [Coin.ofTxOut_out, unspendable] at spendable
            cases spendable
        rw [Coin.ofTxOut_out, if_pos unspendable] at addedView
        obtain ⟨stack', rest', top', view'⟩ :=
          addCoinsFrom_spec tx nHeight (i + 1) outs addedTop notNullRest distinct
            (addedView ▸ fresh)
        refine ⟨stack', ?_, top', by rw [view', addedView]⟩
        simp only [addCoinsFrom, Bool.false_eq_true, if_false, addedStep, rest',
          Option.bind_eq_bind, Option.bind_some]
      · rw [if_neg unspendable] at distinct fresh ⊢
        rw [List.map_cons, List.nodup_cons] at distinct
        have landing : stack.view ⟨tx.hash, UInt32.ofNat i⟩ = none :=
          fresh _ List.mem_cons_self
        obtain ⟨added, addedStep, addedTop, addedView⟩ :=
          top.addCoin ⟨tx.hash, UInt32.ofNat i⟩ tx.isCoinBase unspentCoin fun _ _ => landing
        rw [Coin.ofTxOut_out, if_neg unspendable] at addedView
        have elsewhere : ∀ outpoint ∈ (createdFrom tx nHeight (i + 1) outs).map Prod.fst,
            added.view outpoint = none := by
          intro outpoint listed
          have other : outpoint ≠ ⟨tx.hash, UInt32.ofNat i⟩ := fun same =>
            distinct.1 (by rw [← same]; exact listed)
          rw [addedView, Function.update_of_ne other]
          exact fresh outpoint (List.mem_cons_of_mem _ listed)
        obtain ⟨stack', rest', top', view'⟩ :=
          addCoinsFrom_spec tx nHeight (i + 1) outs addedTop notNullRest distinct.2 elsewhere
        refine ⟨stack', ?_, top', by rw [view', addedView]; rfl⟩
        simp only [addCoinsFrom, Bool.false_eq_true, if_false, addedStep, rest',
          Option.bind_eq_bind, Option.bind_some]

variable {nHeight : Int32}

theorem updateCoins_spec {tx : CTransaction} {stack : CoinsStack} (top : TopView stack rest)
    (connects : TxConnects nHeight stack.view tx) :
    ∃ stack', updateCoins tx stack nHeight = some (txUndoOf stack.view tx, stack') ∧
      TopView stack' rest ∧ stack'.view = applyTx nHeight stack.view tx := by
  -- the inputs are spent first; the outputs then land on the map without them
  obtain ⟨spentStack, spent, spentTop, spentView⟩ : ∃ spentStack,
      updateCoins tx stack nHeight = (addCoins spentStack tx nHeight false).bind
          (fun inputs => some (txUndoOf stack.view tx, inputs)) ∧
        TopView spentStack rest ∧
        spentStack.view = updateAll stack.view (removeKeys (spentOutpoints tx)) := by
    by_cases coinbase : tx.isCoinBase = true
    · refine ⟨stack, ?_, top, by rw [spentOutpoints_of_isCoinBase coinbase]; rfl⟩
      simp only [updateCoins, if_pos coinbase, txUndoOf, spentOutpoints_of_isCoinBase coinbase,
        List.map_nil, Option.bind_eq_bind, Option.bind_some]
    · have notCoinbase : tx.isCoinBase = false := by simpa using coinbase
      have spentList := spentOutpoints_of_not_isCoinBase notCoinbase
      obtain ⟨spentStack, spent, spentTop, spentView⟩ :=
        spendInputs_spec tx.vin top (spentList ▸ connects.inputsDistinct)
          fun txin listed => connects.inputsUnspent _ (spentList ▸ List.mem_map_of_mem listed)
      refine ⟨spentStack, ?_, spentTop, by rw [spentView, spentList]⟩
      simp only [updateCoins, if_neg coinbase, spent, txUndoOf, spentList, List.map_map,
        Option.bind_eq_bind, Option.bind_some]
      rfl
  obtain ⟨stack', added, top', view'⟩ :=
    addCoinsFrom_spec tx nHeight 0 tx.vout spentTop connects.outputsNotNull
      connects.outputsDistinct fun outpoint created => spentView ▸ connects.outputsFresh outpoint created
  refine ⟨stack', ?_, top', by rw [view', spentView]; rfl⟩
  rw [spent, addCoins, added]
  rfl

theorem updateTxsCoins_spec : ∀ (txs : List CTransaction) {stack : CoinsStack},
    TopView stack rest → Admissible (TxConnects nHeight) (applyTx nHeight) stack.view txs →
    ∃ stack', updateTxsCoins nHeight txs stack = some (undosOf nHeight stack.view txs, stack') ∧
      TopView stack' rest ∧ stack'.view = txs.foldl (applyTx nHeight) stack.view
  | [], stack, top, _ => ⟨stack, rfl, top, rfl⟩
  | tx :: txs, stack, top, ⟨connects, later⟩ => by
      obtain ⟨updated, step, updatedTop, updatedView⟩ := updateCoins_spec top connects
      obtain ⟨stack', run, top', view'⟩ :=
        updateTxsCoins_spec txs updatedTop (updatedView ▸ later)
      rw [updatedView] at run view'
      refine ⟨stack', ?_, top', view'⟩
      simp only [updateTxsCoins, step, run, undosOf, Option.bind_eq_bind, Option.bind_some]

theorem connectBlockCoins_spec {block : CBlock} {coinbase : CTransaction}
    {txs : List CTransaction} (vtx : block.vtx = coinbase :: txs) {stack : CoinsStack}
    (top : TopView stack rest)
    (connects : Admissible (TxConnects nHeight) (applyTx nHeight) stack.view block.vtx) :
    ∃ stack', connectBlockCoins block nHeight stack =
        some (⟨undosOf nHeight (applyTx nHeight stack.view coinbase) txs⟩, stack') ∧
      TopView stack' rest ∧ stack'.view = block.vtx.foldl (applyTx nHeight) stack.view := by
  rw [vtx] at connects ⊢
  obtain ⟨connectsCoinbase, later⟩ := connects
  obtain ⟨updated, step, updatedTop, updatedView⟩ := updateCoins_spec top connectsCoinbase
  obtain ⟨stack', run, top', view'⟩ := updateTxsCoins_spec txs updatedTop (updatedView ▸ later)
  rw [updatedView] at run view'
  refine ⟨stack', ?_, top', view'⟩
  simp only [connectBlockCoins, vtx, step, run, Option.bind_eq_bind, Option.bind_some]

end Connect

end Freycoin.Validation
