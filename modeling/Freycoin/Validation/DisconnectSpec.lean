import Freycoin.Validation.ConnectSpec

/-! Disconnecting transactions from the view they left, with the undo records connecting
them produced, gives the views back one transaction at a time: the outputs loop finds each
created coin as it was made and removes it, and `ApplyTxInUndo` puts each spent coin back
at an outpoint that is empty again. The legacy path of `ApplyTxInUndo`, for undo coins
without a height, fails where no other output of the transaction is left to take the
metadata from. -/

namespace Freycoin.Validation

open Freycoin.Coins FunctionUpdates Simulation

section Disconnect

variable {rest : List (COutPoint → Option Coin)} {nHeight : Int32}

theorem spendOutputsFrom_spec (tx : CTransaction) (nonneg : 0 ≤ nHeight.toInt) :
    ∀ (o : Nat) (outs : List CTxOut) (fClean : Bool) {stack : CoinsStack}, TopView stack rest →
      ((createdFrom tx nHeight o outs).map Prod.fst).Nodup →
      (∀ created ∈ createdFrom tx nHeight o outs, stack.view created.1 = some created.2) →
      ∃ stack', spendOutputsFrom tx nHeight tx.isCoinBase o outs fClean stack =
          some (fClean, stack') ∧ TopView stack' rest ∧
        stack'.view = updateAll stack.view (removeKeys ((createdFrom tx nHeight o outs).map Prod.fst))
  | _, [], fClean, stack, top, _, _ => ⟨stack, rfl, top, rfl⟩
  | o, out :: outs, fClean, stack, top, distinct, present => by
      rw [createdFrom_cons] at distinct present ⊢
      by_cases unspendable : isUnspendable out.scriptPubKey = true
      · rw [if_pos unspendable] at distinct present ⊢
        obtain ⟨stack', run, top', view'⟩ :=
          spendOutputsFrom_spec tx nonneg (o + 1) outs fClean top distinct present
        refine ⟨stack', ?_, top', view'⟩
        rw [spendOutputsFrom, if_pos unspendable, run]
      · rw [if_neg unspendable] at distinct present ⊢
        rw [List.map_cons, List.nodup_cons] at distinct
        obtain ⟨spentStack, spent, spentTop, spentView⟩ := top.spendCoin (present _ List.mem_cons_self)
        have elsewhere : ∀ created ∈ createdFrom tx nHeight (o + 1) outs,
            spentStack.view created.1 = some created.2 := by
          intro created listed
          have listedKey : created.1 ∈ (createdFrom tx nHeight (o + 1) outs).map Prod.fst :=
            List.mem_map_of_mem listed
          have other : created.1 ≠ ⟨tx.hash, UInt32.ofNat o⟩ := fun same =>
            distinct.1 (by rw [← same]; exact listedKey)
          rw [spentView, Function.update_of_ne other]
          exact present created (List.mem_cons_of_mem _ listed)
        obtain ⟨stack', run, top', view'⟩ :=
          spendOutputsFrom_spec tx nonneg (o + 1) outs fClean spentTop distinct.2 elsewhere
        -- the coin found is the one the output created: value, script, height and flag agree
        have matched : (fClean && !((some (Coin.ofTxOut out nHeight tx.isCoinBase)).isNone ||
            out != (Coin.ofTxOut out nHeight tx.isCoinBase).out ||
            nHeight.toInt != ((Coin.ofTxOut out nHeight tx.isCoinBase).nHeight.toNat : Int) ||
            tx.isCoinBase != (Coin.ofTxOut out nHeight tx.isCoinBase).fCoinBase)) = fClean := by
          simp [ofTxOut_nHeight_toNat nonneg]
        refine ⟨stack', ?_, top', by rw [view', spentView]; rfl⟩
        simp only [spendOutputsFrom, if_neg unspendable, spent, Option.bind_eq_bind,
          Option.bind_some, Option.getD_some]
        rw [matched, run]

theorem applyTxInUndo_spec {undo : Coin} {stack : CoinsStack} {out : COutPoint}
    (top : TopView stack rest) (absent : stack.view out = none) (restorable : Restorable undo) :
    ∃ stack', applyTxInUndo undo stack out = some (.disconnectOk, stack') ∧
      TopView stack' rest ∧ stack'.view = Function.update stack.view out (some undo) := by
  obtain ⟨asked, haveStep, askedTop, askedView⟩ := top.haveCoin out
  rw [absent, Option.isSome_none] at haveStep
  obtain ⟨added, addStep, addedTop, addedView⟩ :=
    askedTop.addCoin out false restorable.unspent fun _ _ => askedView ▸ absent
  rw [if_neg (by simp [restorable.spendable]), askedView] at addedView
  refine ⟨added, ?_, addedTop, addedView⟩
  simp only [applyTxInUndo, haveStep, Option.bind_eq_bind, Option.bind_some,
    if_neg restorable.height, Bool.not_false, Bool.not_true, addStep, if_true]

theorem restoreInputs_spec : ∀ (pairs : List (Coin × CTxIn)) (fClean : Bool)
    {stack : CoinsStack}, TopView stack rest →
    (pairs.map fun pair => pair.2.prevout).Nodup →
    (∀ pair ∈ pairs, stack.view pair.2.prevout = none ∧ Restorable pair.1) →
    ∃ stack', restoreInputs pairs fClean stack = some (some fClean, stack') ∧
      TopView stack' rest ∧
      stack'.view = updateAll stack.view (setEntries (pairs.map fun pair => (pair.2.prevout, pair.1)))
  | [], _, stack, top, _, _ => ⟨stack, rfl, top, rfl⟩
  | (undo, txin) :: pairs, fClean, stack, top, distinct, ready => by
      rw [List.map_cons, List.nodup_cons] at distinct
      obtain ⟨absent, restorable⟩ := ready _ List.mem_cons_self
      obtain ⟨restored, step, restoredTop, restoredView⟩ := applyTxInUndo_spec top absent restorable
      have elsewhere : ∀ pair ∈ pairs, restored.view pair.2.prevout = none ∧ Restorable pair.1 := by
        intro pair listed
        have other : pair.2.prevout ≠ txin.prevout := fun same =>
          distinct.1 (by rw [← same]; exact List.mem_map_of_mem listed)
        rw [restoredView, Function.update_of_ne other]
        exact ready pair (List.mem_cons_of_mem _ listed)
      obtain ⟨stack', run, top', view'⟩ :=
        restoreInputs_spec pairs fClean restoredTop distinct.2 elsewhere
      have kept : (fClean && DisconnectResult.disconnectOk != .disconnectUnclean) = fClean := by
        cases fClean <;> rfl
      refine ⟨stack', ?_, top', by rw [view', restoredView]; rfl⟩
      simp only [restoreInputs, step, Option.bind_eq_bind, Option.bind_some, reduceCtorEq,
        if_false]
      rw [kept, run]

variable {view : COutPoint → Option Coin} {tx : CTransaction} {stack : CoinsStack}

theorem spendOutputs_of_applyTx (nonneg : 0 ≤ nHeight.toInt) (top : TopView stack rest)
    (connects : TxConnects nHeight view tx) (applied : stack.view = applyTx nHeight view tx)
    (fClean : Bool) :
    ∃ stack', spendOutputsFrom tx nHeight tx.isCoinBase 0 tx.vout fClean stack =
        some (fClean, stack') ∧ TopView stack' rest ∧
      stack'.view = updateAll view (removeKeys (spentOutpoints tx)) := by
  obtain ⟨stack', run, top', view'⟩ :=
    spendOutputsFrom_spec tx nonneg 0 tx.vout fClean top connects.outputsDistinct
      fun created listed => applied ▸ applyTx_created connects listed
  refine ⟨stack', run, top', ?_⟩
  rw [view', applied]
  exact applyTx_removeCreated connects

theorem disconnectTxs_coinbase (nonneg : 0 ≤ nHeight.toInt) (top : TopView stack rest)
    (connects : TxConnects nHeight view tx) (applied : stack.view = applyTx nHeight view tx)
    (coinbase : tx.isCoinBase = true) (more : List (CTransaction × Option CTxUndo))
    (fClean : Bool) :
    ∃ stack', disconnectTxs nHeight ((tx, none) :: more) fClean stack =
        disconnectTxs nHeight more fClean stack' ∧ TopView stack' rest ∧ stack'.view = view := by
  obtain ⟨stack', run, top', view'⟩ := spendOutputs_of_applyTx nonneg top connects applied fClean
  rw [spentOutpoints_of_isCoinBase coinbase] at view'
  refine ⟨stack', ?_, top', view'⟩
  simp only [disconnectTxs, run, Option.bind_eq_bind, Option.bind_some]

theorem disconnectTxs_undo (nonneg : 0 ≤ nHeight.toInt) (top : TopView stack rest)
    (connects : TxConnects nHeight view tx) (restorable : ViewRestorable view)
    (applied : stack.view = applyTx nHeight view tx) (notCoinbase : tx.isCoinBase = false)
    (more : List (CTransaction × Option CTxUndo)) (fClean : Bool) :
    ∃ stack', disconnectTxs nHeight ((tx, some (txUndoOf view tx)) :: more) fClean stack =
        disconnectTxs nHeight more fClean stack' ∧ TopView stack' rest ∧ stack'.view = view := by
  obtain ⟨spentStack, run, spentTop, spentView⟩ :=
    spendOutputs_of_applyTx nonneg top connects applied fClean
  have spentList := spentOutpoints_of_not_isCoinBase notCoinbase
  have length : (txUndoOf view tx).vprevout.length = tx.vin.length := by
    simp [txUndoOf, spentList]
  -- each input's outpoint is empty again and its undo coin is the map's old coin there
  have ready : ∀ pair ∈ ((txUndoOf view tx).vprevout.zip tx.vin).reverse,
      spentStack.view pair.2.prevout = none ∧ Restorable pair.1 := by
    intro pair listed
    rw [List.mem_reverse, txUndoOf_zip notCoinbase, List.mem_map] at listed
    obtain ⟨txin, input, rfl⟩ := listed
    have spentInput : txin.prevout ∈ spentOutpoints tx := spentList ▸ List.mem_map_of_mem input
    obtain ⟨coin, found⟩ := Option.ne_none_iff_exists'.mp (connects.inputsUnspent _ spentInput)
    refine ⟨spentView ▸ updateAll_removeKeys_of_mem spentInput, ?_⟩
    rw [found]
    exact restorable _ _ found
  have distinct : ((((txUndoOf view tx).vprevout.zip tx.vin).reverse).map
      fun pair => pair.2.prevout).Nodup := by
    simpa [txUndoOf_zip notCoinbase, Function.comp_def, spentList] using connects.inputsDistinct
  obtain ⟨stack', restored, top', view'⟩ := restoreInputs_spec _ fClean spentTop distinct ready
  refine ⟨stack', ?_, top', ?_⟩
  · simp only [disconnectTxs, run, length, restored, ne_eq, not_true_eq_false, if_false,
      Option.bind_eq_bind, Option.bind_some]
  · rw [view', spentView]
    exact restore_spent connects notCoinbase

theorem disconnectTxs_undoes (positive : 0 < nHeight.toInt) :
    ∀ (txs : List CTransaction) {view : COutPoint → Option Coin} {stack : CoinsStack}
      (more : List (CTransaction × Option CTxUndo)) (fClean : Bool), TopView stack rest →
      stack.view = txs.foldl (applyTx nHeight) view →
      Admissible (TxConnects nHeight) (applyTx nHeight) view txs → ViewRestorable view →
      (∀ tx ∈ txs, tx.isCoinBase = false) →
      ∃ stack', disconnectTxs nHeight
          ((txs.zip ((undosOf nHeight view txs).map some)).reverse ++ more) fClean stack =
        disconnectTxs nHeight more fClean stack' ∧ TopView stack' rest ∧ stack'.view = view
  | [], _, stack, _, _, top, applied, _, _, _ => ⟨stack, rfl, top, applied⟩
  | tx :: txs, view, _, more, fClean, top, applied, ⟨connects, later⟩, restorable,
      notCoinbase => by
      -- the later transactions are undone first, back to the map this one left
      obtain ⟨undone, run, undoneTop, undoneView⟩ :=
        disconnectTxs_undoes positive txs ((tx, some (txUndoOf view tx)) :: more) fClean top
          applied later (viewRestorable_applyTx restorable positive connects.outputsNotNull)
          fun later listed => notCoinbase later (List.mem_cons_of_mem _ listed)
      obtain ⟨stack', step, top', view'⟩ :=
        disconnectTxs_undo (Int.le_of_lt positive) undoneTop connects restorable undoneView
          (notCoinbase tx List.mem_cons_self) more fClean
      refine ⟨stack', ?_, top', view'⟩
      rw [undosOf, List.map_cons, List.zip_cons_cons, List.reverse_cons, List.append_assoc,
        List.singleton_append, run, step]

theorem accessByTxidFrom_spec (txid : Vector UInt8 32) :
    ∀ (remaining : Nat) (n : UInt32) {stack : CoinsStack}, TopView stack rest →
      ∃ coin stack', accessByTxidFrom txid remaining n stack = some (coin, stack') ∧
        TopView stack' rest ∧ stack'.view = stack.view ∧
        (coin = Coin.empty ∨ ∃ index, stack.view ⟨txid, index⟩ = some coin)
  | 0, _, stack, top => ⟨Coin.empty, stack, rfl, top, rfl, Or.inl rfl⟩
  | remaining + 1, n, stack, top => by
      obtain ⟨read, step, readTop, readView⟩ := top.accessCoin ⟨txid, n⟩
      cases found : stack.view ⟨txid, n⟩ with
      | none =>
          -- nothing at this output: the empty coin read is spent, so the loop goes on
          rw [found, Option.getD_none] at step
          obtain ⟨coin, stack', run, top', view', shown⟩ :=
            accessByTxidFrom_spec txid remaining (n + 1) readTop
          refine ⟨coin, stack', ?_, top', view'.trans readView, readView ▸ shown⟩
          simp only [accessByTxidFrom, step, Coin.empty_isSpent, Bool.not_true, Option.bind_eq_bind,
            Option.bind_some, Bool.false_eq_true, if_false]
          exact run
      | some coin =>
          have live : coin.isSpent = false :=
            (StackValid.live top.valid : ViewUnspent stack.view) _ coin found
          rw [found, Option.getD_some] at step
          refine ⟨coin, read, ?_, readTop, readView, Or.inr ⟨n, found⟩⟩
          simp only [accessByTxidFrom, step, live, Bool.not_false, Option.bind_eq_bind,
            Option.bind_some, if_true]

theorem applyTxInUndo_of_unknown {undo : Coin} {out : COutPoint} (top : TopView stack rest)
    (legacy : undo.nHeight = 0) (unknown : ∀ index, stack.view ⟨out.hash, index⟩ = none) :
    ∃ stack', applyTxInUndo undo stack out = some (.disconnectFailed, stack') := by
  obtain ⟨asked, haveStep, askedTop, askedView⟩ := top.haveCoin out
  obtain ⟨alternate, stack', run, -, -, shown⟩ :=
    accessByTxidFrom_spec out.hash maxOutputsPerBlock 0 askedTop
  have empty : alternate = Coin.empty := by
    rcases shown with empty | ⟨index, found⟩
    · exact empty
    · rw [askedView, unknown index] at found
      cases found
  rw [empty] at run
  refine ⟨stack', ?_⟩
  simp only [applyTxInUndo, haveStep, legacy, if_true, accessByTxid, run, Coin.empty_isSpent,
    Bool.not_true, Option.bind_eq_bind, Option.bind_some, Bool.false_eq_true, if_false]

end Disconnect

end Freycoin.Validation
