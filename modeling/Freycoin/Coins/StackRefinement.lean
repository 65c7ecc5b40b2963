import Freycoin.Coins.Stack

/-! The stack of caches refines a stack of plain maps. -/

namespace Freycoin.Coins

open Simulation

abbrev CoinsLevels := List (COutPoint → Option Coin)

def modelStep (levels : CoinsLevels) : CoinsOp → CoinsLevels
  | .addCoin outpoint coin _ =>
      match levels with
      | top :: rest =>
          (if isUnspendable coin.out.scriptPubKey then top
            else Function.update top outpoint (some coin)) :: rest
      | [] => []
  | .spendCoin outpoint =>
      match levels with
      | top :: rest => Function.update top outpoint none :: rest
      | [] => []
  | .flush depth | .sync depth => levels.take depth ++ copyDown (levels.drop depth)
  | .push =>
      match levels with
      | top :: rest => top :: top :: rest
      | [] => []
  | .pop => levels.tail
  | .uncache .. | .getCoin .. | .haveCoin .. | .accessCoin .. => levels

def modelAdmits (levels : CoinsLevels) : CoinsOp → Prop
  | .addCoin outpoint coin possibleOverwrite =>
      1 < levels.length ∧ coin.isSpent = false ∧
        (possibleOverwrite = false → ∀ top ∈ levels.head?, top outpoint = none)
  | .spendCoin _ | .pop => 1 < levels.length
  | .uncache depth _ | .flush depth | .sync depth | .getCoin depth _ | .haveCoin depth _
  | .accessCoin depth _ => depth + 1 < levels.length
  | .push => True

namespace CoinsStack

theorem views_eq (stack : CoinsStack) : stack.views = stack.view :: stack.views.tail := by
  obtain ⟨caches, base⟩ := stack
  cases caches <;> rfl

theorem caches_length (stack : CoinsStack) : stack.views.length = stack.caches.length + 1 :=
  length_stackViews stack.caches

theorem depth_lt {stack : CoinsStack} {depth : Nat} (admitted : depth + 1 < stack.views.length) :
    depth < stack.caches.length := by
  rw [caches_length] at admitted
  omega

theorem caches_ne_nil {stack : CoinsStack} (several : 1 < stack.views.length) :
    stack.caches ≠ [] := by
  intro none
  rw [caches_length, none] at several
  exact Nat.lt_irrefl 1 several

end CoinsStack

theorem coinsStack_step_refines :
    StepRefines CoinsStack.step modelStep modelAdmits CoinsStack.Valid CoinsStack.views := by
  intro stack op valid admitted
  cases op with
  | addCoin outpoint coin possibleOverwrite =>
      obtain ⟨several, unspentCoin, promise⟩ := admitted
      have onTop : possibleOverwrite = false → isUnspendable coin.out.scriptPubKey = false →
          stack.view outpoint = none := by
        intro overwrite _
        apply promise overwrite
        rw [CoinsStack.views_eq]
        rfl
      obtain ⟨stack', added, valid', views'⟩ :=
        stack.addCoin_spec valid (CoinsStack.caches_ne_nil several) unspentCoin onTop
      refine ⟨stack', added, valid', ?_⟩
      rw [views', CoinsStack.views_eq stack]
      rfl
  | spendCoin outpoint =>
      obtain ⟨moved, stack', spent, valid', views', -⟩ :=
        stack.spendCoin_spec valid (CoinsStack.caches_ne_nil admitted)
      refine ⟨stack', by rw [CoinsStack.step, spent]; rfl, valid', ?_⟩
      rw [views', CoinsStack.views_eq stack]
      rfl
  | uncache depth outpoint =>
      obtain ⟨stack', uncached, valid', views'⟩ := stack.uncacheAt_spec valid (CoinsStack.depth_lt admitted) outpoint
      exact ⟨stack', uncached, valid', views'⟩
  | flush depth =>
      obtain ⟨stack', flushed, valid', views'⟩ := stack.flushAt_spec valid (CoinsStack.depth_lt admitted)
      exact ⟨stack', flushed, valid', views'⟩
  | sync depth =>
      obtain ⟨stack', synced, valid', views'⟩ := stack.syncAt_spec valid (CoinsStack.depth_lt admitted)
      exact ⟨stack', synced, valid', views'⟩
  | push =>
      obtain ⟨valid', views'⟩ := stack.push_spec valid
      refine ⟨stack.push, rfl, valid', ?_⟩
      rw [views', CoinsStack.views_eq stack]
      rfl
  | pop =>
      obtain ⟨stack', popped, valid', views'⟩ :=
        stack.pop_spec valid (CoinsStack.caches_ne_nil admitted)
      exact ⟨stack', popped, valid', views'⟩
  | getCoin depth outpoint =>
      obtain ⟨_, stack', read, valid', views', -⟩ :=
        stack.getCoinAt_spec valid (CoinsStack.depth_lt admitted) outpoint
      exact ⟨stack', by rw [CoinsStack.step, read]; rfl, valid', views'⟩
  | haveCoin depth outpoint =>
      obtain ⟨_, stack', read, valid', views', -⟩ :=
        stack.haveCoinAt_spec valid (CoinsStack.depth_lt admitted) outpoint
      exact ⟨stack', by rw [CoinsStack.step, read]; rfl, valid', views'⟩
  | accessCoin depth outpoint =>
      obtain ⟨_, stack', read, valid', views', -⟩ :=
        stack.accessCoinAt_spec valid (CoinsStack.depth_lt admitted) outpoint
      exact ⟨stack', by rw [CoinsStack.step, read]; rfl, valid', views'⟩

/-- Caches stacked on a base view that holds only unspent coins, driven by any sequence of
operations the model admits, never throw, and afterwards each level reads as the model's
map for it: `GetCoin` returns its coin, `HaveCoin` whether it has one, `AccessCoin` the
coin or the empty one; the base is the model's last map. -/
theorem coinsViewCache_stack_refines_maps (base : COutPoint → Option Coin)
    (baseUnspent : ViewUnspent base) (ops : List CoinsOp)
    (admissible : Admissible modelAdmits modelStep [base] ops) :
    ∃ stack, execute CoinsStack.step ⟨[], base⟩ ops = some stack ∧
      stack.views = ops.foldl modelStep [base] ∧
      (ops.foldl modelStep [base]).getLast? = some stack.base ∧
      ∀ depth level outpoint, (ops.foldl modelStep [base])[depth]? = some level →
        depth + 1 < (ops.foldl modelStep [base]).length →
        (stack.getCoinAt depth outpoint).map Prod.fst = some (level outpoint) ∧
        (stack.haveCoinAt depth outpoint).map Prod.fst = some (level outpoint).isSome ∧
        (stack.accessCoinAt depth outpoint).map Prod.fst =
          some ((level outpoint).getD Coin.empty) := by
  obtain ⟨stack, ran, valid, abstracted⟩ :=
    execute_refines coinsStack_step_refines ops ⟨[], base⟩ baseUnspent admissible
  replace abstracted : stack.views = ops.foldl modelStep [base] := abstracted
  refine ⟨stack, ran, abstracted, ?_, ?_⟩
  · rw [← abstracted]
    exact getLast?_stackViews stack.caches
  · intro depth level outpoint found several
    rw [← abstracted] at found several
    have inside := CoinsStack.depth_lt several
    obtain ⟨coin, _, got, -, -, gotLevel⟩ := stack.getCoinAt_spec valid inside outpoint
    obtain ⟨had, _, asked, -, -, askedLevel⟩ := stack.haveCoinAt_spec valid inside outpoint
    obtain ⟨accessed, _, read, -, -, readLevel⟩ := stack.accessCoinAt_spec valid inside outpoint
    refine ⟨?_, ?_, ?_⟩
    · rw [got, gotLevel level found]
      rfl
    · rw [asked, askedLevel level found]
      rfl
    · rw [read, readLevel level found]
      rfl

def sampleOutpoint : COutPoint := ⟨Vector.replicate 32 0, 0⟩

/-- Fifty units locked by `OP_TRUE`, at height one. -/
def sampleCoin : Coin := ⟨⟨50, [0x51]⟩, false, 1⟩

/-- A coin added FRESH to one cache, spent through a second cache pushed on it, the spend
synced down (which erases the FRESH entry), the first cache flushed to the base and the
second popped. -/
def sampleOps : List CoinsOp :=
  [.push, .addCoin sampleOutpoint sampleCoin false, .push, .spendCoin sampleOutpoint, .sync 0,
    .flush 1, .pop, .getCoin 0 sampleOutpoint]

theorem sample_stack_matches_maps :
    ViewUnspent (fun _ => none) ∧ Admissible modelAdmits modelStep [fun _ => none] sampleOps ∧
      ∃ stack, execute CoinsStack.step ⟨[], fun _ => none⟩ sampleOps = some stack ∧
        stack.views = sampleOps.foldl modelStep [fun _ => none] ∧
        (sampleOps.foldl modelStep [fun _ => none]).getLast? = some stack.base ∧
        ∀ depth level outpoint, (sampleOps.foldl modelStep [fun _ => none])[depth]? = some level →
          depth + 1 < (sampleOps.foldl modelStep [fun _ => none]).length →
          (stack.getCoinAt depth outpoint).map Prod.fst = some (level outpoint) ∧
          (stack.haveCoinAt depth outpoint).map Prod.fst = some (level outpoint).isSome ∧
          (stack.accessCoinAt depth outpoint).map Prod.fst =
            some ((level outpoint).getD Coin.empty) := by
  have live : ViewUnspent (fun _ : COutPoint => none) := fun _ _ none => by cases none
  have admitted : Admissible modelAdmits modelStep [fun _ => none] sampleOps := by
    simp [sampleOps, Admissible, modelAdmits, modelStep, copyDown, sampleCoin, Coin.isSpent,
      CTxOut.isNull]
  exact ⟨live, admitted, coinsViewCache_stack_refines_maps _ live sampleOps admitted⟩

end Freycoin.Coins
