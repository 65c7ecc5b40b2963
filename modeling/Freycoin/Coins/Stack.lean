import Freycoin.Coins.BatchWriteSpec
import Freycoin.Library.Simulation

/-! A stack of `CCoinsViewCache`s over a base view, against a stack of plain maps. -/

namespace Freycoin.Coins

open Simulation

def stackView (base : COutPoint → Option Coin) : List CCoinsMap → COutPoint → Option Coin
  | [] => base
  | cacheCoins :: lower => cacheView cacheCoins (stackView base lower)

/-- What each level shows, the top first and the base last. -/
def stackViews (base : COutPoint → Option Coin) : List CCoinsMap → List (COutPoint → Option Coin)
  | [] => [base]
  | cacheCoins :: lower => cacheView cacheCoins (stackView base lower) :: stackViews base lower

def StackValid (base : COutPoint → Option Coin) : List CCoinsMap → Prop
  | [] => ViewUnspent base
  | cacheCoins :: lower => CacheValid (stackView base lower) cacheCoins ∧ StackValid base lower

namespace CoinsStack

def view (stack : CoinsStack) : COutPoint → Option Coin := stackView stack.base stack.caches

def views (stack : CoinsStack) : List (COutPoint → Option Coin) :=
  stackViews stack.base stack.caches

def Valid (stack : CoinsStack) : Prop := StackValid stack.base stack.caches

end CoinsStack

section Views

variable {base : COutPoint → Option Coin}

theorem StackValid.live : ∀ {caches : List CCoinsMap}, StackValid base caches →
    ViewUnspent (stackView base caches)
  | [], live => live
  | _ :: _, ⟨_, lower⟩ => (StackValid.live lower).cacheView

theorem stackViews_head? (caches : List CCoinsMap) :
    (stackViews base caches).head? = some (stackView base caches) := by
  cases caches <;> rfl

theorem length_stackViews (caches : List CCoinsMap) :
    (stackViews base caches).length = caches.length + 1 := by
  induction caches with
  | nil => rfl
  | cons cacheCoins lower ih => simp [stackViews, ih]

theorem getLast?_stackViews (caches : List CCoinsMap) :
    (stackViews base caches).getLast? = some base := by
  induction caches with
  | nil => rfl
  | cons cacheCoins lower ih =>
      rw [stackViews, List.getLast?_cons, ih]
      rfl

theorem stackView_eq_of_views {base' : COutPoint → Option Coin} {caches caches' : List CCoinsMap}
    (same : stackViews base' caches' = stackViews base caches) :
    stackView base' caches' = stackView base caches := by
  have heads := congrArg List.head? same
  rw [stackViews_head?, stackViews_head?, Option.some.injEq] at heads
  exact heads

theorem StackValid.cons {base' : COutPoint → Option Coin} {cacheCoins : CCoinsMap}
    {lower lower' : List CCoinsMap} (valid : CacheValid (stackView base lower) cacheCoins)
    (lowerValid : StackValid base' lower') (same : stackViews base' lower' = stackViews base lower) :
    StackValid base' (cacheCoins :: lower') ∧
      stackViews base' (cacheCoins :: lower') = stackViews base (cacheCoins :: lower) := by
  have top := stackView_eq_of_views same
  exact ⟨⟨valid.congr top, lowerValid⟩, by rw [stackViews, stackViews, top, same]⟩

end Views

section GetCoin

theorem stackGetCoin_spec (base : COutPoint → Option Coin) (outpoint : COutPoint) :
    ∀ caches : List CCoinsMap, StackValid base caches →
      (stackGetCoin base caches outpoint).1 = stackView base caches outpoint ∧
        StackValid base (stackGetCoin base caches outpoint).2 ∧
        stackViews base (stackGetCoin base caches outpoint).2 = stackViews base caches
  | [], valid => ⟨rfl, valid, rfl⟩
  | cacheCoins :: lower, ⟨valid, lowerValid⟩ => by
      obtain ⟨answer, lowerAfter, lowerSame⟩ := stackGetCoin_spec base outpoint lower lowerValid
      rcases fetched : fetchCoin cacheCoins lower (stackGetCoin base lower) outpoint with
        ⟨entry, cacheCoins', lower'⟩
      obtain ⟨valid', sameView, cached, absent, parent⟩ :=
        fetchCoin_spec valid lowerValid.live answer fetched
      -- the levels below are either untouched or those the recursive call left
      have below : StackValid base lower' ∧ stackViews base lower' = stackViews base lower := by
        rcases parent with rfl | rfl
        · exact ⟨lowerValid, rfl⟩
        · exact ⟨lowerAfter, lowerSame⟩
      have stacked := StackValid.cons valid' below.1 below.2
      have reports := (fetched_reports valid' sameView cached absent).1
      simp only [stackGetCoin, getCoin, fetched]
      refine ⟨reports, stacked.1, ?_⟩
      rw [stacked.2, stackViews, stackViews, sameView]

theorem CoinsStack.getCoin_spec {stack : CoinsStack} (valid : stack.Valid)
    (outpoint : COutPoint) :
    (stack.getCoin outpoint).1 = stack.view outpoint ∧ (stack.getCoin outpoint).2.Valid ∧
      (stack.getCoin outpoint).2.views = stack.views :=
  stackGetCoin_spec stack.base outpoint stack.caches valid

theorem fetchCoin_below {cacheCoins : CCoinsMap} {below below' : CoinsStack}
    {outpoint : COutPoint} {entry : Option CCoinsCacheEntry} {cacheCoins' : CCoinsMap}
    (fetched : fetchCoin cacheCoins below below.getCoin outpoint =
      (entry, cacheCoins', below'))
    (valid : CacheValid below.view cacheCoins) (belowValid : below.Valid) :
    CacheValid below.view cacheCoins' ∧
      cacheView cacheCoins' below.view = cacheView cacheCoins below.view ∧
      cacheCoins'.lookup outpoint = entry ∧
      (entry = none → cacheView cacheCoins below.view outpoint = none) ∧
      below'.Valid ∧ below'.views = below.views := by
  obtain ⟨getAnswer, getValid, getViews⟩ := below.getCoin_spec belowValid outpoint
  obtain ⟨valid', sameView, cached, absent, parent⟩ :=
    fetchCoin_spec valid belowValid.live getAnswer fetched
  refine ⟨valid', sameView, cached, absent, ?_⟩
  rcases parent with rfl | rfl
  · exact ⟨belowValid, rfl⟩
  · exact ⟨getValid, getViews⟩

end GetCoin

section BatchWrite

theorem CoinsStack.batchWrite_spec {stack : CoinsStack} {child : CCoinsMap}
    (valid : stack.Valid) (childValid : CacheValid stack.view child) :
    ∃ stack', stack.batchWrite (flaggedEntries child) = some stack' ∧ stack'.Valid ∧
      stack'.views = cacheView child stack.view :: stack.views.tail := by
  obtain ⟨caches, base⟩ := stack
  cases caches with
  | nil =>
      have written := baseBatchWrite_spec valid childValid
      refine ⟨⟨[], baseBatchWrite base (flaggedEntries child)⟩, rfl, ?_, ?_⟩
      · show ViewUnspent _
        rw [written]
        exact ViewUnspent.cacheView valid
      · show [baseBatchWrite base (flaggedEntries child)] = _
        rw [written]
        rfl
  | cons parent lower =>
      obtain ⟨parentValid, lowerValid⟩ := valid
      obtain ⟨parent', written, parentValid', shown⟩ :=
        Freycoin.Coins.batchWrite_spec parentValid lowerValid.live childValid
      refine ⟨⟨parent' :: lower, base⟩, by simp [CoinsStack.batchWrite, written], ?_, ?_⟩
      · exact ⟨parentValid', lowerValid⟩
      · show cacheView parent' (stackView base lower) :: stackViews base lower = _
        rw [shown]
        rfl

end BatchWrite

section ModifyAt

variable {α : Type} {act : CCoinsMap → CoinsStack → Option (α × CCoinsMap × CoinsStack)}

theorem modifyAt_zero (cacheCoins : CCoinsMap) (lower : List CCoinsMap)
    (base : COutPoint → Option Coin) :
    CoinsStack.modifyAt act 0 ⟨cacheCoins :: lower, base⟩ =
      (act cacheCoins ⟨lower, base⟩).map fun (result, cacheCoins, below) =>
        (result, ⟨cacheCoins :: below.caches, below.base⟩) := rfl

theorem modifyAt_succ (depth : Nat) (cacheCoins : CCoinsMap) (lower : List CCoinsMap)
    (base : COutPoint → Option Coin) :
    CoinsStack.modifyAt act (depth + 1) ⟨cacheCoins :: lower, base⟩ =
      (CoinsStack.modifyAt act depth ⟨lower, base⟩).map fun (result, below) =>
        (result, ⟨cacheCoins :: below.caches, below.base⟩) := rfl

theorem head?_take_append {β : Type} {change : List β → List β}
    (keepsHead : ∀ levels, (change levels).head? = levels.head?) (levels : List β)
    (depth : Nat) : (levels.take depth ++ change (levels.drop depth)).head? = levels.head? := by
  cases depth with
  | zero => simp [keepsHead]
  | succ depth =>
      cases levels with
      | nil => simp [keepsHead]
      | cons level rest => simp

theorem modifyAt_spec (act : CCoinsMap → CoinsStack → Option (α × CCoinsMap × CoinsStack))
    (change : List (COutPoint → Option Coin) → List (COutPoint → Option Coin))
    (observe : (COutPoint → Option Coin) → α)
    (keepsLevel : ∀ levels, (change levels).head? = levels.head?)
    (atTop : ∀ cacheCoins (below : CoinsStack),
      StackValid below.base (cacheCoins :: below.caches) →
      ∃ result cacheCoins' below', act cacheCoins below = some (result, cacheCoins', below') ∧
        StackValid below'.base (cacheCoins' :: below'.caches) ∧
        stackViews below'.base (cacheCoins' :: below'.caches) =
          change (stackViews below.base (cacheCoins :: below.caches)) ∧
        result = observe (stackView below.base (cacheCoins :: below.caches))) :
    ∀ (depth : Nat) (stack : CoinsStack), stack.Valid → depth < stack.caches.length →
      ∃ result stack', stack.modifyAt act depth = some (result, stack') ∧ stack'.Valid ∧
        stack'.views = stack.views.take depth ++ change (stack.views.drop depth) ∧
        ∀ level ∈ stack.views[depth]?, result = observe level
  | _, ⟨[], _⟩, _, inside => absurd inside (Nat.not_lt_zero _)
  | 0, ⟨cacheCoins :: lower, base⟩, valid, _ => by
      obtain ⟨result, cacheCoins', below', acted, valid', views', observed⟩ :=
        atTop cacheCoins ⟨lower, base⟩ valid
      refine ⟨result, ⟨cacheCoins' :: below'.caches, below'.base⟩,
        by rw [modifyAt_zero, acted]; rfl, valid', views', ?_⟩
      intro level found
      cases found
      exact observed
  | depth + 1, ⟨cacheCoins :: lower, base⟩, ⟨valid, lowerValid⟩, inside => by
      obtain ⟨result, below', acted, valid', views', observed⟩ :=
        modifyAt_spec act change observe keepsLevel atTop depth ⟨lower, base⟩ lowerValid
          (Nat.lt_of_succ_lt_succ inside)
      -- the level acted on still shows what it showed, so the caches above are unchanged
      have sameTop : (stackViews below'.base below'.caches).head? =
          (stackViews base lower).head? := by
        show below'.views.head? = _
        rw [views']
        exact head?_take_append keepsLevel _ _
      rw [stackViews_head?, stackViews_head?, Option.some.injEq] at sameTop
      refine ⟨result, ⟨cacheCoins :: below'.caches, below'.base⟩,
        by rw [modifyAt_succ, acted]; rfl, ⟨valid.congr sameTop, valid'⟩, ?_, observed⟩
      show cacheView cacheCoins (stackView below'.base below'.caches) :: below'.views = _
      rw [views', sameTop]
      rfl

end ModifyAt

/-- The level below takes the level's map: what a flush or a sync does to the levels from
the one it runs at down. -/
def copyDown : List (COutPoint → Option Coin) → List (COutPoint → Option Coin)
  | level :: _ :: rest => level :: level :: rest
  | levels => levels

theorem copyDown_head? (levels : List (COutPoint → Option Coin)) :
    (copyDown levels).head? = levels.head? := by
  match levels with
  | _ :: _ :: _ => rfl
  | [_] => rfl
  | [] => rfl

namespace CoinsStack

variable {stack : CoinsStack}

theorem view_mk (caches : List CCoinsMap) (base : COutPoint → Option Coin) :
    (⟨caches, base⟩ : CoinsStack).view = stackView base caches := rfl

theorem views_mk (caches : List CCoinsMap) (base : COutPoint → Option Coin) :
    (⟨caches, base⟩ : CoinsStack).views = stackViews base caches := rfl

theorem view_eq_of_views {level : COutPoint → Option Coin}
    {rest : List (COutPoint → Option Coin)} (shown : stack.views = level :: rest) :
    stack.view = level := by
  have heads := congrArg List.head? shown
  rw [views, stackViews_head?] at heads
  exact Option.some.inj heads

theorem copyDown_views (level : COutPoint → Option Coin) :
    copyDown (level :: stack.views) = level :: level :: stack.views.tail := by
  obtain ⟨caches, base⟩ := stack
  cases caches <;> rfl

theorem fetchCoin_atTop {cacheCoins cacheCoins' : CCoinsMap} {below below' : CoinsStack}
    {outpoint : COutPoint} {entry : Option CCoinsCacheEntry}
    (valid : StackValid below.base (cacheCoins :: below.caches))
    (fetched : fetchCoin cacheCoins below below.getCoin outpoint =
      (entry, cacheCoins', below')) :
    StackValid below'.base (cacheCoins' :: below'.caches) ∧
      stackViews below'.base (cacheCoins' :: below'.caches) =
        stackViews below.base (cacheCoins :: below.caches) ∧
      entry.bind (fun entry => unspent entry.coin) =
        stackView below.base (cacheCoins :: below.caches) outpoint ∧
      (entry.any fun entry => !entry.coin.isSpent) =
        (stackView below.base (cacheCoins :: below.caches) outpoint).isSome ∧
      (entry.map CCoinsCacheEntry.coin).getD Coin.empty =
        (stackView below.base (cacheCoins :: below.caches) outpoint).getD Coin.empty := by
  obtain ⟨cacheValid, belowValid⟩ := valid
  obtain ⟨valid', sameView, cached, absent, belowValid', belowViews⟩ :=
    fetchCoin_below fetched cacheValid belowValid
  have stacked := StackValid.cons valid' belowValid' belowViews
  have sameLevels : stackViews below'.base (cacheCoins' :: below'.caches) =
      stackViews below.base (cacheCoins :: below.caches) := by
    rw [stacked.2]
    show cacheView cacheCoins' below.view :: below.views =
      cacheView cacheCoins below.view :: below.views
    rw [sameView]
  exact ⟨stacked.1, sameLevels, fetched_reports valid' sameView cached absent⟩

theorem addCoin_spec {outpoint : COutPoint} {coin : Coin} {possibleOverwrite : Bool}
    (valid : stack.Valid) (hasCache : stack.caches ≠ []) (unspentCoin : coin.isSpent = false)
    (promise : possibleOverwrite = false → isUnspendable coin.out.scriptPubKey = false →
      stack.view outpoint = none) :
    ∃ stack', stack.addCoin outpoint coin possibleOverwrite = some stack' ∧ stack'.Valid ∧
      stack'.views = (if isUnspendable coin.out.scriptPubKey then stack.view
        else Function.update stack.view outpoint (some coin)) :: stack.views.tail := by
  obtain ⟨caches, base⟩ := stack
  obtain _ | ⟨cacheCoins, lower⟩ := caches
  · exact absurd rfl hasCache
  obtain ⟨cacheValid, lowerValid⟩ := valid
  obtain ⟨cacheCoins', added, valid', shown⟩ :=
    Freycoin.Coins.addCoin_spec cacheValid lowerValid.live unspentCoin promise
  refine ⟨⟨cacheCoins' :: lower, base⟩, ?_, ⟨valid', lowerValid⟩, ?_⟩
  · simp only [CoinsStack.addCoin, modifyAt_zero, added, Option.map_some]
  · show cacheView cacheCoins' (stackView base lower) :: stackViews base lower =
      (if isUnspendable coin.out.scriptPubKey then cacheView cacheCoins (stackView base lower)
        else Function.update (cacheView cacheCoins (stackView base lower)) outpoint
          (some coin)) :: stackViews base lower
    rw [shown]

theorem spendCoin_spec {outpoint : COutPoint} (valid : stack.Valid)
    (hasCache : stack.caches ≠ []) :
    ∃ moved stack', stack.spendCoin outpoint = some (moved, stack') ∧ stack'.Valid ∧
      stack'.views = Function.update stack.view outpoint none :: stack.views.tail ∧
      ∀ coin, stack.view outpoint = some coin → moved = some coin := by
  obtain ⟨caches, base⟩ := stack
  obtain _ | ⟨cacheCoins, lower⟩ := caches
  · exact absurd rfl hasCache
  obtain ⟨cacheValid, lowerValid⟩ := valid
  rcases fetched : fetchCoin cacheCoins ⟨lower, base⟩ (CoinsStack.getCoin ⟨lower, base⟩) outpoint
    with ⟨entry, cacheCoins', below'⟩
  obtain ⟨valid', sameView, cached, absent, belowValid', belowViews⟩ :=
    fetchCoin_below fetched cacheValid lowerValid
  -- the levels in the forms the lemmas below use
  have top : stackView below'.base below'.caches = stackView base lower :=
    stackView_eq_of_views belowViews
  have rest : stackViews below'.base below'.caches = stackViews base lower := belowViews
  have sameView' : cacheView cacheCoins' (stackView base lower) =
      cacheView cacheCoins (stackView base lower) := sameView
  simp only [CoinsStack.spendCoin, modifyAt_zero, Freycoin.Coins.spendCoin, fetched,
    Option.map_some]
  cases entry with
  | none =>
      -- nothing to spend: the top level had no coin there
      have nothing : cacheView cacheCoins (stackView base lower) outpoint = none := absent rfl
      refine ⟨none, _, rfl, ⟨valid'.congr top, belowValid'⟩, ?_, fun coin shown => ?_⟩
      · show cacheView cacheCoins' (stackView below'.base below'.caches) ::
          stackViews below'.base below'.caches =
            Function.update (cacheView cacheCoins (stackView base lower)) outpoint none ::
              stackViews base lower
        have unchanged : Function.update (cacheView cacheCoins (stackView base lower)) outpoint
            none = cacheView cacheCoins (stackView base lower) :=
          Function.update_eq_self_iff.mpr nothing.symm
        rw [top, rest, sameView', unchanged]
      · have shown : cacheView cacheCoins (stackView base lower) outpoint = some coin := shown
        rw [nothing] at shown
        cases shown
  | some entry =>
      have spent := spendEntry_spec valid' cached
      have shown : cacheView cacheCoins (stackView base lower) outpoint = unspent entry.coin := by
        rw [← sameView', cacheView, cached, entryView_some]
      have moved : ∀ coin, cacheView cacheCoins (stackView base lower) outpoint = some coin →
          some entry.coin = some coin := fun coin found =>
        congrArg some (isSpent_of_unspent_eq_some (shown ▸ found)).2.symm
      by_cases fresh : entry.fresh = true
      · simp only [fresh, if_true] at spent ⊢
        refine ⟨some entry.coin, _, rfl, ⟨spent.1.congr top, belowValid'⟩, ?_, moved⟩
        have spentView : cacheView (cacheCoins'.erase outpoint) (stackView base lower) =
            Function.update (cacheView cacheCoins' (stackView base lower)) outpoint none := spent.2
        show cacheView (cacheCoins'.erase outpoint) (stackView below'.base below'.caches) ::
          stackViews below'.base below'.caches =
            Function.update (cacheView cacheCoins (stackView base lower)) outpoint none ::
              stackViews base lower
        rw [top, rest, spentView, sameView']
      · simp only [fresh, Bool.false_eq_true, if_false] at spent ⊢
        refine ⟨some entry.coin, _, rfl, ⟨spent.1.congr top, belowValid'⟩, ?_, moved⟩
        have spentView : cacheView (cacheCoins'.insert outpoint _) (stackView base lower) =
            Function.update (cacheView cacheCoins' (stackView base lower)) outpoint none := spent.2
        show cacheView (cacheCoins'.insert outpoint _) (stackView below'.base below'.caches) ::
          stackViews below'.base below'.caches =
            Function.update (cacheView cacheCoins (stackView base lower)) outpoint none ::
              stackViews base lower
        rw [top, rest, spentView, sameView']

theorem push_spec (valid : stack.Valid) :
    stack.push.Valid ∧ stack.push.views = stack.view :: stack.views :=
  ⟨⟨cacheValid_empty _, valid⟩, rfl⟩

theorem pop_spec (valid : stack.Valid) (hasCache : stack.caches ≠ []) :
    ∃ stack', stack.pop = some stack' ∧ stack'.Valid ∧ stack'.views = stack.views.tail := by
  obtain ⟨caches, base⟩ := stack
  obtain _ | ⟨cacheCoins, lower⟩ := caches
  · exact absurd rfl hasCache
  exact ⟨⟨lower, base⟩, rfl, valid.2, rfl⟩

theorem views_of_unchanged {depth : Nat} {stack' : CoinsStack}
    (views' : stack'.views = stack.views.take depth ++ id (stack.views.drop depth)) :
    stack'.views = stack.views := by
  rw [views', id, List.take_append_drop]

section AtDepth

variable {depth : Nat} (valid : stack.Valid) (inside : depth < stack.caches.length)
include valid inside

theorem getCoinAt_spec (outpoint : COutPoint) :
    ∃ coin stack', stack.getCoinAt depth outpoint = some (coin, stack') ∧ stack'.Valid ∧
      stack'.views = stack.views ∧ ∀ level ∈ stack.views[depth]?, coin = level outpoint := by
  obtain ⟨coin, stack', read, valid', views', observed⟩ :=
    modifyAt_spec (fun cacheCoins below =>
        some (Freycoin.Coins.getCoin cacheCoins below below.getCoin outpoint))
      id (fun level => level outpoint) (fun _ => rfl)
      (fun cacheCoins below valid => by
        rcases fetched : fetchCoin cacheCoins below below.getCoin outpoint with
          ⟨entry, cacheCoins', below'⟩
        obtain ⟨valid', views', reported, -⟩ := fetchCoin_atTop valid fetched
        exact ⟨_, _, _, by simp only [Freycoin.Coins.getCoin, fetched], valid', views',
          reported⟩) depth stack valid inside
  exact ⟨coin, stack', read, valid', views_of_unchanged views', observed⟩

theorem haveCoinAt_spec (outpoint : COutPoint) :
    ∃ found stack', stack.haveCoinAt depth outpoint = some (found, stack') ∧ stack'.Valid ∧
      stack'.views = stack.views ∧
      ∀ level ∈ stack.views[depth]?, found = (level outpoint).isSome := by
  obtain ⟨found, stack', read, valid', views', observed⟩ :=
    modifyAt_spec (fun cacheCoins below =>
        some (haveCoin cacheCoins below below.getCoin outpoint))
      id (fun level => (level outpoint).isSome) (fun _ => rfl)
      (fun cacheCoins below valid => by
        rcases fetched : fetchCoin cacheCoins below below.getCoin outpoint with
          ⟨entry, cacheCoins', below'⟩
        obtain ⟨valid', views', -, reported, -⟩ := fetchCoin_atTop valid fetched
        exact ⟨_, _, _, by simp only [haveCoin, fetched], valid', views', reported⟩)
      depth stack valid inside
  exact ⟨found, stack', read, valid', views_of_unchanged views', observed⟩

theorem accessCoinAt_spec (outpoint : COutPoint) :
    ∃ coin stack', stack.accessCoinAt depth outpoint = some (coin, stack') ∧ stack'.Valid ∧
      stack'.views = stack.views ∧
      ∀ level ∈ stack.views[depth]?, coin = (level outpoint).getD Coin.empty := by
  obtain ⟨coin, stack', read, valid', views', observed⟩ :=
    modifyAt_spec (fun cacheCoins below =>
        some (accessCoin cacheCoins below below.getCoin outpoint))
      id (fun level => (level outpoint).getD Coin.empty) (fun _ => rfl)
      (fun cacheCoins below valid => by
        rcases fetched : fetchCoin cacheCoins below below.getCoin outpoint with
          ⟨entry, cacheCoins', below'⟩
        obtain ⟨valid', views', -, -, reported⟩ := fetchCoin_atTop valid fetched
        exact ⟨_, _, _, by simp only [accessCoin, fetched], valid', views', reported⟩)
      depth stack valid inside
  exact ⟨coin, stack', read, valid', views_of_unchanged views', observed⟩

theorem uncacheAt_spec (outpoint : COutPoint) :
    ∃ stack', stack.uncacheAt depth outpoint = some stack' ∧ stack'.Valid ∧
      stack'.views = stack.views := by
  obtain ⟨_, stack', uncached, valid', views', -⟩ :=
    modifyAt_spec (fun cacheCoins below => some ((), uncache cacheCoins outpoint, below))
      id (fun _ => ()) (fun _ => rfl)
      (fun cacheCoins below valid => by
        obtain ⟨cacheValid, belowValid⟩ := valid
        obtain ⟨valid', shown⟩ := uncache_spec cacheValid belowValid.live
        refine ⟨(), _, below, rfl, ⟨valid', belowValid⟩, ?_, rfl⟩
        show cacheView (uncache cacheCoins outpoint) (stackView below.base below.caches) ::
          stackViews below.base below.caches = _
        rw [shown]
        rfl) depth stack valid inside
  refine ⟨stack', by rw [uncacheAt, uncached]; rfl, valid', ?_⟩
  exact views_of_unchanged views'

theorem flushAt_spec :
    ∃ stack', stack.flushAt depth = some stack' ∧ stack'.Valid ∧
      stack'.views = stack.views.take depth ++ copyDown (stack.views.drop depth) := by
  obtain ⟨_, stack', flushed, valid', views', -⟩ :=
    modifyAt_spec (fun cacheCoins below => (flush cacheCoins below.batchWrite).map
        fun pair => ((), pair.1, pair.2))
      copyDown (fun _ => ()) copyDown_head?
      (fun cacheCoins below valid => by
        obtain ⟨cacheValid, belowValid⟩ := valid
        obtain ⟨below', written, belowValid', belowViews⟩ :=
          CoinsStack.batchWrite_spec belowValid cacheValid
        refine ⟨(), ∅, below', by simp [flush, written], ⟨cacheValid_empty _, belowValid'⟩, ?_,
          rfl⟩
        -- the emptied cache shows the level below, which now holds what it showed
        show below'.view :: below'.views = copyDown (cacheView cacheCoins below.view :: below.views)
        rw [view_eq_of_views belowViews, belowViews, copyDown_views]) depth stack valid inside
  exact ⟨stack', by rw [flushAt]; exact congrArg (Option.map Prod.snd) flushed, valid', views'⟩

theorem syncAt_spec :
    ∃ stack', stack.syncAt depth = some stack' ∧ stack'.Valid ∧
      stack'.views = stack.views.take depth ++ copyDown (stack.views.drop depth) := by
  obtain ⟨_, stack', synced, valid', views', -⟩ :=
    modifyAt_spec (fun cacheCoins below => (sync cacheCoins below.batchWrite).map
        fun pair => ((), pair.1, pair.2))
      copyDown (fun _ => ()) copyDown_head?
      (fun cacheCoins below valid => by
        obtain ⟨cacheValid, belowValid⟩ := valid
        obtain ⟨below', written, belowValid', belowViews⟩ :=
          CoinsStack.batchWrite_spec belowValid cacheValid
        obtain ⟨kept, keptView, cleared⟩ := syncCursor_spec cacheValid belowValid.live
        have top : stackView below'.base below'.caches =
            cacheView cacheCoins (stackView below.base below.caches) :=
          view_eq_of_views belowViews
        refine ⟨(), _, below', by simp [sync, written, cleared], ⟨kept.congr top, belowValid'⟩,
          ?_, rfl⟩
        -- the cache keeps unflagged copies of what the level below now shows
        show cacheView _ (stackView below'.base below'.caches) :: below'.views =
          copyDown (cacheView cacheCoins below.view :: below.views)
        rw [top, keptView, belowViews, copyDown_views]
        rfl) depth stack valid inside
  exact ⟨stack', by rw [syncAt]; exact congrArg (Option.map Prod.snd) synced, valid', views'⟩

end AtDepth

end CoinsStack

end Freycoin.Coins
