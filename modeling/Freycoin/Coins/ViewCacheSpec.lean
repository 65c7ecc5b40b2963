import Freycoin.Coins.ViewCache

/-! What a `CCoinsViewCache` shows, and the invariant on its flags that makes it show it. -/

namespace Freycoin.Coins

open KeyedUpdate

/-- The coin an entry, or its absence, shows over the parent's coin. -/
def entryView : Option CCoinsCacheEntry → Option Coin → Option Coin
  | some entry, _ => unspent entry.coin
  | none, parentCoin => parentCoin

def cacheView (cacheCoins : CCoinsMap) (parentView : COutPoint → Option Coin)
    (outpoint : COutPoint) : Option Coin :=
  entryView (cacheCoins.lookup outpoint) (parentView outpoint)

/-- A view shows only unspent coins, as `GetCoin` must. -/
def ViewUnspent (view : COutPoint → Option Coin) : Prop :=
  ∀ outpoint coin, view outpoint = some coin → coin.isSpent = false

structure EntryValid (parentCoin : Option Coin) (entry : CCoinsCacheEntry) : Prop where
  clean : entry.dirty = false → entry.fresh = false ∧ parentCoin = some entry.coin
  fresh : entry.fresh = true → parentCoin = none
  spent : entry.coin.isSpent = true → entry.coin = Coin.empty

def EntryOk (parentCoin : Option Coin) : Option CCoinsCacheEntry → Prop
  | some entry => EntryValid parentCoin entry
  | none => True

def CacheValid (parentView : COutPoint → Option Coin) (cacheCoins : CCoinsMap) : Prop :=
  ∀ outpoint, EntryOk (parentView outpoint) (cacheCoins.lookup outpoint)

section Views

variable {cacheCoins : CCoinsMap} {parentView : COutPoint → Option Coin}
  {outpoint other : COutPoint} {entry : CCoinsCacheEntry}

@[simp] theorem entryView_some (parentCoin : Option Coin) :
    entryView (some entry) parentCoin = unspent entry.coin := rfl

@[simp] theorem entryView_none (parentCoin : Option Coin) :
    entryView none parentCoin = parentCoin := rfl

@[simp] theorem cacheView_empty (parentView : COutPoint → Option Coin) :
    cacheView ∅ parentView = parentView := rfl

@[simp] theorem cacheView_insert_self :
    cacheView (cacheCoins.insert outpoint entry) parentView outpoint = unspent entry.coin := by
  simp [cacheView, AList.lookup_insert]

@[simp] theorem cacheView_erase_self :
    cacheView (cacheCoins.erase outpoint) parentView outpoint = parentView outpoint := by
  simp [cacheView, AList.lookup_erase]

theorem cacheView_insert_ne (ne : other ≠ outpoint) :
    cacheView (cacheCoins.insert outpoint entry) parentView other =
      cacheView cacheCoins parentView other := by
  simp [cacheView, AList.lookup_insert_ne ne]

theorem cacheView_erase_ne (ne : other ≠ outpoint) :
    cacheView (cacheCoins.erase outpoint) parentView other =
      cacheView cacheCoins parentView other := by
  simp [cacheView, AList.lookup_erase_ne ne]

theorem cacheView_insert :
    cacheView (cacheCoins.insert outpoint entry) parentView =
      Function.update (cacheView cacheCoins parentView) outpoint (unspent entry.coin) := by
  funext other
  by_cases same : other = outpoint
  · subst same
    rw [cacheView_insert_self, Function.update_self]
  · rw [cacheView_insert_ne same, Function.update_of_ne same]

theorem cacheView_erase :
    cacheView (cacheCoins.erase outpoint) parentView =
      Function.update (cacheView cacheCoins parentView) outpoint (parentView outpoint) := by
  funext other
  by_cases same : other = outpoint
  · subst same
    rw [cacheView_erase_self, Function.update_self]
  · rw [cacheView_erase_ne same, Function.update_of_ne same]

theorem ViewUnspent.entryView (live : ViewUnspent parentView) (found : Option CCoinsCacheEntry)
    {coin : Coin} (shown : Freycoin.Coins.entryView found (parentView outpoint) = some coin) :
    coin.isSpent = false := by
  cases found with
  | some entry => exact (isSpent_of_unspent_eq_some shown).2 ▸ (isSpent_of_unspent_eq_some shown).1
  | none => exact live outpoint coin shown

theorem ViewUnspent.cacheView (live : ViewUnspent parentView) :
    ViewUnspent (Freycoin.Coins.cacheView cacheCoins parentView) :=
  fun outpoint _ shown => live.entryView (cacheCoins.lookup outpoint) shown

end Views

section Invariant

variable {parentCoin : Option Coin} {entry : CCoinsCacheEntry}
  {cacheCoins : CCoinsMap} {parentView : COutPoint → Option Coin} {outpoint : COutPoint}

theorem EntryValid.view_of_clean (valid : EntryValid parentCoin entry)
    (live : ∀ coin, parentCoin = some coin → coin.isSpent = false) (clean : entry.dirty = false) :
    unspent entry.coin = parentCoin := by
  obtain ⟨-, copy⟩ := valid.clean clean
  rw [copy, unspent_of_not_isSpent (live entry.coin copy)]

theorem EntryValid.dirty_of_flagged (valid : EntryValid parentCoin entry)
    (flagged : entry.flagged = true) : entry.dirty = true := by
  cases dirty : entry.dirty
  · have notFresh := (valid.clean dirty).1
    simp [CCoinsCacheEntry.flagged, dirty, notFresh] at flagged
  · rfl

theorem CacheValid.lookup (valid : CacheValid parentView cacheCoins)
    (found : cacheCoins.lookup outpoint = some entry) : EntryValid (parentView outpoint) entry := by
  have := valid outpoint
  rwa [found] at this

theorem cacheValid_empty (parentView : COutPoint → Option Coin) : CacheValid parentView ∅ :=
  fun _ => trivial

theorem CacheValid.insert (valid : CacheValid parentView cacheCoins)
    (entryValid : EntryValid (parentView outpoint) entry) :
    CacheValid parentView (cacheCoins.insert outpoint entry) := by
  intro other
  by_cases same : other = outpoint
  · subst same
    rw [AList.lookup_insert]
    exact entryValid
  · rw [AList.lookup_insert_ne same]
    exact valid other

theorem CacheValid.erase (valid : CacheValid parentView cacheCoins) :
    CacheValid parentView (cacheCoins.erase outpoint) := by
  intro other
  by_cases same : other = outpoint
  · subst same
    rw [AList.lookup_erase]
    trivial
  · rw [AList.lookup_erase_ne same]
    exact valid other

theorem CacheValid.congr {parentView' : COutPoint → Option Coin}
    (valid : CacheValid parentView cacheCoins) (same : parentView' = parentView) :
    CacheValid parentView' cacheCoins := same ▸ valid

end Invariant

section Methods

variable {P : Type} {cacheCoins : CCoinsMap} {parentView : COutPoint → Option Coin}
  {outpoint : COutPoint}

theorem fetchCoin_spec {base base' : P} {baseGetCoin : COutPoint → Option Coin × P}
    {entry : Option CCoinsCacheEntry} {cacheCoins' : CCoinsMap}
    (valid : CacheValid parentView cacheCoins) (live : ViewUnspent parentView)
    (parentGet : (baseGetCoin outpoint).1 = parentView outpoint)
    (fetched : fetchCoin cacheCoins base baseGetCoin outpoint = (entry, cacheCoins', base')) :
    CacheValid parentView cacheCoins' ∧
      cacheView cacheCoins' parentView = cacheView cacheCoins parentView ∧
      cacheCoins'.lookup outpoint = entry ∧
      (entry = none → cacheView cacheCoins parentView outpoint = none) ∧
      (base' = base ∨ base' = (baseGetCoin outpoint).2) := by
  unfold fetchCoin at fetched
  split at fetched
  · -- a hit returns the cached entry and changes nothing
    rename_i cached found
    simp only [Prod.mk.injEq] at fetched
    obtain ⟨rfl, rfl, rfl⟩ := fetched
    exact ⟨valid, rfl, found, fun none => (by cases none), Or.inl rfl⟩
  · rename_i missing
    rcases answered : baseGetCoin outpoint with ⟨answer, below⟩
    rw [answered] at fetched parentGet
    cases answer with
    | some coin =>
        -- the parent's coin is unspent, so the new entry is a clean copy of it
        simp only [Prod.mk.injEq] at fetched parentGet
        obtain ⟨rfl, rfl, rfl⟩ := fetched
        have unspentCoin := live outpoint coin parentGet.symm
        have entryValid : EntryValid (parentView outpoint) ⟨coin, false, coin.isSpent⟩ :=
          ⟨fun _ => ⟨unspentCoin, parentGet.symm⟩, fun fresh => by simp_all,
            fun spent => by simp_all⟩
        refine ⟨valid.insert entryValid, ?_, AList.lookup_insert _, fun none => (by cases none),
          Or.inr rfl⟩
        rw [cacheView_insert, unspent_of_not_isSpent unspentCoin, parentGet]
        funext other
        by_cases same : other = outpoint
        · subst same
          simp [cacheView, missing]
        · exact Function.update_of_ne same _ _
    | none =>
        simp only [Prod.mk.injEq] at fetched parentGet
        obtain ⟨rfl, rfl, rfl⟩ := fetched
        exact ⟨valid, rfl, missing, fun _ => by simp [cacheView, missing, ← parentGet],
          Or.inr rfl⟩

theorem fetched_reports {entry : Option CCoinsCacheEntry} {cacheCoins' : CCoinsMap}
    (valid : CacheValid parentView cacheCoins')
    (sameView : cacheView cacheCoins' parentView = cacheView cacheCoins parentView)
    (cached : cacheCoins'.lookup outpoint = entry)
    (absent : entry = none → cacheView cacheCoins parentView outpoint = none) :
    entry.bind (fun entry => unspent entry.coin) = cacheView cacheCoins parentView outpoint ∧
      (entry.any fun entry => !entry.coin.isSpent) =
        (cacheView cacheCoins parentView outpoint).isSome ∧
      (entry.map CCoinsCacheEntry.coin).getD Coin.empty =
        (cacheView cacheCoins parentView outpoint).getD Coin.empty := by
  cases entry with
  | none => simp [absent rfl]
  | some entry =>
      have shown : cacheView cacheCoins parentView outpoint = unspent entry.coin := by
        rw [← sameView, cacheView, cached, entryView_some]
      rw [shown]
      cases spent : entry.coin.isSpent
      · simp [unspent_of_not_isSpent spent, spent]
      · have empty := (valid.lookup cached).spent spent
        simp [empty]

theorem addCoin_spec {coin : Coin} {possibleOverwrite : Bool}
    (valid : CacheValid parentView cacheCoins) (live : ViewUnspent parentView)
    (unspentCoin : coin.isSpent = false)
    (promise : possibleOverwrite = false → isUnspendable coin.out.scriptPubKey = false →
      cacheView cacheCoins parentView outpoint = none) :
    ∃ cacheCoins', addCoin cacheCoins outpoint coin possibleOverwrite = some cacheCoins' ∧
      CacheValid parentView cacheCoins' ∧
      cacheView cacheCoins' parentView =
        if isUnspendable coin.out.scriptPubKey then cacheView cacheCoins parentView
        else Function.update (cacheView cacheCoins parentView) outpoint (some coin) := by
  -- the entry written is DIRTY; it may be FRESH only with nothing unspent below
  have written : ∀ fresh : Bool, (fresh = true → parentView outpoint = none) →
      CacheValid parentView (cacheCoins.insert outpoint ⟨coin, true, fresh⟩) ∧
        cacheView (cacheCoins.insert outpoint ⟨coin, true, fresh⟩) parentView =
          Function.update (cacheView cacheCoins parentView) outpoint (some coin) :=
    fun fresh below => ⟨valid.insert ⟨fun clean => (by cases clean), below,
      fun spent => by simp_all⟩, by rw [cacheView_insert, unspent_of_not_isSpent unspentCoin]⟩
  unfold addCoin
  rw [if_neg (by simp [unspentCoin])]
  by_cases unspendable : isUnspendable coin.out.scriptPubKey = true
  · rw [if_pos unspendable, if_pos unspendable]
    exact ⟨cacheCoins, rfl, valid, rfl⟩
  rw [if_neg unspendable, if_neg unspendable]
  -- an unspendable coin is never written, so the promise is needed only for the others
  replace promise := fun overwrite => promise overwrite (Bool.eq_false_iff.mpr unspendable)
  cases found : cacheCoins.lookup outpoint with
  | none =>
      -- `emplace` makes an empty entry: no throw, and FRESH unless overwriting is allowed
      have below : (!possibleOverwrite) = true → parentView outpoint = none := fun fresh => by
        simpa [cacheView, found] using promise (by simpa using fresh)
      simpa [CCoinsCacheEntry.default] using written _ below
  | some old =>
      have oldValid := valid.lookup found
      have shown : possibleOverwrite = false → unspent old.coin = none := fun overwrite => by
        simpa [cacheView, found] using promise overwrite
      by_cases thrown : (!possibleOverwrite && !old.coin.isSpent) = true
      · -- the logic_error is thrown only over an unspent coin, which the promise excludes
        exfalso
        simp only [Bool.and_eq_true, Bool.not_eq_eq_eq_not, Bool.not_true] at thrown
        have hidden := shown thrown.1
        rw [unspent_of_not_isSpent thrown.2] at hidden
        cases hidden
      · have below : (old.fresh || (!possibleOverwrite && !old.dirty)) = true →
            parentView outpoint = none := by
          intro fresh
          simp only [Bool.or_eq_true, Bool.and_eq_true, Bool.not_eq_eq_eq_not, Bool.not_true]
            at fresh
          rcases fresh with fresh | ⟨overwrite, clean⟩
          · exact oldValid.fresh fresh
          · rw [← oldValid.view_of_clean (fun coin => live outpoint coin) clean]
            exact shown overwrite
        simpa [thrown] using written _ below

theorem spendEntry_spec {entry : CCoinsCacheEntry}
    (valid : CacheValid parentView cacheCoins) (cached : cacheCoins.lookup outpoint = some entry) :
    let cacheCoins' := if entry.fresh then cacheCoins.erase outpoint
      else cacheCoins.insert outpoint { entry with coin := entry.coin.clear, dirty := true }
    CacheValid parentView cacheCoins' ∧
      cacheView cacheCoins' parentView =
        Function.update (cacheView cacheCoins parentView) outpoint none := by
  have entryValid := valid.lookup cached
  split_ifs with fresh
  · refine ⟨valid.erase, ?_⟩
    rw [cacheView_erase, entryValid.fresh fresh]
  · refine ⟨valid.insert ⟨fun clean => (by cases clean), fun fresh' => by simp_all,
      fun _ => Coin.clear_eq_empty _⟩, ?_⟩
    rw [cacheView_insert, Coin.clear_eq_empty, unspent_empty]

theorem uncache_spec (valid : CacheValid parentView cacheCoins) (live : ViewUnspent parentView) :
    CacheValid parentView (uncache cacheCoins outpoint) ∧
      cacheView (uncache cacheCoins outpoint) parentView = cacheView cacheCoins parentView := by
  unfold uncache
  split
  · rename_i entry found
    split_ifs with removable
    · -- only a clean copy of the parent's coin is dropped
      have clean : entry.dirty = false := by simp_all
      have shown := (valid.lookup found).view_of_clean (fun coin => live outpoint coin) clean
      refine ⟨valid.erase, ?_⟩
      rw [cacheView_erase, ← shown]
      funext other
      by_cases same : other = outpoint
      · subst same
        simp [cacheView, found]
      · exact Function.update_of_ne same _ _
    · exact ⟨valid, rfl⟩
  · exact ⟨valid, rfl⟩

end Methods

section Cursor

variable {child : CCoinsMap} {parentView : COutPoint → Option Coin}

theorem flaggedEntries_nodupKeys (child : CCoinsMap) : (flaggedEntries child).NodupKeys :=
  child.nodupKeys.sublist List.filter_sublist

theorem dlookup_flaggedEntries (child : CCoinsMap) (outpoint : COutPoint) :
    (flaggedEntries child).dlookup outpoint =
      (child.lookup outpoint).filter CCoinsCacheEntry.flagged :=
  dlookup_filter _ _ child.nodupKeys outpoint

theorem lookup_of_mem_flaggedEntries {pair : CoinsCachePair} (member : pair ∈ flaggedEntries child) :
    child.lookup pair.1 = some pair.2 :=
  AList.mem_lookup_iff.mpr (List.mem_of_mem_filter member)

theorem flaggedEntries_eq_nil (unflagged : ∀ outpoint entry, child.lookup outpoint = some entry →
    entry.flagged = false) : flaggedEntries child = [] := by
  apply List.filter_eq_nil_iff.mpr
  intro pair member
  simpa using unflagged pair.1 pair.2 (AList.mem_lookup_iff.mpr member)

theorem flaggedEntries_cases (child : CCoinsMap) (outpoint : COutPoint) :
    ((flaggedEntries child).dlookup outpoint = none ∧
        ∀ entry, child.lookup outpoint = some entry → entry.flagged = false) ∨
      ∃ entry, (flaggedEntries child).dlookup outpoint = some entry ∧
        child.lookup outpoint = some entry ∧ entry.flagged = true := by
  rw [dlookup_flaggedEntries]
  cases found : child.lookup outpoint with
  | none => exact Or.inl ⟨rfl, fun _ none => by cases none⟩
  | some entry =>
      cases flagged : entry.flagged
      · exact Or.inl ⟨by simp [flagged], fun _ same => by cases same; exact flagged⟩
      · exact Or.inr ⟨entry, by simp [flagged], rfl, flagged⟩

end Cursor

end Freycoin.Coins
