import Freycoin.Coins.ViewCacheSpec

/-! `BatchWrite` and the cursor that feeds it, read outpoint by outpoint. -/

namespace Freycoin.Coins

open KeyedUpdate

/-- The body of the loop of `CCoinsViewCache::BatchWrite` at one outpoint: what becomes of
the parent's entry `ours` when the child hands over `entry`. `none` is the `logic_error`,
`some none` leaves no entry. -/
def writeEntry (ours : Option CCoinsCacheEntry) (entry : CCoinsCacheEntry) :
    Option (Option CCoinsCacheEntry) :=
  if !entry.dirty then some ours
  else
    match ours with
    | none =>
        if entry.fresh && entry.coin.isSpent then some none
        else some (some ⟨entry.coin, true, entry.fresh⟩)
    | some ours =>
        if entry.fresh && !ours.coin.isSpent then none
        else if ours.fresh && entry.coin.isSpent then some none
        else some (some { ours with coin := entry.coin, dirty := true })

theorem entryView_live {ours : Option CCoinsCacheEntry} {parentCoin : Option Coin}
    (live : ∀ coin, parentCoin = some coin → coin.isSpent = false) :
    ∀ coin, entryView ours parentCoin = some coin → coin.isSpent = false := by
  intro coin shown
  cases ours with
  | some entry =>
      obtain ⟨live, rfl⟩ := isSpent_of_unspent_eq_some shown
      exact live
  | none => exact live coin shown

theorem batchWriteEntry_updatesAt :
    UpdatesAt (fun (map : CCoinsMap) key => map.lookup key) writeEntry batchWriteEntry := by
  rintro cacheCoins ⟨outpoint, entry⟩ value updated
  dsimp only at updated ⊢
  unfold writeEntry at updated
  unfold batchWriteEntry
  cases dirty : entry.dirty
  · -- a clean entry is skipped
    simp only [dirty, Bool.not_false, if_true, Option.some.injEq] at updated ⊢
    exact ⟨cacheCoins, rfl, updated, fun _ _ => rfl⟩
  simp only [dirty, Bool.not_true, Bool.false_eq_true, if_false] at updated ⊢
  cases found : cacheCoins.lookup outpoint with
  | none =>
      simp only [found] at updated ⊢
      split_ifs at updated ⊢ with skipped
      · cases updated
        exact ⟨cacheCoins, rfl, found, fun _ _ => rfl⟩
      · cases updated
        exact ⟨_, rfl, AList.lookup_insert _, fun _ ne => AList.lookup_insert_ne ne⟩
  | some ours =>
      simp only [found] at updated ⊢
      by_cases thrown : (entry.fresh && !ours.coin.isSpent) = true
      · rw [if_pos thrown] at updated
        cases updated
      rw [if_neg thrown] at updated ⊢
      by_cases erased : (ours.fresh && entry.coin.isSpent) = true
      · rw [if_pos erased, Option.some.injEq] at updated
        rw [if_pos erased]
        subst updated
        exact ⟨_, rfl, AList.lookup_erase _ _, fun _ ne => AList.lookup_erase_ne ne⟩
      · rw [if_neg erased, Option.some.injEq] at updated
        rw [if_neg erased]
        subst updated
        exact ⟨_, rfl, AList.lookup_insert _, fun _ ne => AList.lookup_insert_ne ne⟩

theorem writeEntry_spec {ours : Option CCoinsCacheEntry} {entry : CCoinsCacheEntry}
    {grandCoin : Option Coin} (oursOk : EntryOk grandCoin ours)
    (live : ∀ coin, grandCoin = some coin → coin.isSpent = false)
    (entryValid : EntryValid (entryView ours grandCoin) entry) :
    ∃ new, writeEntry ours entry = some new ∧ EntryOk grandCoin new ∧
      entryView new grandCoin = unspent entry.coin := by
  unfold writeEntry
  cases dirty : entry.dirty
  · -- the child's copy is clean, so the parent already shows its coin
    refine ⟨ours, by simp, oursOk, ?_⟩
    exact (entryValid.view_of_clean (entryView_live live) dirty).symm
  simp only [Bool.not_true, Bool.false_eq_true, if_false]
  cases ours with
  | none =>
      have below : entry.fresh = true → grandCoin = none := entryValid.fresh
      by_cases skipped : (entry.fresh && entry.coin.isSpent) = true
      · simp only [Bool.and_eq_true] at skipped
        refine ⟨none, by simp [skipped], trivial, ?_⟩
        rw [entryView_none, below skipped.1, unspent_of_isSpent skipped.2]
      · refine ⟨some ⟨entry.coin, true, entry.fresh⟩, by simp [skipped], ?_, rfl⟩
        exact ⟨fun clean => (by cases clean), below, entryValid.spent⟩
  | some ours =>
      have oursValid : EntryValid grandCoin ours := oursOk
      by_cases thrown : (entry.fresh && !ours.coin.isSpent) = true
      · -- a FRESH child entry has no unspent coin above the grandparent: no throw
        exfalso
        simp only [Bool.and_eq_true, Bool.not_eq_eq_eq_not, Bool.not_true] at thrown
        have hidden := entryValid.fresh thrown.1
        rw [entryView_some, unspent_of_not_isSpent thrown.2] at hidden
        cases hidden
      by_cases erased : (ours.fresh && entry.coin.isSpent) = true
      · simp only [Bool.and_eq_true] at erased
        refine ⟨none, by simp [thrown, erased], trivial, ?_⟩
        rw [entryView_none, oursValid.fresh erased.1, unspent_of_isSpent erased.2]
      · refine ⟨some { ours with coin := entry.coin, dirty := true },
          by simp [thrown, erased], ?_, rfl⟩
        exact ⟨fun clean => (by cases clean), oursValid.fresh, entryValid.spent⟩

theorem cacheView_of_unflagged {child : CCoinsMap} {parentView : COutPoint → Option Coin}
    {outpoint : COutPoint} (childValid : CacheValid parentView child)
    (live : ViewUnspent parentView)
    (unflagged : ∀ entry, child.lookup outpoint = some entry → entry.flagged = false) :
    cacheView child parentView outpoint = parentView outpoint := by
  cases cached : child.lookup outpoint with
  | none => rw [cacheView, cached, entryView_none]
  | some entry =>
      have clean : entry.dirty = false := by
        have := unflagged entry cached
        simp only [CCoinsCacheEntry.flagged, Bool.or_eq_false_iff] at this
        exact this.1
      rw [cacheView, cached, entryView_some,
        (childValid.lookup cached).view_of_clean (live outpoint) clean]

theorem batchWrite_spec {parent child : CCoinsMap} {grandView : COutPoint → Option Coin}
    (parentValid : CacheValid grandView parent) (live : ViewUnspent grandView)
    (childValid : CacheValid (cacheView parent grandView) child) :
    ∃ parent', batchWrite parent (flaggedEntries child) = some parent' ∧
      CacheValid grandView parent' ∧
      cacheView parent' grandView = cacheView child (cacheView parent grandView) := by
  have atOutpoint : ∀ outpoint entry, child.lookup outpoint = some entry →
      ∃ new, writeEntry (parent.lookup outpoint) entry = some new ∧
        EntryOk (grandView outpoint) new ∧
        entryView new (grandView outpoint) = unspent entry.coin :=
    fun outpoint _ cached =>
      writeEntry_spec (parentValid outpoint) (live outpoint) (childValid.lookup cached)
  obtain ⟨parent', ran, written, untouched⟩ :=
    foldlM_of_updatesAt batchWriteEntry_updatesAt (flaggedEntries child) parent
      (flaggedEntries_nodupKeys child) fun pair member => by
        obtain ⟨new, wrote, -⟩ := atOutpoint pair.1 pair.2 (lookup_of_mem_flaggedEntries member)
        rw [wrote]
        exact Option.some_ne_none _
  -- each outpoint either went through the loop body or was left as it was
  have pointwise : ∀ outpoint, EntryOk (grandView outpoint) (parent'.lookup outpoint) ∧
      entryView (parent'.lookup outpoint) (grandView outpoint) =
        cacheView child (cacheView parent grandView) outpoint := by
    intro outpoint
    rcases flaggedEntries_cases child outpoint with ⟨absent, unflagged⟩ |
      ⟨entry, handed, cached, flagged⟩
    · rw [untouched outpoint (List.dlookup_eq_none.mp absent)]
      exact ⟨parentValid outpoint,
        (cacheView_of_unflagged childValid live.cacheView unflagged).symm⟩
    · obtain ⟨new, wrote, newOk, newView⟩ := atOutpoint outpoint entry cached
      have stored := written outpoint entry handed
      rw [wrote, Option.some.injEq] at stored
      rw [← stored, cacheView, cached, entryView_some]
      exact ⟨newOk, newView⟩
  exact ⟨parent', ran, fun outpoint => (pointwise outpoint).1,
    funext fun outpoint => (pointwise outpoint).2⟩

theorem baseBatchWrite_spec {base : COutPoint → Option Coin} {child : CCoinsMap}
    (live : ViewUnspent base) (childValid : CacheValid base child) :
    baseBatchWrite base (flaggedEntries child) = cacheView child base := by
  have updates : UpdatesAt (fun (coins : COutPoint → Option Coin) outpoint => coins outpoint)
      (fun old (entry : CCoinsCacheEntry) =>
        some (if entry.dirty then unspent entry.coin else old))
      fun coins pair => some (if pair.2.dirty then
        Function.update coins pair.1 (unspent pair.2.coin) else coins) := by
    rintro coins ⟨outpoint, entry⟩ value updated
    dsimp only at updated ⊢
    rw [Option.some.injEq] at updated
    subst updated
    by_cases dirty : entry.dirty = true
    · rw [if_pos dirty, if_pos dirty]
      exact ⟨_, rfl, Function.update_self .., fun _ ne => Function.update_of_ne ne _ _⟩
    · rw [if_neg dirty, if_neg dirty]
      exact ⟨coins, rfl, rfl, fun _ _ => rfl⟩
  obtain ⟨written, untouched⟩ :=
    foldl_of_updatesAt updates (flaggedEntries child) base (flaggedEntries_nodupKeys child)
  funext outpoint
  rcases flaggedEntries_cases child outpoint with ⟨absent, unflagged⟩ |
    ⟨entry, handed, cached, flagged⟩
  · rw [baseBatchWrite, untouched outpoint (List.dlookup_eq_none.mp absent),
      cacheView_of_unflagged childValid live unflagged]
  · rw [baseBatchWrite, written outpoint entry handed,
      if_pos ((childValid.lookup cached).dirty_of_flagged flagged), cacheView, cached,
      entryView_some]

theorem syncCursor_spec {child : CCoinsMap} {parentView : COutPoint → Option Coin}
    (childValid : CacheValid parentView child) (live : ViewUnspent parentView) :
    CacheValid (cacheView child parentView)
        ((flaggedEntries child).foldl nextAndMaybeErase child) ∧
      cacheView ((flaggedEntries child).foldl nextAndMaybeErase child)
        (cacheView child parentView) = cacheView child parentView ∧
      flaggedEntries ((flaggedEntries child).foldl nextAndMaybeErase child) = [] := by
  have updates : UpdatesAt (fun (map : CCoinsMap) outpoint => map.lookup outpoint)
      (fun _ (entry : CCoinsCacheEntry) => some (if entry.coin.isSpent then none
        else some { entry with dirty := false, fresh := false }))
      fun map pair => some (nextAndMaybeErase map pair) := by
    rintro map ⟨outpoint, entry⟩ value updated
    dsimp only at updated ⊢
    rw [Option.some.injEq] at updated
    subst updated
    unfold nextAndMaybeErase
    by_cases spent : entry.coin.isSpent = true
    · rw [if_pos spent, if_pos spent]
      exact ⟨_, rfl, AList.lookup_erase _ _, fun _ ne => AList.lookup_erase_ne ne⟩
    · rw [if_neg spent, if_neg spent]
      exact ⟨_, rfl, AList.lookup_insert _, fun _ ne => AList.lookup_insert_ne ne⟩
  obtain ⟨written, untouched⟩ :=
    foldl_of_updatesAt updates (flaggedEntries child) child (flaggedEntries_nodupKeys child)
  -- what is left at an outpoint is nothing, or an unflagged unspent copy of what it shows
  have copy : ∀ entry : CCoinsCacheEntry, entry.dirty = false → entry.fresh = false →
      entry.coin.isSpent = false →
      EntryOk (unspent entry.coin) (some entry) ∧
        entryView (some entry) (unspent entry.coin) = unspent entry.coin ∧
        entry.flagged = false := by
    intro entry clean notFresh live
    refine ⟨⟨fun _ => ⟨notFresh, unspent_of_not_isSpent live⟩, fun fresh => by simp_all,
      fun spent => by simp_all⟩, rfl, by simp [CCoinsCacheEntry.flagged, clean, notFresh]⟩
  have pointwise : ∀ outpoint,
      let left := ((flaggedEntries child).foldl nextAndMaybeErase child).lookup outpoint
      EntryOk (cacheView child parentView outpoint) left ∧
        entryView left (cacheView child parentView outpoint) =
          cacheView child parentView outpoint ∧
        ∀ entry, left = some entry → entry.flagged = false := by
    intro outpoint
    rcases flaggedEntries_cases child outpoint with ⟨absent, unflagged⟩ |
      ⟨entry, handed, cached, flagged⟩
    · dsimp only
      rw [untouched outpoint (List.dlookup_eq_none.mp absent)]
      cases cached : child.lookup outpoint with
      | none => exact ⟨trivial, rfl, fun _ none => by cases none⟩
      | some entry =>
          have entryValid := childValid.lookup cached
          have unflaggedEntry := unflagged entry cached
          simp only [CCoinsCacheEntry.flagged, Bool.or_eq_false_iff] at unflaggedEntry
          have clean := entryValid.clean unflaggedEntry.1
          have entryLive := live outpoint entry.coin clean.2
          rw [cacheView, cached, entryView_some]
          obtain ⟨ok, view, notFlagged⟩ := copy entry unflaggedEntry.1 unflaggedEntry.2 entryLive
          exact ⟨ok, view, fun _ same => by cases same; exact notFlagged⟩
    · dsimp only
      rw [written outpoint entry handed, cacheView, cached, entryView_some]
      by_cases spent : entry.coin.isSpent = true
      · rw [if_pos spent, unspent_of_isSpent spent]
        exact ⟨trivial, rfl, fun _ none => by cases none⟩
      · rw [if_neg spent]
        have entryLive : entry.coin.isSpent = false := by simpa using spent
        obtain ⟨ok, view, notFlagged⟩ :=
          copy { entry with dirty := false, fresh := false } rfl rfl entryLive
        exact ⟨ok, view, fun _ same => by cases same; exact notFlagged⟩
  refine ⟨fun outpoint => (pointwise outpoint).1,
    funext fun outpoint => (pointwise outpoint).2.1, ?_⟩
  exact flaggedEntries_eq_nil fun outpoint entry found => (pointwise outpoint).2.2 entry found

end Freycoin.Coins
