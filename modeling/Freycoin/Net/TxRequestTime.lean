import Freycoin.Net.TxRequestRuns

/-! `PostGetRequestableSanityCheck` after every `GetRequestable`. -/

namespace Freycoin.TxRequest

open SortedNeighbors

variable {H P : Type}

/-- `PostGetRequestableSanityCheck(now)`. -/
def PostGetRequestable [LinearOrder H] [DecidableEq P] (impl : Impl H P) (now : Int) : Prop :=
  ∀ ann ∈ impl.index, (ann.isWaiting = true → now < ann.time) ∧ (ann.isSelectable = true → ann.time ≤ now)

/-! ### The ByTime order -/

section ByTime

variable (a : Announcement H P)

theorem waitState_rank_le : (getWaitState a).rank ≤ 2 := by
  unfold getWaitState
  split_ifs <;> decide

theorem waiting_iff_rank : a.isWaiting = true ↔ (getWaitState a).rank = 0 := by
  unfold getWaitState Announcement.isWaiting Announcement.isSelectable
  cases a.state <;> decide

theorem selectable_iff_rank : a.isSelectable = true ↔ (getWaitState a).rank = 2 := by
  unfold getWaitState Announcement.isWaiting Announcement.isSelectable
  cases a.state <;> decide

theorem byTimeView_le_iff (b : Announcement H P) :
    byTimeView a ≤ byTimeView b ↔ (getWaitState a).rank < (getWaitState b).rank ∨
      (getWaitState a).rank = (getWaitState b).rank ∧ a.time ≤ b.time :=
  Prod.Lex.toLex_le_toLex

end ByTime

/-- The announcements the first loop of `SetTimePoint` still has to handle. -/
def due (now : Int) (a : Announcement H P) : Bool := a.isWaiting && decide (a.time ≤ now)

/-- The announcements the second loop of `SetTimePoint` still has to handle. -/
def early (now : Int) (a : Announcement H P) : Bool := a.isSelectable && decide (now < a.time)

variable [LinearOrder H] [DecidableEq P] {impl : Impl H P} {it : Announcement H P}

/-! ### What each pass changes -/

section Counts

omit [LinearOrder H] [DecidableEq P] in
theorem ite_le_countP {l : List (Announcement H P)} {a : Announcement H P} (mem : a ∈ l)
    (test : Announcement H P → Bool) : (if test a then 1 else 0) ≤ l.countP test := by
  split
  · exact List.countP_pos_iff.mpr ⟨a, mem, ‹_›⟩
  · exact Nat.zero_le _

theorem countP_foldl_erase_le (erased : List (Announcement H P)) (test : Announcement H P → Bool) :
    (erased.foldl Impl.erase impl).index.countP test ≤ impl.index.countP test := by
  induction erased generalizing impl with
  | nil => exact le_rfl
  | cons a rest ih => exact ih.trans (List.erase_sublist.countP_le)

theorem countP_changeAndReselect (shape : Shape impl) (mem : it ∈ impl.index) (newState : State)
    (test : Announcement H P → Bool)
    (same : ∀ a : Announcement H P, a.state = State.candidateReady → test (a.setState State.candidateBest) = test a) :
    (impl.changeAndReselect it newState).index.countP test + (if test it then 1 else 0) =
      impl.index.countP test + (if test (it.setState newState) then 1 else 0) := by
  have counted := ite_le_countP mem test
  rcases changeAndReselect_cases impl it newState with
    ⟨q, _, found, _, readyQ, result⟩ | ⟨_, result⟩ <;> rw [result]
  · have inQ := mem_of_prev_of_mem mem found
    have stillIt : it ∈ (impl.modify q (q.setState State.candidateBest)).index :=
      (mem_modify shape).mpr (.inr ⟨mem, (prev_ne found).symm⟩)
    have first : (impl.modify q (q.setState State.candidateBest)).index.countP test = impl.index.countP test := by
      have countedQ := ite_le_countP inQ test
      rw [countP_modify inQ test, same q readyQ]
      omega
    rw [countP_modify stillIt test, first]
    omega
  · rw [countP_modify mem test]
    omega

theorem mem_changeAndReselect (shape : Shape impl) (mem : it ∈ impl.index) (newState : State)
    {a : Announcement H P} (inside : a ∈ (impl.changeAndReselect it newState).index) :
    a = it.setState newState ∨ a ∈ impl.index ∨
      ∃ q ∈ impl.index, q.state = State.candidateReady ∧ a = q.setState State.candidateBest := by
  rcases changeAndReselect_cases impl it newState with
    ⟨q, _, found, _, readyQ, result⟩ | ⟨_, result⟩ <;> rw [result] at inside
  · have inQ := mem_of_prev_of_mem mem found
    rcases (mem_modify (shape.modify inQ rfl)).mp inside with same | ⟨inside, _⟩
    · exact .inl same
    rcases (mem_modify shape).mp inside with same | ⟨inside, _⟩
    · exact .inr (.inr ⟨q, inQ, readyQ, same⟩)
    · exact .inr (.inl inside)
  · rcases (mem_modify shape).mp inside with same | ⟨inside, _⟩
    · exact .inl same
    · exact .inr (.inl inside)

theorem countP_makeCompleted (consistent : Consistent impl) (mem : it ∈ impl.index)
    (test : Announcement H P → Bool) (waiting : ∀ a : Announcement H P, a.isWaiting = false → test a = false) :
    (impl.makeCompleted it).2.index.countP test + (if test it then 1 else 0) ≤ impl.index.countP test := by
  have shape := consistent.toShape
  have counted := ite_le_countP mem test
  rcases makeCompleted_cases impl it with ⟨completed, result⟩ | ⟨_, _, result⟩ | ⟨_, _, result⟩ <;>
    rw [result] <;> dsimp only
  · -- a completed announcement is not waiting
    have idle : test it = false := waiting it (by rw [Announcement.isWaiting, completed]; rfl)
    rw [idle]
    exact le_rfl
  · -- the erasures start with `it`
    rw [dropWhile_of_mem mem, List.takeWhile_cons_of_pos (p := fun a : Announcement H P => a.txhash == it.txhash)
      (beq_self_eq_true _), List.foldl_cons]
    have rest : (((after impl.index it).takeWhile (·.txhash == it.txhash)).foldl Impl.erase
        (impl.erase it)).index.countP test ≤ (impl.erase it).index.countP test :=
      countP_foldl_erase_le _ test
    rw [countP_erase mem test] at rest
    omega
  · have change := countP_changeAndReselect shape mem State.completed test fun a ready => by
      rw [waiting a (by rw [Announcement.isWaiting, ready]; rfl), waiting _ rfl]
    rw [waiting (it.setState State.completed) rfl, if_neg Bool.false_ne_true] at change
    omega

end Counts

/-! ### The two loops -/

section Loops

variable (now : Int)

theorem promoteDue_spec (fuel : ℕ) :
    ∀ (expired : List (P × GenTxid H)) {impl : Impl H P}, Consistent impl →
      impl.index.countP (due now) ≤ fuel →
      ∀ a ∈ (Impl.promoteDue now fuel expired impl).2.index, a.isWaiting = true → now < a.time := by
  induction fuel with
  | zero =>
    intro expired impl _ enough a inside waiting
    have none := List.countP_eq_zero.mp (Nat.le_zero.mp enough) a inside
    simpa [due, waiting] using none
  | succ fuel ih =>
    intro expired impl consistent enough
    rw [Impl.promoteDue]
    cases found : impl.index.argmin byTimeView with
    | none =>
      intro a inside
      rw [List.argmin_eq_none.mp found] at inside
      cases inside
    | some it =>
      have mem : it ∈ impl.index := List.argmin_mem found
      dsimp only
      split_ifs with delayed requested
      · -- a delayed announcement becomes a candidate
        have counted := countP_promoteCandidateReady consistent mem (due now) fun a selectable => by
          have idle : a.isWaiting = false := by
            rw [← Bool.not_eq_true, waiting_iff_rank, (selectable_iff_rank a).mp selectable]
            decide
          simp [due, idle]
        have dueIt : due now it = true := by
          simp [due, Announcement.isWaiting, delayed.1, delayed.2]
        rw [dueIt, if_pos rfl] at counted
        exact ih expired (consistent.promoteCandidateReady mem delayed.1) (by omega)
      · -- a request expires
        have counted := countP_makeCompleted consistent mem (due now) fun a idle => by simp [due, idle]
        have dueIt : due now it = true := by
          simp [due, Announcement.isWaiting, requested.1, requested.2]
        rw [dueIt, if_pos rfl] at counted
        exact ih _ (consistent.makeCompleted mem).1 (by omega)
      · -- the first announcement in the ByTime order is not due, so none is
        intro a inside waiting
        by_contra past
        have first := (byTimeView_le_iff it a).mp (List.le_of_mem_argmin inside found)
        rw [(waiting_iff_rank a).mp waiting] at first
        rcases first with lower | ⟨rank, time⟩
        · exact absurd lower (Nat.not_lt_zero _)
        · have waitingIt := (waiting_iff_rank it).mpr rank
          rw [Announcement.isWaiting, Bool.or_eq_true, beq_iff_eq, beq_iff_eq] at waitingIt
          rcases waitingIt with requestedIt | delayedIt
          · exact requested ⟨requestedIt, time.trans (not_lt.mp past)⟩
          · exact delayed ⟨delayedIt, time.trans (not_lt.mp past)⟩

theorem demoteFuture_spec (fuel : ℕ) :
    ∀ {impl : Impl H P}, Consistent impl → impl.index.countP (early now) ≤ fuel →
      (∀ a ∈ impl.index, a.isWaiting = true → now < a.time) →
      PostGetRequestable (Impl.demoteFuture now fuel impl) now := by
  induction fuel with
  | zero =>
    intro impl _ enough future a inside
    have none := List.countP_eq_zero.mp (Nat.le_zero.mp enough) a inside
    exact ⟨future a inside, fun selectable => by simpa [early, selectable] using none⟩
  | succ fuel ih =>
    intro impl consistent enough future
    rw [Impl.demoteFuture]
    cases found : impl.index.argmax byTimeView with
    | none =>
      intro a inside
      rw [List.argmax_eq_none.mp found] at inside
      cases inside
    | some it =>
      have mem : it ∈ impl.index := List.argmax_mem found
      have shape := consistent.toShape
      dsimp only
      split_ifs with earlyIt
      · -- a candidate in the future is delayed again
        have counted := countP_changeAndReselect shape mem State.candidateDelayed (early now)
          fun a ready => by
            unfold early
            rw [Announcement.setState_time]
            congr 1
            simp [Announcement.isSelectable, ready]
        have testIt : early now it = true := by simp [early, earlyIt.1, earlyIt.2]
        rw [testIt, if_pos rfl] at counted
        have delayedIdle : early now (it.setState State.candidateDelayed) = false := by
          simp [early, Announcement.isSelectable]
        rw [delayedIdle] at counted
        refine ih (consistent.changeAndReselect mem (.inr rfl) fun completed => by cases completed)
          (by simp only [Bool.false_eq_true, ↓reduceIte] at counted; omega) fun a inside waiting => ?_
        rcases mem_changeAndReselect shape mem State.candidateDelayed inside with
          rfl | inside | ⟨q, _, _, rfl⟩
        · exact earlyIt.2
        · exact future a inside waiting
        · simp [Announcement.isWaiting] at waiting
      · -- the last announcement in the ByTime order is not early, so none is
        refine fun a inside => ⟨future a inside, fun selectable => ?_⟩
        by_contra ahead
        have last := (byTimeView_le_iff a it).mp (List.le_of_mem_argmax inside found)
        rw [(selectable_iff_rank a).mp selectable] at last
        rcases last with higher | ⟨rank, time⟩
        · exact absurd (higher.trans_le (waitState_rank_le it)) (lt_irrefl 2)
        · exact earlyIt ⟨(selectable_iff_rank it).mpr rank.symm, (not_le.mp ahead).trans_le time⟩

end Loops

/-- After every `GetRequestable(peer, now)` of a tracker reached by calls of the interface,
`PostGetRequestableSanityCheck(now)` passes: the waiting announcements (delayed candidates and
requests) lie in the future and the selectable ones (ready and best candidates) do not. The
loops of `SetTimePoint` finish their work within their fuel. -/
theorem getRequestable_postSanityCheck {computer : H → P → Bool → UInt64} (reached : Reachable computer impl) (peer : P) (now : Int) :
    PostGetRequestable (impl.getRequestable peer now).2 now := by
  have consistent := reached.consistent.1
  have promoted := Consistent.promoteDue now impl.index.length [] consistent
  exact demoteFuture_spec now _ promoted (List.countP_le_length)
    (promoteDue_spec now _ [] consistent List.countP_le_length)

/-- At time `3` the first announcement is due and the second, for time `5`, is not. -/
theorem getRequestable_postSanityCheck_two_announcements :
    Reachable peerRank twoAnnouncements ∧
      ((twoAnnouncements.getRequestable true 3).2.index.map (·.state) =
          [State.candidateDelayed, State.candidateBest] ∧
        PostGetRequestable (twoAnnouncements.getRequestable true 3).2 3) := by
  have reached : Reachable peerRank twoAnnouncements := .step _ (.step _ .init)
  exact ⟨reached, by decide, getRequestable_postSanityCheck reached true 3⟩

end Freycoin.TxRequest
