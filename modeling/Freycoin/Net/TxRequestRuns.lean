import Freycoin.Net.TxRequestReselect

/-! The invariants of `SanityCheck` over every run of the tracker. -/

namespace Freycoin.TxRequest

open SortedNeighbors

variable {H P : Type} [LinearOrder H] [DecidableEq P] {impl : Impl H P} {it : Announcement H P}

/-! ### The lower bounds of the ByTxHash index -/

omit [DecidableEq P] in
theorem view_le_iff (computer : H → P → Bool → UInt64) (txhash : H) (rank : ℕ) (a : Announcement H P) :
    toLex (txhash, toLex (rank, 0)) ≤ byTxHashView computer a ↔
      txhash < a.txhash ∨ txhash = a.txhash ∧ rank ≤ a.state.rank := by
  simp only [byTxHashView, Prod.Lex.toLex_le_toLex, Nat.zero_le, and_true, ← le_iff_lt_or_eq]

theorem lowerBound_spec (shape : Shape impl) (txhash : H) (rank : ℕ) :
    (∀ a ∈ impl.lowerBound (toLex (txhash, toLex (rank, 0))), txhash ≤ a.txhash) ∧
      ∀ a ∈ impl.index, a.txhash = txhash → rank ≤ a.state.rank →
        a ∈ impl.lowerBound (toLex (txhash, toLex (rank, 0))) := by
  refine ⟨fun a inside => ?_, fun a inside hash ranks => ?_⟩
  · rcases (view_le_iff impl.computer txhash rank a).mp (le_of_mem_dropWhile shape.sorted inside) with
      lower | ⟨same, _⟩
    · exact lower.le
    · exact same.le
  · exact mem_dropWhile_of_le inside ((view_le_iff impl.computer txhash rank a).mpr (.inr ⟨hash.symm, ranks⟩))

theorem head_lowerBound_selected (consistent : Consistent impl) {txhash : H} {s : Announcement H P}
    (inS : s ∈ impl.index) (hash : s.txhash = txhash) (selected : s.isSelected = true) :
    (impl.lowerBound (toLex (txhash, toLex (State.candidateBest.rank, 0)))).head? = some s := by
  have shape := consistent.toShape
  have bounds := rank_of_selected selected
  obtain ⟨low, covers⟩ := lowerBound_spec shape txhash State.candidateBest.rank
  have kept := covers s inS hash bounds.1
  have nonempty := List.ne_nil_of_mem kept
  obtain ⟨x, found⟩ := Option.isSome_iff_exists.mp (List.isSome_head?.mpr nonempty)
  have inX := List.mem_of_mem_head? found
  have below := head_dropWhile_le shape.sorted found inS
    ((view_le_iff impl.computer txhash _ s).mpr (.inr ⟨hash.symm, bounds.1⟩))
  -- `x` lies between `(txhash, CANDIDATE_BEST)` and `s`: of the txhash, and selected
  have hashX : x.txhash = txhash := le_antisymm (hash ▸ txhash_le_of_le below) (low x inX)
  have rankX : 2 ≤ x.state.rank := by
    rcases (view_le_iff impl.computer txhash _ x).mp (le_of_mem_dropWhile shape.sorted inX) with
      lower | ⟨_, ranks⟩
    · exact absurd hashX (ne_of_gt lower)
    · exact ranks
  have selectedX := selected_of_rank rankX ((rank_le_of_le below (hashX.trans hash.symm)).trans bounds.2)
  rw [found, (consistent.txhashInv txhash).oneSelected x ((List.dropWhile_sublist _).subset inX) s inS hashX
    hash selectedX selected]

/-! ### `SetTimePoint` -/

section Time

variable (now : Int)

theorem Consistent.promoteDue (fuel : ℕ) :
    ∀ (expired : List (P × GenTxid H)) {impl : Impl H P}, Consistent impl →
      Consistent (Impl.promoteDue now fuel expired impl).2 := by
  induction fuel with
  | zero => exact fun _ _ consistent => consistent
  | succ fuel ih =>
    intro expired impl consistent
    rw [Impl.promoteDue]
    cases found : impl.index.argmin byTimeView with
    | none => exact consistent
    | some it =>
      have mem : it ∈ impl.index := List.argmin_mem found
      dsimp only
      split_ifs with delayed requested
      · exact ih expired (consistent.promoteCandidateReady mem delayed.1)
      · exact ih _ (consistent.makeCompleted mem).1
      · exact consistent

theorem Consistent.demoteFuture (fuel : ℕ) :
    ∀ {impl : Impl H P}, Consistent impl → Consistent (Impl.demoteFuture now fuel impl) := by
  induction fuel with
  | zero => exact fun consistent => consistent
  | succ fuel ih =>
    intro impl consistent
    rw [Impl.demoteFuture]
    cases found : impl.index.argmax byTimeView with
    | none => exact consistent
    | some it =>
      have mem : it ∈ impl.index := List.argmax_mem found
      dsimp only
      split_ifs with early
      · exact ih (consistent.changeAndReselect mem (.inr rfl) fun completed => by cases completed)
      · exact consistent

theorem Consistent.setTimePoint (consistent : Consistent impl) : Consistent (impl.setTimePoint now).2 :=
  Consistent.demoteFuture now _ (Consistent.promoteDue now _ [] consistent)

end Time

/-! ### The calls of the interface -/

section Calls

theorem findByPeer_spec {peer : P} {best : Bool} {txhash : H}
    (found : impl.findByPeer peer best txhash = some it) :
    it ∈ impl.index ∧ it.peer = peer ∧ (it.state == State.candidateBest) = best ∧ it.txhash = txhash := by
  have test := List.find?_some found
  simp only [Bool.and_eq_true, beq_iff_eq] at test
  exact ⟨List.mem_of_find?_eq_some found, test.1.1, test.1.2, test.2⟩

theorem fresh_of_find {peer : P} {txhash : H} (best : impl.findByPeer peer true txhash = none)
    (other : impl.findByPeer peer false txhash = none) :
    ∀ a ∈ impl.index, ¬(a.txhash = txhash ∧ a.peer = peer) := by
  rintro a mem ⟨hash, samePeer⟩
  cases state : (a.state == State.candidateBest)
  · exact List.find?_eq_none.mp other a mem (by simp [state, hash, samePeer])
  · exact List.find?_eq_none.mp best a mem (by simp [state, hash, samePeer])

theorem Consistent.receivedInv (consistent : Consistent impl)
    (peer : P) (gtxid : GenTxid H) (preferred : Bool) (reqtime : Int) :
    Consistent (impl.receivedInv peer gtxid preferred reqtime) := by
  unfold Impl.receivedInv
  split_ifs with best other
  · exact consistent
  · exact consistent
  dsimp only
  set ann : Announcement H P :=
    ⟨gtxid, reqtime, peer, impl.currentSequence.toBitVec.setWidth 59, preferred, .candidateDelayed⟩
  have shape := consistent.toShape
  -- the new announcement: delayed, and the only one of the peer for the txhash
  have fresh : ∀ a ∈ impl.index, ¬(a.txhash = ann.txhash ∧ a.peer = ann.peer) :=
    fresh_of_find (Option.not_isSome_iff_eq_none.mp best) (Option.not_isSome_iff_eq_none.mp other)
  have inserted := shape.insert (impl.currentSequence + 1) fresh rfl
  have members : ∀ a, a ∈ impl.index.orderedInsert impl.byTxHash ann ↔ a = ann ∨ a ∈ impl.index ∧ a ≠ ann := by
    intro a
    rw [List.mem_orderedInsert]
    constructor
    · rintro (same | inside)
      · exact .inl same
      · exact .inr ⟨inside, fun same => fresh a inside ⟨by rw [same], by rw [same]⟩⟩
    · rintro (same | ⟨inside, _⟩)
      · exact .inl same
      · exact .inr inside
  refine consistent.of_within inserted ⟨rfl, fun a hash => ?_⟩ ((consistent.txhashInv ann.txhash).demote
    members rfl (by simp [ann]) (fun selected => by cases selected) ⟨ann, (members ann).mpr (.inl rfl), rfl,
      by simp [ann]⟩)
  rw [List.mem_orderedInsert]
  exact ⟨fun inside => inside.resolve_left fun same => hash (same ▸ rfl), .inr⟩

theorem consistent_requested (consistent : Consistent impl) {impl' : Impl H P} (shape' : Shape impl')
    (within : Within impl impl' it.txhash) (mem : it ∈ impl'.index)
    (alone : ∀ a ∈ impl'.index, a.txhash = it.txhash → a ≠ it → a.isSelected = false) (expiry : Int) :
    Consistent (impl'.modify it { it with state := State.requested, time := expiry }) := by
  have requested : Shape (impl'.modify it { it with state := State.requested, time := expiry }) :=
    shape'.modify mem rfl
  refine consistent.of_within requested (within.trans (within_modify shape' rfl))
    (TxHashInv.of_selected { it with state := State.requested, time := expiry }
      ((mem_modify shape').mpr (.inl rfl)) rfl rfl (fun a inside hash other => ?_) fun best => by cases best)
  rcases (mem_modify shape').mp inside with same | ⟨inside, notIt⟩
  · exact absurd same other
  · exact alone a inside hash notIt

theorem unselected_of_head (consistent : Consistent impl) {txhash : H}
    (head : ∀ old, (impl.lowerBound (toLex (txhash, toLex (State.candidateBest.rank, 0)))).head? = some old →
      old.txhash = txhash → old.isSelected = false) :
    ∀ a ∈ impl.index, a.txhash = txhash → a.isSelected = false := by
  intro a inside hash
  cases selected : a.isSelected
  · rfl
  · rw [← head a (head_lowerBound_selected consistent inside hash selected) hash, selected]

theorem consistent_requested_demoted (consistent : Consistent impl) (mem : it ∈ impl.index)
    (unselectedIt : it.isSelected = false) {old : Announcement H P}
    (head : (impl.lowerBound (toLex (it.txhash, toLex (State.candidateBest.rank, 0)))).head? = some old)
    (hashOld : old.txhash = it.txhash) (selectedOld : old.isSelected = true) {state : State}
    (demoted : (old.setState state).isSelected = false) (expiry : Int) :
    Consistent ((impl.modify old (old.setState state)).modify it
      { it with state := State.requested, time := expiry }) := by
  have shape := consistent.toShape
  have inOld : old ∈ impl.index := (List.dropWhile_sublist _).subset (List.mem_of_mem_head? head)
  have notOld : it ≠ old := by
    rintro rfl
    rw [selectedOld] at unselectedIt
    cases unselectedIt
  have within : Within impl (impl.modify old (old.setState state)) it.txhash :=
    hashOld ▸ within_modify shape rfl
  refine consistent_requested consistent (shape.modify inOld rfl) within
    ((mem_modify shape).mpr (.inr ⟨mem, notOld⟩)) (fun a inside hash _ => ?_) expiry
  rcases (mem_modify shape).mp inside with rfl | ⟨inside, notOldA⟩
  · exact demoted
  · -- any other selected announcement would be the one `lower_bound` found
    cases selected : a.isSelected
    · rfl
    · rw [head_lowerBound_selected consistent inside hash selected] at head
      cases head
      exact absurd rfl notOldA

theorem Consistent.requestedTx (consistent : Consistent impl) (peer : P) (txhash : H) (expiry : Int) :
    Consistent (impl.requestedTx peer txhash expiry) := by
  have shape := consistent.toShape
  unfold Impl.requestedTx
  cases best : impl.findByPeer peer true txhash with
  | some it =>
    -- the peer's best candidate becomes requested; nothing else of the txhash was selected
    obtain ⟨mem, _, state, _⟩ := findByPeer_spec best
    have selected : it.isSelected = true :=
      (Announcement.isSelected_iff it).mpr (.inl (beq_iff_eq.mp state))
    exact consistent_requested consistent shape (Within.refl impl it.txhash) mem
      (fun a inside hash other => by
        cases selectedA : a.isSelected
        · rfl
        · exact absurd ((consistent.txhashInv it.txhash).oneSelected a inside it mem hash rfl selectedA
            selected) other) expiry
  | none =>
    dsimp only
    cases other : impl.findByPeer peer false txhash with
    | none => exact consistent
    | some it =>
      obtain ⟨mem, _, state, hashIt⟩ := findByPeer_spec other
      subst hashIt
      dsimp only
      split_ifs with notCandidate
      · exact consistent
      have unselectedIt : it.isSelected = false := by
        rw [not_and_or, not_not, not_not] at notCandidate
        rw [unselected_iff]
        rcases notCandidate with delayed | ready
        · rw [delayed]
          exact ⟨by decide, by decide⟩
        · rw [ready]
          exact ⟨by decide, by decide⟩
      -- without a selected announcement to demote, `it` is requested as it is
      have plain : (∀ old, (impl.lowerBound (toLex (it.txhash, toLex (State.candidateBest.rank, 0)))).head? =
          some old → old.txhash = it.txhash → old.isSelected = false) →
          Consistent (impl.modify it { it with state := State.requested, time := expiry }) := fun head =>
        consistent_requested consistent shape (Within.refl impl it.txhash) mem
          (fun a inside hash _ => unselected_of_head consistent head a inside hash) expiry
      split
      · next old head =>
        split_ifs with hashOld bestOld requestedOld
        · exact consistent_requested_demoted consistent mem unselectedIt head hashOld
            ((Announcement.isSelected_iff old).mpr (.inl bestOld)) rfl expiry
        · exact consistent_requested_demoted consistent mem unselectedIt head hashOld
            ((Announcement.isSelected_iff old).mpr (.inr requestedOld)) rfl expiry
        · refine plain fun o found _ => ?_
          rw [head] at found
          cases found
          exact unselected_iff.mpr ⟨bestOld, requestedOld⟩
        · refine plain fun o found hashO => ?_
          rw [head] at found
          cases found
          exact absurd hashO hashOld
      · next head =>
        refine plain fun o found _ => ?_
        rw [head] at found
        cases found

theorem Consistent.receivedResponse (consistent : Consistent impl) (peer : P) (txhash : H) :
    Consistent (impl.receivedResponse peer txhash) := by
  unfold Impl.receivedResponse
  cases other : impl.findByPeer peer false txhash with
  | some it => exact (consistent.makeCompleted (findByPeer_spec other).1).1
  | none =>
    cases best : impl.findByPeer peer true txhash with
    | some it => exact (consistent.makeCompleted (findByPeer_spec best).1).1
    | none => exact consistent

theorem Consistent.forgetTxHash (consistent : Consistent impl) (txhash : H) :
    Consistent (impl.forgetTxHash txhash) := by
  have shape := consistent.toShape
  obtain ⟨low, covers⟩ := lowerBound_spec shape txhash State.candidateDelayed.rank
  obtain ⟨inside, nodup, exact⟩ := takeWhile_txhash_exact shape (List.dropWhile_sublist _) low
    fun a mem hash => covers a mem hash (Nat.zero_le _)
  exact (consistent.erase_txhash inside nodup exact).1

theorem byPeer_spec (shape : Shape impl) (peer : P) :
    (∀ a ∈ impl.byPeer peer, a ∈ impl.index) ∧ (impl.byPeer peer).Pairwise (fun a b => a.txhash ≠ b.txhash) := by
  have inside : ∀ a ∈ impl.byPeer peer, a ∈ impl.index ∧ a.peer = peer := by
    intro a mem
    rcases List.mem_append.mp mem with first | second
    · obtain ⟨inA, test⟩ := List.mem_filter.mp first
      exact ⟨inA, beq_iff_eq.mp (Bool.and_eq_true _ _ ▸ test).1⟩
    · obtain ⟨inA, test⟩ := List.mem_filter.mp second
      exact ⟨inA, beq_iff_eq.mp (Bool.and_eq_true _ _ ▸ test).1⟩
  have nodup : (impl.byPeer peer).Nodup := by
    rw [Impl.byPeer, List.nodup_append]
    refine ⟨shape.nodup.filter _, shape.nodup.filter _, fun a first b second same => ?_⟩
    subst same
    have notBest := (Bool.and_eq_true _ _ ▸ (List.mem_filter.mp first).2).2
    have isBest := (Bool.and_eq_true _ _ ▸ (List.mem_filter.mp second).2).2
    rw [bne_iff_ne, ne_eq] at notBest
    exact notBest (beq_iff_eq.mp isBest)
  refine ⟨fun a mem => (inside a mem).1, nodup.pairwise_of_forall_ne fun a inA b inB differ same => ?_⟩
  exact differ (shape.unique a (inside a inA).1 b (inside b inB).1 same
    ((inside a inA).2.trans (inside b inB).2.symm))

theorem Consistent.disconnectedPeer (consistent : Consistent impl) (peer : P) :
    Consistent (impl.disconnectedPeer peer) := by
  obtain ⟨inside, distinct⟩ := byPeer_spec consistent.toShape peer
  unfold Impl.disconnectedPeer
  generalize impl.byPeer peer = pending at inside distinct
  -- each pass changes only announcements of its own txhash, so the peer's later ones stay
  induction pending generalizing impl with
  | nil => exact consistent
  | cons it rest ih =>
    rw [List.pairwise_cons] at distinct
    have mem := inside it List.mem_cons_self
    have stays : ∀ {impl' : Impl H P}, Within impl impl' it.txhash → ∀ a ∈ rest, a ∈ impl'.index :=
      fun within a later => (within.others a (distinct.1 a later).symm).mpr (inside a (List.mem_cons_of_mem it later))
    obtain ⟨completed, within, present⟩ := consistent.makeCompleted mem
    simp only [List.foldl_cons]
    cases result : impl.makeCompleted it with
    | mk kept impl' =>
      rw [result] at completed within present
      cases kept
      · exact ih completed (stays within) distinct.2
      · obtain ⟨erased, withinErased⟩ := completed.erase_completed (present rfl) rfl
        exact ih erased (stays (within.trans withinErased)) distinct.2

theorem Consistent.getRequestable (consistent : Consistent impl) (peer : P) (now : Int) :
    Consistent (impl.getRequestable peer now).2 :=
  consistent.setTimePoint now

theorem Consistent.apply (consistent : Consistent impl)
    (operation : Operation H P) : Consistent (impl.apply operation).2 := by
  cases operation with
  | receivedInv peer gtxid preferred reqtime => exact consistent.receivedInv peer gtxid preferred reqtime
  | requestedTx peer txhash expiry => exact consistent.requestedTx peer txhash expiry
  | receivedResponse peer txhash => exact consistent.receivedResponse peer txhash
  | disconnectedPeer peer => exact consistent.disconnectedPeer peer
  | forgetTxHash txhash => exact consistent.forgetTxHash txhash
  | getRequestable peer now => exact consistent.getRequestable peer now
  | countInFlight => exact consistent
  | countCandidates => exact consistent
  | count => exact consistent
  | size => exact consistent
  | getCandidatePeers => exact consistent

end Calls

/-! ### Runs -/

section Runs

/-! Every call keeps the priority computer, which `m_computer` holds as a constant. -/

@[simp] theorem promoteCandidateReady_computer :
    (impl.promoteCandidateReady it).computer = impl.computer := by
  rcases promoteCandidateReady_cases impl it with ⟨result, _⟩ | ⟨_, _, _, _, _, result⟩ |
    ⟨_, _, _, _, _, result⟩ <;> rw [result] <;> rfl

@[simp] theorem changeAndReselect_computer (newState : State) :
    (impl.changeAndReselect it newState).computer = impl.computer := by
  rcases changeAndReselect_cases impl it newState with ⟨_, _, _, _, _, result⟩ | ⟨_, result⟩ <;>
    rw [result] <;> rfl

@[simp] theorem foldl_erase_computer (erased : List (Announcement H P)) :
    (erased.foldl Impl.erase impl).computer = impl.computer := by
  induction erased generalizing impl with
  | nil => rfl
  | cons a rest ih => exact ih

@[simp] theorem makeCompleted_computer : (impl.makeCompleted it).2.computer = impl.computer := by
  rcases makeCompleted_cases impl it with ⟨_, result⟩ | ⟨_, _, result⟩ | ⟨_, _, result⟩ <;>
    rw [result] <;> simp

theorem promoteDue_computer (now : Int) (fuel : ℕ) :
    ∀ (expired : List (P × GenTxid H)) (impl : Impl H P),
      (Impl.promoteDue now fuel expired impl).2.computer = impl.computer := by
  induction fuel with
  | zero => exact fun _ _ => rfl
  | succ fuel ih =>
    intro expired impl
    rw [Impl.promoteDue]
    cases impl.index.argmin byTimeView with
    | none => rfl
    | some it =>
      dsimp only
      split_ifs
      · rw [ih, promoteCandidateReady_computer]
      · rw [ih, makeCompleted_computer]
      · rfl

theorem demoteFuture_computer (now : Int) (fuel : ℕ) :
    ∀ impl : Impl H P, (Impl.demoteFuture now fuel impl).computer = impl.computer := by
  induction fuel with
  | zero => exact fun _ => rfl
  | succ fuel ih =>
    intro impl
    rw [Impl.demoteFuture]
    cases impl.index.argmax byTimeView with
    | none => rfl
    | some it =>
      dsimp only
      split_ifs
      · rw [ih, changeAndReselect_computer]
      · rfl

theorem apply_computer (impl : Impl H P) (operation : Operation H P) :
    (impl.apply operation).2.computer = impl.computer := by
  cases operation with
  | receivedInv peer gtxid preferred reqtime =>
    show (impl.receivedInv peer gtxid preferred reqtime).computer = impl.computer
    unfold Impl.receivedInv
    split_ifs <;> rfl
  | requestedTx peer txhash expiry =>
    show (impl.requestedTx peer txhash expiry).computer = impl.computer
    unfold Impl.requestedTx
    repeat' (first | rfl | split)
  | receivedResponse peer txhash =>
    show (impl.receivedResponse peer txhash).computer = impl.computer
    unfold Impl.receivedResponse
    split
    · exact makeCompleted_computer
    · rfl
  | disconnectedPeer peer =>
    show (impl.disconnectedPeer peer).computer = impl.computer
    unfold Impl.disconnectedPeer
    generalize impl.byPeer peer = pending
    induction pending generalizing impl with
    | nil => rfl
    | cons it rest ih =>
      simp only [List.foldl_cons]
      rw [ih]
      have kept : (impl.makeCompleted it).2.computer = impl.computer := makeCompleted_computer
      split
      · next impl' result =>
        rw [result] at kept
        exact kept
      · next impl' result =>
        rw [result] at kept
        exact kept
  | forgetTxHash txhash => exact foldl_erase_computer _
  | getRequestable peer now =>
    show (impl.setTimePoint now).2.computer = impl.computer
    exact (demoteFuture_computer now _ _).trans (promoteDue_computer now _ [] impl)
  | countInFlight => rfl
  | countCandidates => rfl
  | count => rfl
  | size => rfl
  | getCandidatePeers => rfl

/-- The trackers reached from `TxRequestTracker(deterministic)` by calls of the interface. -/
inductive Reachable (computer : H → P → Bool → UInt64) : Impl H P → Prop
  | init : Reachable computer (Impl.init computer)
  | step {impl : Impl H P} (operation : Operation H P) :
      Reachable computer impl → Reachable computer (impl.apply operation).2

theorem consistent_init (computer : H → P → Bool → UInt64) : Consistent (Impl.init computer) where
  sorted := List.Pairwise.nil
  nodup := List.nodup_nil
  unique _ inside := by cases inside
  peerinfo := rfl
  txhashInv _ := TxHashInv.of_unselected (fun _ inside => by cases inside) (fun _ inside => by cases inside)

theorem Reachable.consistent {computer : H → P → Bool → UInt64} (reached : Reachable computer impl) : Consistent impl ∧ impl.computer = computer := by
  induction reached with
  | init => exact ⟨consistent_init computer, rfl⟩
  | step operation _ ih =>
    obtain ⟨consistent, computer⟩ := ih
    exact ⟨consistent.apply operation, (apply_computer _ operation).trans computer⟩

/-! ### The counters -/

omit [LinearOrder H] in
theorem countP_peer_split (index : List (Announcement H P)) (peer : P) :
    index.countP (·.peer == peer) =
      index.countP (fun a => a.peer == peer && a.state == State.requested) +
        index.countP (fun a => a.peer == peer && a.state == State.completed) +
        index.countP (fun a => a.peer == peer && collapse a.state == Tester.State.candidate) := by
  induction index with
  | nil => rfl
  | cons a rest ih =>
    simp only [List.countP_cons, ih]
    by_cases samePeer : a.peer = peer
    · cases a.state <;> simp [samePeer, collapse] <;> omega
    · simp [samePeer]

theorem Consistent.counters (consistent : Consistent impl) (peer : P) :
    impl.count peer = impl.index.countP (·.peer == peer) ∧
      impl.countInFlight peer = impl.index.countP (fun a => a.peer == peer && a.state == State.requested) ∧
      impl.countCandidates peer =
        impl.index.countP (fun a => a.peer == peer && collapse a.state == Tester.State.candidate) := by
  have split := countP_peer_split impl.index peer
  simp only [Impl.count, Impl.countInFlight, Impl.countCandidates, consistent.peerinfo, recomputePeerInfo_eq,
    true_and]
  omega

/-- Every tracker reached by calls of the interface passes `SanityCheck`: the per-peer
statistics are those of the index, a txhash is not left with only completed announcements, it
has at most one selected announcement and one whenever one is ready, the best candidate is at
least as good as every ready one, and no peer announced a txhash twice. `Count`,
`CountInFlight` and `CountCandidates` then report the numbers of the peer's announcements, of
its requested ones, and of its candidates. -/
theorem txRequestTracker_sanityCheck {computer : H → P → Bool → UInt64} (reached : Reachable computer impl) :
    Consistent impl ∧ ∀ peer : P,
      impl.count peer = impl.index.countP (·.peer == peer) ∧
      impl.countInFlight peer = impl.index.countP (fun a => a.peer == peer && a.state == State.requested) ∧
      impl.countCandidates peer =
        impl.index.countP (fun a => a.peer == peer && collapse a.state == Tester.State.candidate) := by
  have consistent := reached.consistent.1
  exact ⟨consistent, consistent.counters⟩

/-- A priority computer that ranks the two peers `false < true`. -/
def peerRank (_ : ℕ) (peer : Bool) (_ : Bool) : UInt64 := if peer then 1 else 0

/-- Both peers announce txhash `7`, the preferred one first. -/
def twoAnnouncements : Impl ℕ Bool :=
  (((Impl.init peerRank).apply (.receivedInv true ⟨false, 7⟩ true 0)).2.apply
    (.receivedInv false ⟨false, 7⟩ false 5)).2

theorem txRequestTracker_sanityCheck_two_announcements :
    Reachable peerRank twoAnnouncements ∧ twoAnnouncements.count true = 1 ∧
      (Consistent twoAnnouncements ∧ ∀ peer : Bool,
        twoAnnouncements.count peer = twoAnnouncements.index.countP (·.peer == peer) ∧
        twoAnnouncements.countInFlight peer =
          twoAnnouncements.index.countP (fun a => a.peer == peer && a.state == State.requested) ∧
        twoAnnouncements.countCandidates peer =
          twoAnnouncements.index.countP (fun a => a.peer == peer && collapse a.state == Tester.State.candidate)) := by
  have reached : Reachable peerRank twoAnnouncements := .step _ (.step _ .init)
  exact ⟨reached, by decide, txRequestTracker_sanityCheck reached⟩

end Runs

end Freycoin.TxRequest
