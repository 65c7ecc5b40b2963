import Freycoin.Net.TxRequestSelect

/-! `ChangeAndReselect`, `MakeCompleted` and the erasure of a txhash's announcements. -/

namespace Freycoin.TxRequest

open SortedNeighbors

variable {H P : Type}

theorem rank_of_selected {a : Announcement H P} (selected : a.isSelected = true) :
    2 ≤ a.state.rank ∧ a.state.rank ≤ 3 := by
  rcases (Announcement.isSelected_iff a).mp selected with state | state <;>
    (rw [state]; decide)

theorem selected_of_rank {a : Announcement H P} (low : 2 ≤ a.state.rank) (high : a.state.rank ≤ 3) :
    a.isSelected = true := by
  rw [Announcement.isSelected_iff]
  cases state : a.state with
  | candidateDelayed => rw [state] at low; exact absurd low (by decide)
  | candidateReady => rw [state] at low; exact absurd low (by decide)
  | candidateBest => exact .inl rfl
  | requested => exact .inr rfl
  | completed => rw [state] at high; exact absurd high (by decide)

theorem State.rank_le (state : State) : state.rank ≤ 4 := by
  cases state <;> decide

theorem State.rank_eq_four {state : State} : state.rank = 4 ↔ state = State.completed := by
  cases state <;> decide

theorem live_of_rank_le {a b : Announcement H P} (rank : a.state.rank ≤ b.state.rank)
    (live : b.state ≠ State.completed) : a.state ≠ State.completed := by
  intro completed
  rw [completed] at rank
  exact live (State.rank_eq_four.mp (le_antisymm (State.rank_le _) rank))

theorem unselected_iff {a : Announcement H P} :
    a.isSelected = false ↔ a.state ≠ State.candidateBest ∧ a.state ≠ State.requested := by
  rw [← Bool.not_eq_true, Announcement.isSelected_iff, not_or]

/-- A state `ChangeAndReselect` moves an announcement to: neither selected nor ready. -/
def Demoted (newState : State) : Prop := newState = State.completed ∨ newState = State.candidateDelayed

theorem Demoted.unselected {newState : State} (demoted : Demoted newState) (a : Announcement H P) :
    (a.setState newState).isSelected = false := by
  rcases demoted with rfl | rfl <;> rfl

theorem Demoted.not_ready {newState : State} (demoted : Demoted newState) (a : Announcement H P) :
    (a.setState newState).state ≠ State.candidateReady := by
  rcases demoted with rfl | rfl <;> simp

variable [LinearOrder H] [DecidableEq P] {impl : Impl H P} {it : Announcement H P}

/-! ### The announcements around one -/

theorem around (shape : Shape impl) (mem : it ∈ impl.index) {y : Announcement H P}
    (inY : y ∈ impl.index) (other : y ≠ it) (hash : y.txhash = it.txhash) :
    (∃ q, prev impl.index it = some q ∧ q.txhash = it.txhash ∧
        byTxHashView impl.computer y ≤ byTxHashView impl.computer q ∧
        byTxHashView impl.computer q ≤ byTxHashView impl.computer it) ∨
      ∃ n, next impl.index it = some n ∧ n.txhash = it.txhash ∧
        byTxHashView impl.computer it ≤ byTxHashView impl.computer n ∧
        byTxHashView impl.computer n ≤ byTxHashView impl.computer y := by
  rcases sandwich shape.sorted mem inY other with ⟨q, found, low, high⟩ | ⟨n, found, low, high⟩
  · exact .inl ⟨q, found, (txhash_eq_of_between low high hash).trans hash, low, high⟩
  · exact .inr ⟨n, found, txhash_eq_of_between low high hash.symm, low, high⟩

theorem ready_before_selected (consistent : Consistent impl) (mem : it ∈ impl.index)
    (selected : it.isSelected = true) {y : Announcement H P} (inY : y ∈ impl.index)
    (hash : y.txhash = it.txhash) (ready : y.state = State.candidateReady) :
    ∃ q, prev impl.index it = some q ∧ q.txhash = it.txhash ∧ q.state = State.candidateReady ∧
      priority impl.computer y ≤ priority impl.computer q := by
  have bounds := rank_of_selected selected
  have other : y ≠ it := by
    rintro rfl
    rw [(unselected_iff.mpr ⟨by rw [ready]; decide, by rw [ready]; decide⟩)] at selected
    cases selected
  rcases around consistent.toShape mem inY other hash with
    ⟨q, found, hashQ, low, high⟩ | ⟨n, _, hashN, low, high⟩
  · have inQ := mem_of_prev_of_mem mem found
    have rankLow := rank_le_of_le low (hash.trans hashQ.symm)
    have rankHigh := rank_le_of_le high hashQ
    -- `it` is the one selected announcement of the txhash, so `q` is not selected
    have unselectedQ : q.isSelected = false := by
      cases selectedQ : q.isSelected
      · rfl
      · exact absurd ((consistent.txhashInv it.txhash).oneSelected q inQ it mem hashQ rfl selectedQ
          selected) (prev_ne found)
    have readyQ : q.state = State.candidateReady := by
      obtain ⟨notBest, notRequested⟩ := unselected_iff.mp unselectedQ
      rw [ready] at rankLow
      cases state : q.state with
      | candidateReady => rfl
      | candidateDelayed => rw [state] at rankLow; exact absurd rankLow (by decide)
      | candidateBest => exact absurd state notBest
      | requested => exact absurd state notRequested
      | completed => rw [state] at rankHigh; exact absurd (rankHigh.trans bounds.2) (by decide)
    exact ⟨q, found, hashQ, readyQ, priority_le_of_le low (hash.trans hashQ.symm) ready readyQ⟩
  · have rankN := rank_le_of_le (le_trans low high) hash.symm
    rw [ready] at rankN
    exact absurd (bounds.1.trans rankN) (by decide)

/-! ### `ChangeAndReselect` -/

section Reselect

theorem changeAndReselect_cases (impl : Impl H P) (it : Announcement H P) (newState : State) :
    (∃ q, it.isSelected = true ∧ prev impl.index it = some q ∧ q.txhash = it.txhash ∧
        q.state = State.candidateReady ∧
        impl.changeAndReselect it newState =
          (impl.modify q (q.setState State.candidateBest)).modify it (it.setState newState)) ∨
      ((it.isSelected = true → ∀ q, prev impl.index it = some q → q.txhash = it.txhash →
          q.state ≠ State.candidateReady) ∧
        impl.changeAndReselect it newState = impl.modify it (it.setState newState)) := by
  unfold Impl.changeAndReselect
  cases selected : it.isSelected with
  | false => exact .inr ⟨fun same => (by cases same), rfl⟩
  | true =>
    cases found : prev impl.index it with
    | none => exact .inr ⟨fun _ q none => (by cases none), rfl⟩
    | some q =>
      by_cases chosen : q.txhash = it.txhash ∧ q.state = State.candidateReady
      · exact .inl ⟨q, rfl, rfl, chosen.1, chosen.2, by simp only [chosen, and_self, ite_true]⟩
      · refine .inr ⟨fun _ q' same hash ready => ?_, by simp only [chosen, ite_false]⟩
        cases same
        exact chosen ⟨hash, ready⟩

variable {index index' : List (Announcement H P)} {computer : H → P → Bool → UInt64} {txhash : H}

theorem TxHashInv.demote {old new : Announcement H P} (inv : TxHashInv index computer txhash)
    (members : ∀ a, a ∈ index' ↔ a = new ∨ a ∈ index ∧ a ≠ old)
    (unselectedNew : new.isSelected = false) (notReady : new.state ≠ State.candidateReady)
    (noReady : old.isSelected = true → ∀ a ∈ index, a.txhash = txhash → a.state ≠ State.candidateReady)
    (live : ∃ b ∈ index', b.txhash = txhash ∧ b.state ≠ State.completed) :
    TxHashInv index' computer txhash where
  notOnlyCompleted _ _ _ := live
  oneSelected a inA b inB hashA hashB selectedA selectedB := by
    rcases (members a).mp inA with rfl | ⟨inA, _⟩
    · rw [unselectedNew] at selectedA
      cases selectedA
    rcases (members b).mp inB with rfl | ⟨inB, _⟩
    · rw [unselectedNew] at selectedB
      cases selectedB
    exact inv.oneSelected a inA b inB hashA hashB selectedA selectedB
  readySelected a inA hashA ready := by
    rcases (members a).mp inA with rfl | ⟨inA, _⟩
    · exact absurd ready notReady
    obtain ⟨b, inB, hashB, selected⟩ := inv.readySelected a inA hashA ready
    -- the selected one stays unless it is the replaced one, which leaves no ready one
    by_cases replaced : b = old
    · subst replaced
      exact absurd ready (noReady selected a inA hashA)
    · exact ⟨b, (members b).mpr (.inr ⟨inB, replaced⟩), hashB, selected⟩
  bestFirst a inA b inB hashA hashB best ready := by
    rcases (members a).mp inA with rfl | ⟨inA, _⟩
    · exact absurd best (unselected_iff.mp unselectedNew).1
    rcases (members b).mp inB with rfl | ⟨inB, _⟩
    · exact absurd ready notReady
    exact inv.bestFirst a inA b inB hashA hashB best ready

variable {newState : State} (consistent : Consistent impl) (mem : it ∈ impl.index)
include consistent mem

theorem consistent_reselected (selected : it.isSelected = true) {q : Announcement H P}
    (found : prev impl.index it = some q) (hashQ : q.txhash = it.txhash) (demoted : Demoted newState) :
    Consistent ((impl.modify q (q.setState State.candidateBest)).modify it (it.setState newState)) := by
  have shape := consistent.toShape
  have inQ := mem_of_prev_of_mem mem found
  have notIt : q ≠ it := prev_ne found
  have promoted : Shape (impl.modify q (q.setState State.candidateBest)) := shape.modify inQ rfl
  have stillIt : it ∈ (impl.modify q (q.setState State.candidateBest)).index :=
    (mem_modify shape).mpr (.inr ⟨mem, notIt.symm⟩)
  have chosenNe : q.setState State.candidateBest ≠ it := fun same =>
    notIt (shape.unique q inQ it mem (by rw [← same]; rfl) (by rw [← same]; rfl))
  refine consistent.of_chosen (promoted.modify stillIt rfl) rfl
    (fun a hash => (mem_modify_of_ne promoted hash rfl).trans
      (mem_modify_of_ne shape (fun same => hash (same.trans hashQ)) rfl))
    (q.setState State.candidateBest)
    ((mem_modify promoted).mpr (.inr ⟨(mem_modify shape).mpr (.inl rfl), chosenNe⟩)) hashQ rfl ?_
  intro a inside hashA other
  rcases (mem_modify promoted).mp inside with rfl | ⟨inside, notIt'⟩
  · exact ⟨demoted.unselected it, fun _ ready => absurd ready (demoted.not_ready it)⟩
  rcases (mem_modify shape).mp inside with same | ⟨inside, notQ⟩
  · exact absurd same other
  -- every other announcement was below the selected `it`, the ready ones below `q`
  refine ⟨?_, fun _ ready => ?_⟩
  · cases selectedA : a.isSelected
    · rfl
    · exact absurd ((consistent.txhashInv it.txhash).oneSelected a inside it mem hashA rfl selectedA
        selected) notIt'
  · obtain ⟨q', found', _, _, lower⟩ := ready_before_selected consistent mem selected inside hashA ready
    rw [found] at found'
    cases found'
    exact lower

theorem Consistent.changeAndReselect (demoted : Demoted newState)
    (live : newState = State.completed →
      ∃ b ∈ impl.index, b ≠ it ∧ b.txhash = it.txhash ∧ b.state ≠ State.completed) :
    Consistent (impl.changeAndReselect it newState) := by
  have shape := consistent.toShape
  rcases changeAndReselect_cases impl it newState with
    ⟨q, selected, found, hashQ, _, result⟩ | ⟨alone, result⟩ <;> rw [result]
  · exact consistent_reselected consistent mem selected found hashQ demoted
  refine consistent.of_txhash (shape.modify mem rfl) rfl (fun a hash => mem_modify_of_ne shape hash rfl)
    ((consistent.txhashInv it.txhash).demote (fun a => mem_modify shape) (demoted.unselected it)
      (demoted.not_ready it) ?_ ?_)
  · -- a selected `it` with no ready announcement right before it has none at all
    intro selected a inside hash ready
    obtain ⟨q, found, hashQ, readyQ, _⟩ := ready_before_selected consistent mem selected inside hash ready
    exact alone selected q found hashQ readyQ
  · rcases demoted with completed | delayed
    · obtain ⟨b, inB, notIt, hashB, liveB⟩ := live completed
      exact ⟨b, (mem_modify shape).mpr (.inr ⟨inB, notIt⟩), hashB, liveB⟩
    · exact ⟨it.setState newState, (mem_modify shape).mpr (.inl rfl), rfl, by rw [delayed]; simp⟩

end Reselect

/-! ### Steps within one txhash -/

/-- `impl'` differs from `impl` only in announcements of `txhash`. -/
structure Within (impl impl' : Impl H P) (txhash : H) : Prop where
  computer : impl'.computer = impl.computer
  others : ∀ a, a.txhash ≠ txhash → (a ∈ impl'.index ↔ a ∈ impl.index)

omit [LinearOrder H] [DecidableEq P] in
theorem Within.refl (impl : Impl H P) (txhash : H) : Within impl impl txhash :=
  ⟨rfl, fun _ _ => Iff.rfl⟩

omit [LinearOrder H] [DecidableEq P] in
theorem Within.trans {impl' impl'' : Impl H P} {txhash : H} (first : Within impl impl' txhash)
    (second : Within impl' impl'' txhash) : Within impl impl'' txhash :=
  ⟨second.computer.trans first.computer, fun a hash => (second.others a hash).trans (first.others a hash)⟩

theorem within_modify (shape : Shape impl) {ann new : Announcement H P}
    (origin : new = { ann with state := new.state, time := new.time }) :
    Within impl (impl.modify ann new) ann.txhash :=
  ⟨rfl, fun _ hash => mem_modify_of_ne shape hash origin⟩

theorem within_erase (shape : Shape impl) (ann : Announcement H P) :
    Within impl (impl.erase ann) ann.txhash :=
  ⟨rfl, fun a hash => by
    rw [mem_erase shape]
    exact ⟨fun inside => inside.1, fun inside => ⟨inside, fun same => hash (same ▸ rfl)⟩⟩⟩

theorem Consistent.of_within {other : Impl H P} {txhash : H} (consistent : Consistent impl)
    (shape : Shape other) (within : Within impl other txhash)
    (inv : TxHashInv other.index other.computer txhash) : Consistent other :=
  consistent.of_txhash shape within.computer within.others inv

theorem within_changeAndReselect (shape : Shape impl) (mem : it ∈ impl.index) (newState : State) :
    Within impl (impl.changeAndReselect it newState) it.txhash := by
  rcases changeAndReselect_cases impl it newState with
    ⟨q, _, found, hashQ, _, result⟩ | ⟨_, result⟩ <;> rw [result]
  · have promoted : Within impl (impl.modify q (q.setState State.candidateBest)) q.txhash :=
      within_modify shape rfl
    rw [hashQ] at promoted
    exact promoted.trans (within_modify (shape.modify (mem_of_prev_of_mem mem found) rfl) rfl)
  · exact within_modify shape rfl

/-! ### Erasing a txhash's announcements -/

section Erase

theorem shape_foldl_erase (erased : List (Announcement H P)) {impl : Impl H P} (shape : Shape impl)
    (inside : ∀ a ∈ erased, a ∈ impl.index) (nodup : erased.Nodup) :
    Shape (erased.foldl Impl.erase impl) ∧ (erased.foldl Impl.erase impl).computer = impl.computer ∧
      ∀ x, x ∈ (erased.foldl Impl.erase impl).index ↔ x ∈ impl.index ∧ x ∉ erased := by
  induction erased generalizing impl with
  | nil => exact ⟨shape, rfl, fun x => by simp⟩
  | cons a rest ih =>
    rw [List.nodup_cons] at nodup
    have insideRest : ∀ b ∈ rest, b ∈ (impl.erase a).index := fun b mem =>
      (mem_erase shape).mpr ⟨inside b (List.mem_cons_of_mem a mem), fun same => nodup.1 (same ▸ mem)⟩
    obtain ⟨shape', computer, members⟩ :=
      ih (shape.erase (inside a List.mem_cons_self)) insideRest nodup.2
    refine ⟨shape', computer, fun x => ?_⟩
    rw [List.foldl_cons, members, mem_erase shape, List.mem_cons, not_or]
    tauto

theorem Consistent.erase_txhash (consistent : Consistent impl) {txhash : H}
    {erased : List (Announcement H P)} (inside : ∀ a ∈ erased, a ∈ impl.index) (nodup : erased.Nodup)
    (exact : ∀ a ∈ impl.index, a ∈ erased ↔ a.txhash = txhash) :
    Consistent (erased.foldl Impl.erase impl) ∧ Within impl (erased.foldl Impl.erase impl) txhash := by
  obtain ⟨shape, computer, members⟩ := shape_foldl_erase erased consistent.toShape inside nodup
  have within : Within impl (erased.foldl Impl.erase impl) txhash := by
    refine ⟨computer, fun a hash => ?_⟩
    rw [members a]
    exact ⟨fun both => both.1, fun mem => ⟨mem, fun erasedA => hash ((exact a mem).mp erasedA)⟩⟩
  -- nothing of the txhash is left
  have gone : ∀ a ∈ (erased.foldl Impl.erase impl).index, a.txhash ≠ txhash := fun a mem hash =>
    ((members a).mp mem).2 ((exact a ((members a).mp mem).1).mpr hash)
  exact ⟨consistent.of_within shape within (TxHashInv.of_unselected
    (fun a mem hash => absurd hash (gone a mem)) (fun a mem hash => absurd hash (gone a mem))), within⟩

omit [DecidableEq P] in
theorem mem_takeWhile_txhash {computer : H → P → Bool → UInt64} {h : H} :
    ∀ {l : List (Announcement H P)},
      l.Pairwise (fun a b => byTxHashView computer a ≤ byTxHashView computer b) →
      (∀ a ∈ l, h ≤ a.txhash) → ∀ {a}, a ∈ l → a.txhash = h → a ∈ l.takeWhile (·.txhash == h)
  | [], _, _, _, inside, _ => by cases inside
  | x :: rest, sorted, low, a, inside, hash => by
    rw [List.pairwise_cons] at sorted
    by_cases first : x.txhash = h
    · rw [List.takeWhile_cons_of_pos (p := fun y : Announcement H P => y.txhash == h) (beq_iff_eq.mpr first)]
      rcases List.mem_cons.mp inside with rfl | later
      · exact List.mem_cons_self
      · exact List.mem_cons_of_mem x
          (mem_takeWhile_txhash sorted.2 (fun b mem => low b (List.mem_cons_of_mem x mem)) later hash)
    · -- a larger txhash starts here, and everything after it is larger still
      have larger : h < x.txhash := lt_of_le_of_ne (low x List.mem_cons_self) (Ne.symm first)
      rcases List.mem_cons.mp inside with rfl | later
      · exact absurd hash first
      · exact absurd (hash ▸ txhash_le_of_le (sorted.1 a later)) (not_le.mpr larger)

theorem takeWhile_txhash_exact (shape : Shape impl) {l : List (Announcement H P)} {h : H}
    (sublist : l.Sublist impl.index) (low : ∀ a ∈ l, h ≤ a.txhash)
    (covers : ∀ a ∈ impl.index, a.txhash = h → a ∈ l) :
    (∀ a ∈ l.takeWhile (·.txhash == h), a ∈ impl.index) ∧ (l.takeWhile (·.txhash == h)).Nodup ∧
      ∀ a ∈ impl.index, a ∈ l.takeWhile (·.txhash == h) ↔ a.txhash = h := by
  have taken : (l.takeWhile (·.txhash == h)).Sublist impl.index := (List.takeWhile_sublist _).trans sublist
  refine ⟨fun a mem => taken.subset mem, shape.nodup.sublist taken, fun a mem => ⟨fun kept => ?_, ?_⟩⟩
  · have test : (a.txhash == h) = true :=
      List.mem_takeWhile_imp (p := fun y : Announcement H P => y.txhash == h) kept
    exact beq_iff_eq.mp test
  · intro hash
    exact mem_takeWhile_txhash (shape.sorted.sublist sublist) low (covers a mem hash) hash

end Erase

/-! ### `IsOnlyNonCompleted` and `MakeCompleted` -/

section Completed

theorem isOnlyNonCompleted_eq_true (index : List (Announcement H P)) (it : Announcement H P) :
    Impl.isOnlyNonCompleted index it = true ↔
      (∀ q, prev index it = some q → q.txhash ≠ it.txhash) ∧
      (∀ n, next index it = some n → n.txhash = it.txhash → n.state = State.completed) := by
  rw [Impl.isOnlyNonCompleted, Bool.and_eq_true, Bool.not_eq_true', Bool.not_eq_true']
  cases prev index it <;> cases next index it <;> simp

theorem live_of_not_only (shape : Shape impl) (mem : it ∈ impl.index) (live : it.state ≠ State.completed)
    (notOnly : Impl.isOnlyNonCompleted impl.index it = false) :
    ∃ b ∈ impl.index, b ≠ it ∧ b.txhash = it.txhash ∧ b.state ≠ State.completed := by
  have neither := (isOnlyNonCompleted_eq_true impl.index it).not.mp (by rw [notOnly]; decide)
  rw [not_and_or] at neither
  rcases neither with before | after
  · simp only [not_forall, not_not] at before
    obtain ⟨q, found, hash⟩ := before
    have rank := rank_le_of_le (prev_le shape.sorted mem found) hash
    exact ⟨q, mem_of_prev_of_mem mem found, prev_ne found, hash, live_of_rank_le rank live⟩
  · simp only [not_forall] at after
    obtain ⟨n, found, hash, liveN⟩ := after
    exact ⟨n, mem_of_next_of_mem mem found, next_ne shape.nodup mem found, hash, liveN⟩

theorem from_only (shape : Shape impl) (mem : it ∈ impl.index)
    (only : Impl.isOnlyNonCompleted impl.index it = true) :
    (∀ a ∈ impl.index.dropWhile (· != it), it.txhash ≤ a.txhash) ∧
      ∀ a ∈ impl.index, a.txhash = it.txhash → a ∈ impl.index.dropWhile (· != it) := by
  rw [dropWhile_of_mem mem]
  refine ⟨fun a inside => ?_, fun a inside hash => ?_⟩
  · rcases List.mem_cons.mp inside with rfl | later
    · exact le_rfl
    · exact txhash_le_of_le (le_of_mem_after shape.sorted mem later)
  · rw [split_of_mem mem] at inside
    rcases List.mem_append.mp inside with early | rest
    · obtain ⟨q, found, low, high⟩ := le_prev_of_mem_before shape.sorted mem early
      exact absurd ((txhash_eq_of_between low high hash).trans hash)
        ((isOnlyNonCompleted_eq_true impl.index it).mp only |>.1 q found)
    · exact rest

theorem makeCompleted_cases (impl : Impl H P) (it : Announcement H P) :
    (it.state = State.completed ∧ impl.makeCompleted it = (true, impl)) ∨
      (it.state ≠ State.completed ∧ Impl.isOnlyNonCompleted impl.index it = true ∧
        impl.makeCompleted it = (false,
          ((impl.index.dropWhile (· != it)).takeWhile (·.txhash == it.txhash)).foldl Impl.erase impl)) ∨
      (it.state ≠ State.completed ∧ Impl.isOnlyNonCompleted impl.index it = false ∧
        impl.makeCompleted it = (true, impl.changeAndReselect it State.completed)) := by
  unfold Impl.makeCompleted
  by_cases completed : it.state = State.completed
  · exact .inl ⟨completed, if_pos completed⟩
  · rw [if_neg completed]
    cases only : Impl.isOnlyNonCompleted impl.index it
    · exact .inr (.inr ⟨completed, rfl, if_neg (by decide)⟩)
    · exact .inr (.inl ⟨completed, rfl, if_pos rfl⟩)

variable (consistent : Consistent impl) (mem : it ∈ impl.index)
include consistent mem

theorem Consistent.makeCompleted :
    Consistent (impl.makeCompleted it).2 ∧ Within impl (impl.makeCompleted it).2 it.txhash ∧
      ((impl.makeCompleted it).1 = true → it.setState State.completed ∈ (impl.makeCompleted it).2.index) := by
  have shape := consistent.toShape
  rcases makeCompleted_cases impl it with ⟨completed, result⟩ | ⟨live, only, result⟩ |
    ⟨live, notOnly, result⟩ <;> rw [result]
  · -- already completed: nothing changes
    refine ⟨consistent, Within.refl impl it.txhash, fun _ => ?_⟩
    have same : it.setState State.completed = it := by
      rw [← completed]
      rfl
    rw [same]
    exact mem
  · obtain ⟨low, covers⟩ := from_only shape mem only
    obtain ⟨inside, nodup, exact⟩ :=
      takeWhile_txhash_exact shape (List.dropWhile_sublist _) low covers
    obtain ⟨erased, within⟩ := consistent.erase_txhash inside nodup exact
    exact ⟨erased, within, fun kept => by cases kept⟩
  · refine ⟨consistent.changeAndReselect mem (.inl rfl) fun _ => live_of_not_only shape mem live notOnly,
      within_changeAndReselect shape mem State.completed, fun _ => ?_⟩
    rcases changeAndReselect_cases impl it State.completed with
      ⟨q, _, found, _, _, reselected⟩ | ⟨_, reselected⟩ <;> rw [reselected]
    · exact (mem_modify (shape.modify (mem_of_prev_of_mem mem found) rfl)).mpr (.inl rfl)
    · exact (mem_modify shape).mpr (.inl rfl)

theorem Consistent.erase_completed (completed : it.state = State.completed) :
    Consistent (impl.erase it) ∧ Within impl (impl.erase it) it.txhash := by
  have shape := consistent.toShape
  have inv := consistent.txhashInv it.txhash
  have within := within_erase shape it
  have members : ∀ a, a ∈ (impl.erase it).index ↔ a ∈ impl.index ∧ a ≠ it := fun a => mem_erase shape
  obtain ⟨b, inB, hashB, liveB⟩ := inv.notOnlyCompleted it mem rfl
  have kept : b ∈ (impl.erase it).index :=
    (members b).mpr ⟨inB, fun same => liveB (same ▸ completed)⟩
  refine ⟨consistent.of_within (shape.erase mem) within ⟨fun _ _ _ => ⟨b, kept, hashB, liveB⟩,
    fun a inA c inC => inv.oneSelected a ((members a).mp inA).1 c ((members c).mp inC).1, ?_,
    fun a inA c inC => inv.bestFirst a ((members a).mp inA).1 c ((members c).mp inC).1⟩, within⟩
  intro a inA hashA ready
  obtain ⟨c, inC, hashC, selected⟩ := inv.readySelected a ((members a).mp inA).1 hashA ready
  -- the selected one is not the completed `it`
  have notIt : c ≠ it := by
    rintro rfl
    rw [Announcement.isSelected, completed] at selected
    cases selected
  exact ⟨c, (members c).mpr ⟨inC, notIt⟩, hashC, selected⟩

end Completed

end Freycoin.TxRequest
