import Freycoin.Net.TxRequestIndex

/-! The helpers that move announcements between states: `PromoteCandidateReady`,
`ChangeAndReselect`, `IsOnlyNonCompleted` and `MakeCompleted`. -/

namespace Freycoin.TxRequest

open SortedNeighbors

variable {H P : Type} [LinearOrder H] [DecidableEq P] {impl : Impl H P} {it : Announcement H P}

/-! ### `PromoteCandidateReady` -/

section Promote

theorem promoteCandidateReady_cases (impl : Impl H P) (it : Announcement H P) :
    (impl.promoteCandidateReady it =
        (impl.modify it (it.setState State.candidateReady)).modify
          (it.setState State.candidateReady) (it.setState State.candidateBest) ∧
      ∀ n, next (impl.modify it (it.setState State.candidateReady)).index
          (it.setState State.candidateReady) = some n →
        n.txhash ≠ it.txhash ∨ n.state = State.completed) ∨
    (∃ n, next (impl.modify it (it.setState State.candidateReady)).index
          (it.setState State.candidateReady) = some n ∧
        n.txhash = it.txhash ∧ n.state = State.candidateBest ∧
        priority impl.computer n < priority impl.computer it ∧
        impl.promoteCandidateReady it =
          ((impl.modify it (it.setState State.candidateReady)).modify n
            (n.setState State.candidateReady)).modify
            (it.setState State.candidateReady) (it.setState State.candidateBest)) ∨
    (∃ n, next (impl.modify it (it.setState State.candidateReady)).index
          (it.setState State.candidateReady) = some n ∧
        n.txhash = it.txhash ∧ n.state ≠ State.completed ∧
        (n.state = State.candidateBest → ¬priority impl.computer n < priority impl.computer it) ∧
        impl.promoteCandidateReady it = impl.modify it (it.setState State.candidateReady)) := by
  rcases found : next (impl.modify it (it.setState State.candidateReady)).index
    (it.setState State.candidateReady) with _ | n
  · refine .inl ⟨?_, fun n none => by cases none⟩
    simp only [Impl.promoteCandidateReady, found]
    rfl
  · by_cases first : n.txhash ≠ it.txhash ∨ n.state = State.completed
    · refine .inl ⟨?_, fun n' same => by cases same; exact first⟩
      simp only [Impl.promoteCandidateReady, found]
      simp [first]
    · rw [not_or, not_not] at first
      by_cases best : n.state = State.candidateBest
      · by_cases better : priority impl.computer n < priority impl.computer it
        · refine .inr (.inl ⟨n, rfl, first.1, best, better, ?_⟩)
          simp only [Impl.promoteCandidateReady, found]
          simp [first, best, better]
        · refine .inr (.inr ⟨n, rfl, first.1, first.2, fun _ => better, ?_⟩)
          simp only [Impl.promoteCandidateReady, found]
          simp [first, best, better]
      · refine .inr (.inr ⟨n, rfl, first.1, first.2, fun same => absurd same best, ?_⟩)
        simp only [Impl.promoteCandidateReady, found]
        simp [first, best]

omit [LinearOrder H] [DecidableEq P] in
theorem unselected_of_rank {y : Announcement H P} (rank : y.state.rank ≤ 1) :
    y.isSelected = false := by
  rw [Announcement.isSelected]
  cases state : y.state <;> simp_all [State.rank]

variable (consistent : Consistent impl) (mem : it ∈ impl.index)
include consistent mem

theorem promoted_around {y : Announcement H P} (inY : y ∈ impl.index) (other : y ≠ it)
    (hash : y.txhash = it.txhash) :
    (y.state.rank ≤ 1 ∧
        (y.state = State.candidateReady → priority impl.computer y ≤ priority impl.computer it)) ∨
      ∃ n, next (impl.modify it (it.setState State.candidateReady)).index
          (it.setState State.candidateReady) = some n ∧
        n.txhash = it.txhash ∧ byTxHashView impl.computer n ≤ byTxHashView impl.computer y := by
  have shape := consistent.toShape
  have readied : Shape (impl.modify it (it.setState State.candidateReady)) := shape.modify mem rfl
  have present : it.setState State.candidateReady ∈
      (impl.modify it (it.setState State.candidateReady)).index :=
    (mem_modify shape).mpr (.inl rfl)
  have kept : y ∈ (impl.modify it (it.setState State.candidateReady)).index :=
    (mem_modify shape).mpr (.inr ⟨inY, other⟩)
  have peers : y.peer ≠ it.peer := fun same => other (shape.unique y inY it mem hash same)
  have differs : y ≠ it.setState State.candidateReady := fun same => peers (by rw [same]; rfl)
  rcases sandwich readied.sorted present kept differs with ⟨q, _, low, high⟩ | ⟨n, found, low, high⟩
  · -- before the new ready announcement: at most ready, and then of lower priority
    have order := le_trans low high
    refine .inl ⟨rank_le_of_le order hash, fun ready => ?_⟩
    have lower := priority_le_of_le order hash ready rfl
    rw [Impl.modify_computer, priority_setState] at lower
    exact lower
  · have same := txhash_eq_of_between low high
      (show (it.setState State.candidateReady).txhash = y.txhash from hash.symm)
    exact .inr ⟨n, found, same, high⟩

theorem promoted_next {n : Announcement H P}
    (found : next (impl.modify it (it.setState State.candidateReady)).index
      (it.setState State.candidateReady) = some n) :
    n ∈ impl.index ∧ n ≠ it ∧
      byTxHashView impl.computer (it.setState State.candidateReady) ≤ byTxHashView impl.computer n := by
  have shape := consistent.toShape
  have readied : Shape (impl.modify it (it.setState State.candidateReady)) := shape.modify mem rfl
  have present : it.setState State.candidateReady ∈
      (impl.modify it (it.setState State.candidateReady)).index :=
    (mem_modify shape).mpr (.inl rfl)
  have differs := next_ne readied.nodup present found
  rcases (mem_modify shape).mp (mem_of_next_of_mem present found) with same | ⟨inside, other⟩
  · exact absurd same differs
  · exact ⟨inside, other, le_next readied.sorted present found⟩

theorem consistent_promoted_best
    (alone : ∀ n, next (impl.modify it (it.setState State.candidateReady)).index
      (it.setState State.candidateReady) = some n → n.txhash ≠ it.txhash ∨ n.state = State.completed) :
    Consistent ((impl.modify it (it.setState State.candidateReady)).modify
      (it.setState State.candidateReady) (it.setState State.candidateBest)) := by
  have shape := consistent.toShape
  have readied : Shape (impl.modify it (it.setState State.candidateReady)) := shape.modify mem rfl
  have present : it.setState State.candidateReady ∈
      (impl.modify it (it.setState State.candidateReady)).index :=
    (mem_modify shape).mpr (.inl rfl)
  -- the others of its txhash are delayed, ready and no better, or completed
  have below : ∀ y ∈ impl.index, y ≠ it → y.txhash = it.txhash → y.isSelected = false ∧
      (y.state = State.candidateReady → priority impl.computer y ≤ priority impl.computer it) := by
    intro y inY other hash
    rcases promoted_around consistent mem inY other hash with ⟨rank, lower⟩ | ⟨n, found, same, order⟩
    · exact ⟨unselected_of_rank rank, lower⟩
    · have completed := (alone n found).resolve_left (not_not.mpr same)
      have rank := rank_le_of_le order (same.trans hash.symm)
      rw [completed] at rank
      have final : y.state = State.completed := by
        cases state : y.state <;> simp_all [State.rank]
      refine ⟨?_, fun ready => absurd (final.symm.trans ready) (by decide)⟩
      rw [Announcement.isSelected, final]
      rfl
  refine consistent.of_chosen (readied.modify present rfl) rfl
    (fun a hash => (mem_modify_of_ne readied hash rfl).trans (mem_modify_of_ne shape hash rfl))
    (it.setState State.candidateBest) ((mem_modify readied).mpr (.inl rfl)) rfl rfl ?_
  intro a inside hash other
  rcases (mem_modify readied).mp inside with same | ⟨inside, notReady⟩
  · exact absurd same other
  rcases (mem_modify shape).mp inside with same | ⟨inside, notIt⟩
  · exact absurd same notReady
  obtain ⟨unselected, lower⟩ := below a inside notIt hash
  exact ⟨unselected, fun _ ready => lower ready⟩

theorem consistent_promoted_swap {n : Announcement H P}
    (found : next (impl.modify it (it.setState State.candidateReady)).index
      (it.setState State.candidateReady) = some n)
    (hashN : n.txhash = it.txhash) (best : n.state = State.candidateBest)
    (better : priority impl.computer n < priority impl.computer it) :
    Consistent (((impl.modify it (it.setState State.candidateReady)).modify n
      (n.setState State.candidateReady)).modify
      (it.setState State.candidateReady) (it.setState State.candidateBest)) := by
  have shape := consistent.toShape
  have readied : Shape (impl.modify it (it.setState State.candidateReady)) := shape.modify mem rfl
  have present : it.setState State.candidateReady ∈
      (impl.modify it (it.setState State.candidateReady)).index :=
    (mem_modify shape).mpr (.inl rfl)
  obtain ⟨inN, notIt, _⟩ := promoted_next consistent mem found
  have presentN : n ∈ (impl.modify it (it.setState State.candidateReady)).index :=
    (mem_modify shape).mpr (.inr ⟨inN, notIt⟩)
  have swapped : Shape ((impl.modify it (it.setState State.candidateReady)).modify n
      (n.setState State.candidateReady)) := readied.modify presentN rfl
  have stillReady : it.setState State.candidateReady ∈ ((impl.modify it
      (it.setState State.candidateReady)).modify n (n.setState State.candidateReady)).index :=
    (mem_modify readied).mpr (.inr ⟨present, fun same => by subst same; simp at best⟩)
  have selectedN : n.isSelected = true := (Announcement.isSelected_iff n).mpr (.inl best)
  -- beyond the best candidate only completed announcements are left
  have below : ∀ y ∈ impl.index, y ≠ it → y ≠ n → y.txhash = it.txhash →
      y.isSelected = false ∧
        (y.state = State.candidateReady → priority impl.computer y ≤ priority impl.computer it) := by
    intro y inY other notN hashY
    rcases promoted_around consistent mem inY other hashY with ⟨rank, lower⟩ | ⟨n', found', _, order⟩
    · exact ⟨unselected_of_rank rank, lower⟩
    · rw [found] at found'
      cases found'
      have rank := rank_le_of_le order (hashN.trans hashY.symm)
      have unselected : y.isSelected = false := by
        cases selected : y.isSelected
        · rfl
        · exact absurd ((consistent.txhashInv it.txhash).oneSelected y inY n inN hashY hashN
            selected selectedN) notN
      refine ⟨unselected, fun ready => ?_⟩
      rw [best, ready] at rank
      exact absurd rank (by decide)
  refine consistent.of_chosen (swapped.modify stillReady rfl) rfl
    (fun a hash => (mem_modify_of_ne swapped hash rfl).trans
      ((mem_modify_of_ne readied (fun same => hash (same.trans hashN)) rfl).trans
        (mem_modify_of_ne shape hash rfl)))
    (it.setState State.candidateBest) ((mem_modify swapped).mpr (.inl rfl)) rfl rfl ?_
  intro a inside hashA other
  rcases (mem_modify swapped).mp inside with same | ⟨inside, notReady⟩
  · exact absurd same other
  rcases (mem_modify readied).mp inside with rfl | ⟨inside, notN⟩
  · exact ⟨by rw [Announcement.isSelected]; rfl, fun _ _ => UInt64.le_of_lt better⟩
  rcases (mem_modify shape).mp inside with same | ⟨inside, notIt⟩
  · exact absurd same notReady
  obtain ⟨unselected, lower⟩ := below a inside notIt notN hashA
  exact ⟨unselected, fun _ ready => lower ready⟩

theorem promoted_selected (delayed : it.state = State.candidateDelayed) {n : Announcement H P}
    (found : next (impl.modify it (it.setState State.candidateReady)).index
      (it.setState State.candidateReady) = some n)
    (hashN : n.txhash = it.txhash) (live : n.state ≠ State.completed)
    (worse : n.state = State.candidateBest → ¬priority impl.computer n < priority impl.computer it) :
    ∃ s ∈ impl.index, s ≠ it ∧ s.txhash = it.txhash ∧ s.isSelected = true ∧
      (s.state = State.candidateBest → priority impl.computer it ≤ priority impl.computer s) := by
  obtain ⟨inN, notIt, order⟩ := promoted_next consistent mem found
  have rank := rank_le_of_le order (show (it.setState State.candidateReady).txhash = n.txhash from
    hashN.symm)
  have unselectedIt : it.isSelected = false := by
    rw [Announcement.isSelected, delayed]
    rfl
  cases state : n.state with
  | candidateDelayed =>
    rw [state] at rank
    simp [State.rank] at rank
  | candidateReady =>
    -- a ready announcement has a selected one, which is at least as good
    obtain ⟨s, inS, hashS, selected⟩ :=
      (consistent.txhashInv it.txhash).readySelected n inN hashN state
    refine ⟨s, inS, (fun same : s = it => by rw [same, unselectedIt] at selected; cases selected),
      hashS, selected, fun best => ?_⟩
    have lower := priority_le_of_le order
      (show (it.setState State.candidateReady).txhash = n.txhash from hashN.symm) rfl state
    rw [priority_setState] at lower
    exact UInt64.le_trans lower
      ((consistent.txhashInv it.txhash).bestFirst s inS n inN hashS hashN best state)
  | candidateBest =>
    exact ⟨n, inN, notIt, hashN, (Announcement.isSelected_iff n).mpr (.inl state),
      fun _ => UInt64.not_lt.mp (worse state)⟩
  | requested =>
    exact ⟨n, inN, notIt, hashN, (Announcement.isSelected_iff n).mpr (.inr state),
      fun best => absurd (state.symm.trans best) (by decide)⟩
  | completed => exact absurd state live

theorem consistent_promoted_ready (delayed : it.state = State.candidateDelayed)
    {n : Announcement H P}
    (found : next (impl.modify it (it.setState State.candidateReady)).index
      (it.setState State.candidateReady) = some n)
    (hashN : n.txhash = it.txhash) (live : n.state ≠ State.completed)
    (worse : n.state = State.candidateBest → ¬priority impl.computer n < priority impl.computer it) :
    Consistent (impl.modify it (it.setState State.candidateReady)) := by
  have shape := consistent.toShape
  obtain ⟨s, inS, notIt, hashS, selected, dominates⟩ :=
    promoted_selected consistent mem delayed found hashN live worse
  refine consistent.of_chosen (shape.modify mem rfl) rfl (fun a hash => mem_modify_of_ne shape hash rfl)
    s ((mem_modify shape).mpr (.inr ⟨inS, notIt⟩)) hashS selected ?_
  intro a inside hashA other
  rcases (mem_modify shape).mp inside with rfl | ⟨inside, _⟩
  · exact ⟨by rw [Announcement.isSelected]; rfl, fun best _ => dominates best⟩
  · refine ⟨?_, fun best ready =>
      (consistent.txhashInv it.txhash).bestFirst s inS a inside hashS hashA best ready⟩
    cases selectedA : a.isSelected
    · rfl
    · exact absurd ((consistent.txhashInv it.txhash).oneSelected a inside s inS hashA hashS
        selectedA selected) other

theorem Consistent.promoteCandidateReady (delayed : it.state = State.candidateDelayed) :
    Consistent (impl.promoteCandidateReady it) := by
  rcases promoteCandidateReady_cases impl it with ⟨result, alone⟩ |
    ⟨n, found, hashN, best, better, result⟩ | ⟨n, found, hashN, live, worse, result⟩ <;>
    rw [result]
  · exact consistent_promoted_best consistent mem alone
  · exact consistent_promoted_swap consistent mem found hashN best better
  · exact consistent_promoted_ready consistent mem delayed found hashN live worse

theorem countP_promoteCandidateReady (test : Announcement H P → Bool)
    (selectable : ∀ a, a.isSelectable = true → test a = false) :
    (impl.promoteCandidateReady it).index.countP test + (if test it then 1 else 0) =
      impl.index.countP test := by
  have shape := consistent.toShape
  have readied : Shape (impl.modify it (it.setState State.candidateReady)) := shape.modify mem rfl
  have present : it.setState State.candidateReady ∈
      (impl.modify it (it.setState State.candidateReady)).index :=
    (mem_modify shape).mpr (.inl rfl)
  have ready := selectable (it.setState State.candidateReady) rfl
  have best := selectable (it.setState State.candidateBest) rfl
  have counted : (if test it then 1 else 0) ≤ impl.index.countP test := by
    split
    · exact List.countP_pos_iff.mpr ⟨it, mem, ‹_›⟩
    · exact Nat.zero_le _
  have first : (impl.modify it (it.setState State.candidateReady)).index.countP test +
      (if test it then 1 else 0) = impl.index.countP test := by
    rw [countP_modify mem test, ready]
    simp only [Bool.false_eq_true, ↓reduceIte]
    omega
  -- a change between candidates ready or best leaves the count
  have swap : ∀ (other : Impl H P) (a b : Announcement H P), a ∈ other.index →
      test a = false → test b = false → (other.modify a b).index.countP test = other.index.countP test := by
    intro other a b inside before after
    rw [countP_modify inside test]
    simp [before, after]
  rcases promoteCandidateReady_cases impl it with ⟨result, _⟩ |
    ⟨n, found, _, bestN, _, result⟩ | ⟨n, _, _, _, _, result⟩ <;> rw [result]
  · rw [swap _ _ _ present ready best, first]
  · obtain ⟨inN, notIt, _⟩ := promoted_next consistent mem found
    have presentN : n ∈ (impl.modify it (it.setState State.candidateReady)).index :=
      (mem_modify shape).mpr (.inr ⟨inN, notIt⟩)
    have stillReady : it.setState State.candidateReady ∈ ((impl.modify it
        (it.setState State.candidateReady)).modify n (n.setState State.candidateReady)).index :=
      (mem_modify readied).mpr (.inr ⟨present, fun same => by subst same; simp at bestN⟩)
    rw [swap _ _ _ stillReady ready best,
      swap _ _ _ presentN (selectable n (by simp [Announcement.isSelectable, bestN]))
        (selectable _ rfl), first]
  · exact first

end Promote

end Freycoin.TxRequest
