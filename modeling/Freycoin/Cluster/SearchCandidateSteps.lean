import Freycoin.Cluster.SearchCandidateSpec

/-! The steps of the work loop of `FindCandidateSet` keep its invariant. -/

namespace Freycoin.Cluster

open RelationOn ClosedSets Util SearchCandidateFinder

/-- The invariant of the work loop. -/
structure SearchState.Valid (g : DepGraph) (todo : Finset ℕ) (s : SearchState) : Prop where
  items : ∃ items, s.queue.Represents items ∧ ∀ w ∈ items, w.Valid g todo
  capacity : todo.card ≤ s.queue.capacity
  best : Candidate g todo s.best
  nonempty : s.best.transactions.Nonempty

variable {P : Type} (arith : FeeFrac.Arith P) [DecidableEq P]

/-- `best` moves only to non-empty candidates that compare greater under `arith`. -/
def Improves (g : DepGraph) (todo : Finset ℕ) : SetInfo → SetInfo → Prop :=
  Relation.ReflTransGen fun b b' =>
    Candidate g todo b' ∧ b'.transactions.Nonempty ∧ FeeFrac.threeWayCompare arith b'.feerate b.feerate = .gt

section Queue

variable {g : DepGraph} {todo : Finset ℕ} {s : SearchState}

theorem SearchState.Valid.of_eq (valid : s.Valid g todo) {s' : SearchState} (queue : s'.queue = s.queue)
    (best : s'.best = s.best) : s'.Valid g todo := by
  obtain ⟨items, capacity, candidate, nonempty⟩ := valid
  rw [← queue] at items capacity
  rw [← best] at candidate nonempty
  exact ⟨items, capacity, candidate, nonempty⟩

theorem SearchState.Valid.emplaceBack (valid : s.Valid g todo) {w : WorkItem} (item : w.Valid g todo) :
    ({ s with queue := s.queue.emplaceBack workItemTraits w } : SearchState).Valid g todo := by
  obtain ⟨items, represents, allValid⟩ := valid.items
  refine ⟨⟨items ++ [w], VecDeque.represents_emplaceBack workItemTraits represents w, ?_⟩,
    valid.capacity.trans (capacity_le_emplaceBack _ _ _), valid.best, valid.nonempty⟩
  intro v listed
  rcases List.mem_append.mp listed with old | new
  · exact allValid v old
  · rw [List.mem_singleton.mp new]
    exact item

theorem le_size_emplaceBack {α : Type} (traits : Traits) (d : VecDeque α) (value : α) :
    d.size ≤ (d.emplaceBack traits value).size := by
  rw [VecDeque.emplaceBack]
  split_ifs
  · exact Nat.le_succ _
  · exact Nat.le_succ _

theorem ne_nil_of_size_pos {α : Type} {d : VecDeque α} {l : List α} (represents : d.Represents l)
    (nonempty : 0 < d.size) : l ≠ [] := by
  intro empty
  rw [represents.size_eq, empty] at nonempty
  exact absurd nonempty (lt_irrefl 0)

theorem SearchState.Valid.popFront (valid : s.Valid g todo) (nonempty : 0 < s.queue.size) :
    ({ s with queue := s.queue.popFront } : SearchState).Valid g todo ∧
      (s.queue.front.getD default).Valid g todo := by
  obtain ⟨items, represents, allValid⟩ := valid.items
  have listed := ne_nil_of_size_pos represents nonempty
  refine ⟨⟨⟨items.tail, VecDeque.represents_popFront represents listed,
    fun w member => allValid w (List.tail_subset items member)⟩, valid.capacity, valid.best, valid.nonempty⟩, ?_⟩
  rw [represents.front_eq listed, Option.getD_some]
  exact allValid _ (List.head_mem listed)

theorem SearchState.Valid.popBack (valid : s.Valid g todo) (nonempty : 0 < s.queue.size) :
    ({ s with queue := s.queue.popBack } : SearchState).Valid g todo ∧
      (s.queue.back.getD default).Valid g todo ∧ s.queue.popBack.size = s.queue.size - 1 := by
  obtain ⟨items, represents, allValid⟩ := valid.items
  have listed := ne_nil_of_size_pos represents nonempty
  refine ⟨⟨⟨items.dropLast, VecDeque.represents_popBack represents listed,
    fun w member => allValid w (List.dropLast_subset items member)⟩, valid.capacity, valid.best, valid.nonempty⟩,
    ?_, rfl⟩
  rw [represents.back_eq listed, Option.getD_some]
  exact allValid _ (List.getLast_mem listed)

theorem SearchState.Valid.shuffleFront (valid : s.Valid g todo) :
    (shuffleFront s).Valid g todo ∧ (shuffleFront s).queue.size = s.queue.size ∧ (shuffleFront s).best = s.best := by
  rw [SearchCandidateFinder.shuffleFront]
  split_ifs with several
  · dsimp only
    split_ifs with drawn
    · obtain ⟨items, represents, allValid⟩ := valid.items
      have two : 1 < items.length := represents.size_eq ▸ several
      have first := represents.get_eq (Nat.zero_lt_of_lt two)
      have second := represents.get_eq two
      have swapped := (represents.set (Nat.zero_lt_of_lt two) items[1]).set
        (by rw [List.length_set]; exact two) items[0]
      refine ⟨⟨⟨(items.set 0 items[1]).set 1 items[0], ?_, ?_⟩, valid.capacity, valid.best, valid.nonempty⟩, rfl, rfl⟩
      · rw [swapFront, first, second]
        exact swapped
      · -- the swap writes the two first items of the queue back into it
        intro w member
        rcases List.mem_or_eq_of_mem_set member with inner | rfl
        · rcases List.mem_or_eq_of_mem_set inner with old | rfl
          · exact allValid w old
          · exact allValid _ (List.getElem_mem two)
        · exact allValid _ (List.getElem_mem (Nat.zero_lt_of_lt two))
    · exact ⟨valid.of_eq rfl rfl, rfl, rfl⟩
  · exact ⟨valid, rfl, rfl⟩

end Queue

section Pot

variable (g : DepGraph)

omit [DecidableEq P] in
theorem growPot_spec (l : List ℕ) (nodup : l.Nodup) : ∀ pot : SetInfo, (∀ x ∈ l, x ∉ pot.transactions) →
    pot.transactions ⊆ (growPot arith g pot l).transactions ∧
      (growPot arith g pot l).transactions ⊆ pot.transactions ∪ l.toFinset ∧
      (growPot arith g pot l).feerate =
        pot.feerate + g.feeRateOfSet ((growPot arith g pot l).transactions \ pot.transactions) := by
  induction l with
  | nil =>
      intro pot _
      rw [growPot, Finset.sdiff_self, DepGraph.feeRateOfSet_empty, add_zero]
      exact ⟨le_rfl, Finset.subset_union_left, rfl⟩
  | cons pos rest ih =>
      intro pot fresh
      obtain ⟨notRest, restNodup⟩ := List.nodup_cons.mp nodup
      have posFresh : pos ∉ pot.transactions := fresh pos List.mem_cons_self
      rw [growPot]
      split_ifs with higher
      · have restFresh : ∀ x ∈ rest, x ∉ (pot.set g pos).transactions := by
          intro x listed
          rw [SetInfo.set, Finset.mem_insert, not_or]
          exact ⟨fun same => notRest (same ▸ listed), fresh x (List.mem_cons_of_mem pos listed)⟩
        obtain ⟨holds, within, feerate⟩ := ih restNodup (pot.set g pos) restFresh
        set grown := growPot arith g (pot.set g pos) rest
        have posIn : pos ∈ grown.transactions := holds (Finset.mem_insert_self pos _)
        -- what is new over `pot` is `pos` and what is new over `pot` with `pos`
        have split : grown.transactions \ pot.transactions =
            insert pos (grown.transactions \ (pot.set g pos).transactions) := by
          ext x
          simp only [SetInfo.set, Finset.mem_sdiff, Finset.mem_insert]
          constructor
          · rintro ⟨member, notOld⟩
            by_cases same : x = pos
            · exact Or.inl same
            · exact Or.inr ⟨member, fun inside => inside.elim same notOld⟩
          · rintro (rfl | ⟨member, notNew⟩)
            · exact ⟨posIn, posFresh⟩
            · exact ⟨member, fun old => notNew (Or.inr old)⟩
        refine ⟨(Finset.subset_insert pos _).trans holds, ?_, ?_⟩
        · intro x member
          rcases Finset.mem_union.mp (within member) with old | later
          · rw [SetInfo.set, Finset.mem_insert] at old
            rcases old with rfl | old
            · exact Finset.mem_union_right _ (List.mem_toFinset.mpr List.mem_cons_self)
            · exact Finset.mem_union_left _ old
          · exact Finset.mem_union_right _
              (List.mem_toFinset.mpr (List.mem_cons_of_mem pos (List.mem_toFinset.mp later)))
        · have notNew : pos ∉ grown.transactions \ (pot.set g pos).transactions := fun member =>
            (Finset.mem_sdiff.mp member).2 (Finset.mem_insert_self pos _)
          rw [feerate, split, g.feeRateOfSet_insert notNew, SetInfo.set]
          dsimp only
          abel
      · rw [Finset.sdiff_self, DepGraph.feeRateOfSet_empty, add_zero]
        exact ⟨le_rfl, Finset.subset_union_left, rfl⟩

end Pot

section JumpAhead

variable {g : DepGraph} {U : Finset ℕ} {fee : ℕ → FeeFrac} {R : ℕ → ℕ → Prop}
variable (rep : Represents g U fee R) (order : PreorderOn U R) {todo : Finset ℕ} (pot : Finset ℕ)
include rep order

theorem foldl_jumpAhead_spec (l : List ℕ) (listed : ∀ x ∈ l, x ∈ U) : ∀ inc : Finset ℕ, inc ⊆ pot →
    ClosedUnder g.ancestors todo inc →
    inc ⊆ l.foldl (jumpAhead g todo pot) inc ∧ l.foldl (jumpAhead g todo pot) inc ⊆ pot ∧
      ClosedUnder g.ancestors todo (l.foldl (jumpAhead g todo pot) inc) := by
  induction l with
  | nil => intro inc within closed; exact ⟨le_rfl, within, closed⟩
  | cons pos rest ih =>
      intro inc within closed
      have restListed : ∀ x ∈ rest, x ∈ U := fun x member => listed x (List.mem_cons_of_mem pos member)
      have step : inc ⊆ jumpAhead g todo pot inc pos ∧ jumpAhead g todo pot inc pos ⊆ pot ∧
          ClosedUnder g.ancestors todo (jumpAhead g todo pot inc pos) := by
        rw [jumpAhead]
        split_ifs with inPot
        · exact ⟨Finset.subset_union_left, Finset.union_subset within inPot,
            closed.union (closed_ancestors rep order (listed pos List.mem_cons_self))⟩
        · exact ⟨le_rfl, within, closed⟩
      obtain ⟨grows, stays, closed'⟩ := ih restListed _ step.2.1 step.2.2
      exact ⟨step.1.trans grows, stays, closed'⟩

end JumpAhead

section Add

variable {g : DepGraph} {U : Finset ℕ} {fee : ℕ → FeeFrac} {R : ℕ → ℕ → Prop}
variable (rep : Represents g U fee R) (order : PreorderOn U R) {todo : Finset ℕ} (inside : todo ⊆ U)
include rep order inside

theorem SearchState.Valid.addItem {s : SearchState} (valid : s.Valid g todo) {inc : SetInfo}
    {und : Finset ℕ} (candidate : Candidate g todo inc) (undInside : und ⊆ todo)
    (disjoint : Disjoint inc.transactions und) (closed : ClosedUnder g.ancestors todo (inc.transactions ∪ und)) :
    (addItem arith g todo s inc und).Valid g todo ∧ Improves arith g todo s.best (addItem arith g todo s inc und).best ∧
      s.queue.size ≤ (addItem arith g todo s inc und).queue.size := by
  by_cases sized : inc.feerate.size ≠ 0
  · rw [SearchCandidateFinder.addItem, if_pos sized]
    dsimp only
    set pot := growPot arith g inc (members (s.imp ∩ und)) with pot_def
    -- `pot` is `inc` with some undecided transactions
    obtain ⟨potHolds, potWithin, potFeerate⟩ := growPot_spec arith g (members (s.imp ∩ und)) (nodup_members _)
      inc fun x listed => Finset.disjoint_right.mp disjoint (Finset.mem_inter.mp (mem_members.mp listed)).2
    have potUnd : pot.transactions ⊆ inc.transactions ∪ und := by
      intro x member
      rcases Finset.mem_union.mp (potWithin member) with old | listed
      · exact Finset.mem_union_left _ old
      · exact Finset.mem_union_right _ (Finset.mem_inter.mp (mem_members.mp (List.mem_toFinset.mp listed))).2
    have listed : ∀ x ∈ members (pot.transactions \ inc.transactions), x ∈ U := by
      intro x member
      obtain ⟨inPot, notInc⟩ := Finset.mem_sdiff.mp (mem_members.mp member)
      rcases Finset.mem_union.mp (potUnd inPot) with old | undecided
      · exact absurd old notInc
      · exact inside (undInside undecided)
    set incTx := (members (pot.transactions \ inc.transactions)).foldl (jumpAhead g todo pot.transactions)
      inc.transactions with incTx_def
    obtain ⟨incGrows, incInPot, incClosed⟩ := foldl_jumpAhead_spec rep order pot.transactions
      (members (pot.transactions \ inc.transactions)) listed inc.transactions potHolds candidate.closed
    have incWithin : incTx ⊆ inc.transactions ∪ und := incInPot.trans potUnd
    have incCandidate : Candidate g todo ⟨incTx, inc.feerate + g.feeRateOfSet (incTx \ inc.transactions)⟩ :=
      ⟨incWithin.trans (Finset.union_subset candidate.subset undInside), incClosed, by
        rw [candidate.feerate, g.feeRateOfSet_add_sdiff, Finset.union_eq_right.mpr incGrows]⟩
    have incNonempty : incTx.Nonempty := (candidate.nonempty_of_size sized).mono incGrows
    -- the item keeps `inc ∪ und`: the jump-ahead sets come out of `und`
    have union : incTx ∪ (und \ incTx) = inc.transactions ∪ und := by
      rw [Finset.union_sdiff_self_eq_union]
      exact Finset.Subset.antisymm (Finset.union_subset incWithin Finset.subset_union_right)
        (Finset.union_subset_union incGrows le_rfl)
    -- an item is queued only when `pot` holds an undecided transaction `inc` did not take
    have undLeft : ¬pot.feerate.size = (inc.feerate + g.feeRateOfSet (incTx \ inc.transactions)).size →
        (und \ incTx).Nonempty := by
      intro differ
      by_contra empty
      have same : pot.transactions = incTx := by
        apply Finset.Subset.antisymm _ incInPot
        intro x member
        by_contra notTaken
        rcases Finset.mem_union.mp (potUnd member) with old | undecided
        · exact notTaken (incGrows old)
        · exact empty ⟨x, Finset.mem_sdiff.mpr ⟨undecided, notTaken⟩⟩
      apply differ
      rw [potFeerate, same]
    have item : ¬pot.feerate.size = (inc.feerate + g.feeRateOfSet (incTx \ inc.transactions)).size →
        WorkItem.Valid g todo ⟨⟨incTx, inc.feerate + g.feeRateOfSet (incTx \ inc.transactions)⟩, und \ incTx,
          pot.feerate⟩ :=
      fun differ => ⟨incCandidate, Finset.sdiff_subset.trans undInside, Finset.disjoint_sdiff,
        union ▸ closed, undLeft differ⟩
    have improved : ∀ imp, SearchState.Valid g todo
        { s with best := ⟨incTx, inc.feerate + g.feeRateOfSet (incTx \ inc.transactions)⟩, imp := imp } :=
      fun _ => ⟨valid.items, valid.capacity, incCandidate, incNonempty⟩
    split_ifs with full greater greater
    · exact ⟨improved _, .single ⟨incCandidate, incNonempty, greater⟩, le_rfl⟩
    · exact ⟨valid, .refl, le_rfl⟩
    · refine ⟨(improved _).emplaceBack (item full), .single ⟨incCandidate, incNonempty, greater⟩, ?_⟩
      exact le_size_emplaceBack _ _ _
    · refine ⟨valid.emplaceBack (item full), .refl, ?_⟩
      exact le_size_emplaceBack _ _ _
  · rw [SearchCandidateFinder.addItem, if_neg sized]
    split_ifs with empty
    · exact ⟨valid, .refl, le_rfl⟩
    · refine ⟨valid.emplaceBack ⟨candidate, undInside, disjoint, closed, Finset.nonempty_iff_ne_empty.mpr empty⟩,
        .refl, ?_⟩
      exact le_size_emplaceBack _ _ _

end Add

section Split

variable (g : DepGraph) (todo : Finset ℕ)

theorem pickSplit_cases (und : Finset ℕ) (chosen : ℕ × Option (ℕ × ℕ)) (t : ℕ) :
    (pickSplit g und chosen t = chosen ∧ chosen.2.isSome) ∨
      ((pickSplit g und chosen t).1 = t ∧ (pickSplit g und chosen t).2.isSome) := by
  obtain ⟨c, _ | counts⟩ := chosen
  · exact Or.inr ⟨rfl, rfl⟩
  · rw [pickSplit]
    dsimp only
    -- the counts are ordered first; only the comparison with the choice so far matters
    split_ifs with swapped better better
    · exact Or.inr ⟨rfl, rfl⟩
    · exact Or.inl ⟨rfl, rfl⟩
    · exact Or.inr ⟨rfl, rfl⟩
    · exact Or.inl ⟨rfl, rfl⟩

theorem foldl_pickSplit (und S : Finset ℕ) (l : List ℕ) (listed : ∀ t ∈ l, t ∈ S) :
    ∀ chosen : ℕ × Option (ℕ × ℕ), (chosen.2.isSome → chosen.1 ∈ S) →
      ((l.foldl (pickSplit g und) chosen).2.isSome → (l.foldl (pickSplit g und) chosen).1 ∈ S) ∧
      (chosen.2.isSome ∨ l ≠ [] → (l.foldl (pickSplit g und) chosen).2.isSome) := by
  induction l with
  | nil =>
      intro chosen start
      exact ⟨start, fun seen => seen.resolve_right (fun empty => empty rfl)⟩
  | cons t rest ih =>
      intro chosen start
      have restListed : ∀ x ∈ rest, x ∈ S := fun x member => listed x (List.mem_cons_of_mem t member)
      have step : ((pickSplit g und chosen t).2.isSome → (pickSplit g und chosen t).1 ∈ S) ∧
          (pickSplit g und chosen t).2.isSome := by
        rcases pickSplit_cases g und chosen t with ⟨kept, some⟩ | ⟨taken, some⟩
        · rw [kept]
          exact ⟨start, some⟩
        · rw [taken]
          exact ⟨fun _ => listed t List.mem_cons_self, some⟩
      obtain ⟨picked, some⟩ := ih restListed _ step.1
      exact ⟨picked, fun _ => some (Or.inl step.2)⟩

theorem splitItem_cases (s : SearchState) (elem : WorkItem) :
    splitItem arith g todo s elem = s ∨
      ∃ split, split = ((members (elem.und ∩ g.ancestors (firstPosition elem.und))).foldl
          (pickSplit g elem.und) (0, none)).1 ∧
        splitItem arith g todo s elem =
          { addItem arith g todo (addItem arith g todo s elem.inc (elem.und \ g.descendants split))
              (elem.inc.add g (g.ancestors split ∩ todo)) (elem.und \ (g.ancestors split ∩ todo)) with
            iterationsLeft := (addItem arith g todo (addItem arith g todo s elem.inc (elem.und \ g.descendants split))
              (elem.inc.add g (g.ancestors split ∩ todo)) (elem.und \ (g.ancestors split ∩ todo))).iterationsLeft - 1 } := by
  rw [splitItem]
  split <;> split
  · exact Or.inl rfl
  · exact Or.inr ⟨_, rfl, rfl⟩
  · exact Or.inl rfl
  · exact Or.inr ⟨_, rfl, rfl⟩

variable {g todo} {U : Finset ℕ} {fee : ℕ → FeeFrac} {R : ℕ → ℕ → Prop}
variable (rep : Represents g U fee R) (order : PreorderOn U R) (inside : todo ⊆ U)
include rep order inside

theorem SearchState.Valid.splitItem {s : SearchState} (valid : s.Valid g todo) {elem : WorkItem}
    (item : elem.Valid g todo) :
    (splitItem arith g todo s elem).Valid g todo ∧ Improves arith g todo s.best (splitItem arith g todo s elem).best ∧
      s.queue.size ≤ (splitItem arith g todo s elem).queue.size := by
  rcases splitItem_cases arith g todo s elem with stop | ⟨split, chosen, result⟩
  · rw [stop]
    exact ⟨valid, .refl, le_rfl⟩
  rw [result]
  -- the split transaction is an undecided ancestor of the first undecided one
  have first := (firstPosition_spec item.nonempty).1
  have selectListed : members (elem.und ∩ g.ancestors (firstPosition elem.und)) ≠ [] :=
    List.ne_nil_of_mem (mem_members.mpr (Finset.mem_inter.mpr
      ⟨first, rep.self_ancestor order (inside (item.und first))⟩))
  obtain ⟨picked, some⟩ := foldl_pickSplit g elem.und _ _ (fun t listed => mem_members.mp listed) (0, none)
    (fun none => absurd none Bool.false_ne_true)
  have splitUnd : split ∈ elem.und := by
    rw [chosen]
    exact (Finset.mem_inter.mp (picked (some (Or.inr selectListed)))).1
  have splitInside : split ∈ U := inside (item.und splitUnd)
  have incInside : elem.inc.transactions ∪ elem.und ⊆ U :=
    (Finset.union_subset item.inc.subset item.und).trans inside
  -- leaving `split` out: `inc` holds none of its descendants, or it would hold `split`
  have incApart : Disjoint elem.inc.transactions (g.descendants split) := by
    rw [Finset.disjoint_left]
    intro x included descendant
    have xInside := inside (item.inc.subset included)
    rw [AncestorCandidateFinder.mem_descendants_iff rep splitInside xInside] at descendant
    have splitIncluded := item.inc.closed x included
      (Finset.mem_inter.mpr ⟨descendant, item.und splitUnd⟩)
    exact Finset.disjoint_left.mp item.disjoint splitIncluded splitUnd
  have excluded : elem.inc.transactions ∪ (elem.und \ g.descendants split) =
      (elem.inc.transactions ∪ elem.und) \ g.descendants split := by
    rw [Finset.union_sdiff_distrib, Finset.sdiff_eq_self_of_disjoint incApart]
  obtain ⟨valid1, improves1, size1⟩ := valid.addItem arith rep order inside item.inc
    (Finset.sdiff_subset.trans item.und) (item.disjoint.mono_right Finset.sdiff_subset)
    (excluded ▸ closedUnder_sdiff_descendants rep order item.closed incInside splitInside)
  -- taking `split` in: its ancestors within `todo` are in `inc ∪ und` already
  have ancWithin : g.ancestors split ∩ todo ⊆ elem.inc.transactions ∪ elem.und :=
    item.closed split (Finset.mem_union_right _ splitUnd)
  have included : (elem.inc.add g (g.ancestors split ∩ todo)).transactions ∪
      (elem.und \ (g.ancestors split ∩ todo)) = elem.inc.transactions ∪ elem.und := by
    rw [SetInfo.add, Finset.union_assoc, Finset.union_sdiff_self_eq_union,
      Finset.union_comm (g.ancestors split ∩ todo) elem.und, ← Finset.union_assoc,
      Finset.union_eq_left.mpr ancWithin]
  have apart : Disjoint (elem.inc.add g (g.ancestors split ∩ todo)).transactions
      (elem.und \ (g.ancestors split ∩ todo)) := by
    rw [SetInfo.add, Finset.disjoint_union_left]
    exact ⟨item.disjoint.mono_right Finset.sdiff_subset, Finset.disjoint_sdiff⟩
  obtain ⟨valid2, improves2, size2⟩ := valid1.addItem arith rep order inside
    (item.inc.add Finset.inter_subset_right (closed_ancestors rep order splitInside))
    (Finset.sdiff_subset.trans item.und) apart (included ▸ item.closed)
  exact ⟨valid2.of_eq rfl rfl, improves1.trans improves2, size1.trans size2⟩

end Split

section Loop

variable {g : DepGraph} {todo U : Finset ℕ} {fee : ℕ → FeeFrac} {R : ℕ → ℕ → Prop}
variable (rep : Represents g U fee R) (order : PreorderOn U R) (inside : todo ⊆ U)
include rep order inside

theorem SearchState.Valid.workLoop (fuel : ℕ) : ∀ (atTop : Bool) (s : SearchState), s.Valid g todo →
    (atTop = false → 0 < s.queue.size) →
    (workLoop arith g todo fuel atTop s).Valid g todo ∧
      Improves arith g todo s.best (workLoop arith g todo fuel atTop s).best := by
  induction fuel with
  | zero =>
      intro atTop s valid _
      exact ⟨valid, .refl⟩
  | succ fuel ih =>
      intro atTop s valid nonempty
      rw [SearchCandidateFinder.workLoop]
      by_cases stop : atTop = true ∧ s.queue.empty = true
      · rw [if_pos stop]
        exact ⟨valid, .refl⟩
      rw [if_neg stop]
      have queued : 0 < s.queue.size := by
        cases atTop with
        | false => exact nonempty rfl
        | true =>
            rw [VecDeque.empty, beq_iff_eq] at stop
            exact Nat.pos_of_ne_zero fun empty => stop ⟨rfl, empty⟩
      obtain ⟨shuffled, sized, same⟩ : (if atTop = true then SearchCandidateFinder.shuffleFront s else s).Valid g todo ∧
          (if atTop = true then SearchCandidateFinder.shuffleFront s else s).queue.size = s.queue.size ∧
          (if atTop = true then SearchCandidateFinder.shuffleFront s else s).best = s.best := by
        split_ifs
        · exact valid.shuffleFront
        · exact ⟨valid, rfl, rfl⟩
      dsimp only
      generalize (if atTop = true then SearchCandidateFinder.shuffleFront s else s) = s' at shuffled sized same ⊢
      rw [← same]
      have queued' : 0 < s'.queue.size := sized ▸ queued
      split_ifs with deep spent spent
      · exact ⟨shuffled, .refl⟩
      · -- the inner loop takes from the back of a queue of two items or more
        obtain ⟨popped, item, poppedSize⟩ := shuffled.popBack queued'
        have front := (shuffled.popFront queued').2
        have fits : (s'.queue.front.getD default).und.card ≤ s'.queue.capacity :=
          (Finset.card_le_card front.und).trans shuffled.capacity
        obtain ⟨split, improves, grows⟩ := popped.splitItem arith rep order inside item
        have left : 0 < (SearchCandidateFinder.splitItem arith g todo { s' with queue := s'.queue.popBack }
            (s'.queue.back.getD default)).queue.size := by
          dsimp only at grows
          omega
        obtain ⟨final, improves'⟩ := ih false _ split fun _ => left
        exact ⟨final, improves.trans improves'⟩
      · exact ⟨shuffled, .refl⟩
      · obtain ⟨popped, item⟩ := shuffled.popFront queued'
        obtain ⟨split, improves, -⟩ := popped.splitItem arith rep order inside item
        obtain ⟨final, improves'⟩ := ih true _ split fun top => Bool.noConfusion top
        exact ⟨final, improves.trans improves'⟩

end Loop

end Freycoin.Cluster
