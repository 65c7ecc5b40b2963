import Freycoin.Cluster.ClusterLinearize
import Freycoin.Cluster.DepGraphRuns

/-! What `FixLinearization` does to a permutation of a graph's positions. -/

namespace Freycoin.Cluster

open RelationOn

/-- Every element of `l` comes after all its ancestors in `depgraph` other than itself. -/
def PrecededByAncestors (depgraph : DepGraph) (l : List ℕ) : Prop :=
  ∀ k (inside : k < l.length), ∀ a ∈ depgraph.ancestors l[k], a ≠ l[k] → a ∈ l.take k

section Move

/-- How many elements of `t` the inner loop passes: it stops once no element of `placeBefore`
is left ahead of it. -/
def passed (placeBefore : Finset ℕ) : List ℕ → ℕ
  | [] => 0
  | x :: rest => if placeBefore.Nonempty then passed (placeBefore.erase x) rest + 1 else 0

theorem passed_le (placeBefore : Finset ℕ) : ∀ t : List ℕ, passed placeBefore t ≤ t.length
  | [] => le_rfl
  | x :: rest => by
      rw [passed]
      split_ifs
      · have := passed_le (placeBefore.erase x) rest
        rw [List.length_cons]
        omega
      · exact Nat.zero_le _

theorem mem_take_passed : ∀ {placeBefore : Finset ℕ} {t : List ℕ}, (∀ a ∈ placeBefore, a ∈ t) →
    ∀ a ∈ placeBefore, a ∈ t.take (passed placeBefore t)
  | placeBefore, [], within, a, member => absurd (within a member) List.not_mem_nil
  | placeBefore, x :: rest, within, a, member => by
      have nonempty : placeBefore.Nonempty := ⟨a, member⟩
      rw [passed, if_pos nonempty, List.take_succ_cons]
      by_cases same : a = x
      · exact same ▸ List.mem_cons_self
      · have rest_within : ∀ b ∈ placeBefore.erase x, b ∈ rest := fun b erased => by
          obtain ⟨other, member⟩ := Finset.mem_erase.mp erased
          exact (List.mem_cons.mp (within b member)).resolve_left other
        exact List.mem_cons_of_mem _
          (mem_take_passed rest_within a (Finset.mem_erase.mpr ⟨same, member⟩))

theorem last_passed_mem : ∀ {placeBefore : Finset ℕ} {t : List ℕ}, (∀ a ∈ placeBefore, a ∈ t) →
    0 < passed placeBefore t →
    ∃ front a, t.take (passed placeBefore t) = front ++ [a] ∧ a ∈ placeBefore
  | placeBefore, [], _, positive => absurd positive (lt_irrefl 0)
  | placeBefore, x :: rest, within, positive => by
      by_cases nonempty : placeBefore.Nonempty
      · rw [passed, if_pos nonempty] at positive ⊢
        rw [List.take_succ_cons]
        have rest_within : ∀ b ∈ placeBefore.erase x, b ∈ rest := fun b erased => by
          obtain ⟨other, member⟩ := Finset.mem_erase.mp erased
          exact (List.mem_cons.mp (within b member)).resolve_left other
        rcases Nat.eq_zero_or_pos (passed (placeBefore.erase x) rest) with none | some
        · -- nothing but `x` is left to pass, so `x` is in `placeBefore`
          refine ⟨[], x, by rw [none, List.take_zero]; rfl, ?_⟩
          obtain ⟨a, member⟩ := nonempty
          by_contra outside
          have erased : a ∈ placeBefore.erase x :=
            Finset.mem_erase.mpr ⟨fun same => outside (same ▸ member), member⟩
          have := mem_take_passed rest_within a erased
          rw [none, List.take_zero] at this
          exact List.not_mem_nil this
        · obtain ⟨front, a, split, member⟩ := last_passed_mem rest_within some
          exact ⟨x :: front, a, by rw [split]; rfl, Finset.mem_of_mem_erase member⟩
      · rw [passed, if_neg nonempty] at positive
        exact absurd positive (lt_irrefl 0)

theorem passed_of_empty (t : List ℕ) : passed ∅ t = 0 := by
  cases t with
  | nil => rfl
  | cons x rest => rw [passed, if_neg Finset.not_nonempty_empty]

theorem moveForward_spec (pre : List ℕ) :
    ∀ (t u : List ℕ) (hole : ℕ) (placeBefore : Finset ℕ), (∀ a ∈ placeBefore, a ∈ t) →
      ∃ hole', moveForward (pre.length + u.length + 1 + t.length) (pre ++ u ++ hole :: t)
          placeBefore t.length =
        some (t.length - passed placeBefore t,
          pre ++ (u ++ t.take (passed placeBefore t)) ++ hole' :: t.drop (passed placeBefore t))
  | [], u, hole, placeBefore, within => by
      have empty : ¬placeBefore.Nonempty := fun ⟨a, member⟩ => List.not_mem_nil (within a member)
      refine ⟨hole, ?_⟩
      rw [List.length_nil, moveForward, if_neg empty, passed, List.take_nil, List.drop_nil,
        List.append_nil]
  | y :: t, u, hole, placeBefore, within => by
      by_cases nonempty : placeBefore.Nonempty
      · have rest_within : ∀ b ∈ placeBefore.erase y, b ∈ t := fun b erased => by
          obtain ⟨other, member⟩ := Finset.mem_erase.mp erased
          exact (List.mem_cons.mp (within b member)).resolve_left other
        -- the element behind the hole moves into it, and the hole moves one slot back
        have read : (pre ++ u ++ hole :: y :: t).getD
            (pre.length + u.length + 1 + (t.length + 1) - 1 - t.length) 0 = y := by
          rw [List.getD_eq_getElem?_getD,
            show pre.length + u.length + 1 + (t.length + 1) - 1 - t.length =
              (pre ++ u).length + 1 by rw [List.length_append]; omega,
            List.getElem?_append_right (by omega)]
          simp
        have write : (pre ++ u ++ hole :: y :: t).set
            (pre.length + u.length + 1 + (t.length + 1) - 1 - (t.length + 1)) y =
              pre ++ (u ++ [y]) ++ y :: t := by
          rw [show pre.length + u.length + 1 + (t.length + 1) - 1 - (t.length + 1) =
              (pre ++ u).length by rw [List.length_append]; omega,
            List.set_append_right _ _ le_rfl, Nat.sub_self]
          simp
        obtain ⟨hole', moved⟩ := moveForward_spec pre t (u ++ [y]) y (placeBefore.erase y) rest_within
        have length : pre.length + (u ++ [y]).length + 1 + t.length =
            pre.length + u.length + 1 + (t.length + 1) := by
          rw [List.length_append, List.length_singleton]
          omega
        rw [length] at moved
        refine ⟨hole', ?_⟩
        rw [List.length_cons, moveForward, if_pos nonempty]
        dsimp only
        rw [read, write, moved, passed, if_pos nonempty, List.take_succ_cons, List.drop_succ_cons]
        simp only [List.append_assoc, List.cons_append, List.nil_append, Nat.add_sub_add_right]
      · refine ⟨hole, ?_⟩
        rw [List.length_cons, moveForward, if_neg nonempty, passed, if_neg nonempty, List.take_zero,
          List.drop_zero, List.append_nil, Nat.sub_zero]

end Move

section Insert

variable {U : Finset ℕ} {R : ℕ → ℕ → Prop} {s : List ℕ} {elem : ℕ} {placeBefore : Finset ℕ}

theorem pairwise_insert_after (order : PartialOrderOn U R) (ordered : s.Pairwise fun a b => ¬R b a)
    (nodup : s.Nodup) (fresh : elem ∉ s) (ancestor_iff : ∀ a, a ∈ placeBefore ↔ a ∈ s ∧ R a elem) :
    (s.take (passed placeBefore s) ++ elem :: s.drop (passed placeBefore s)).Pairwise
      fun a b => ¬R b a := by
  have within : ∀ a ∈ placeBefore, a ∈ s := fun a member => ((ancestor_iff a).mp member).1
  -- no ancestor of `elem` is left behind the insertion point
  have behind : ∀ y ∈ s.drop (passed placeBefore s), ¬R y elem := fun y later related =>
    List.disjoint_take_drop nodup le_rfl
      (mem_take_passed within y ((ancestor_iff y).mpr ⟨List.mem_of_mem_drop later, related⟩)) later
  have original := ordered
  rw [← List.take_append_drop (passed placeBefore s) s, List.pairwise_append] at original
  obtain ⟨front_ordered, back_ordered, across⟩ := original
  rw [List.pairwise_append]
  refine ⟨front_ordered, List.pairwise_cons.mpr ⟨behind, back_ordered⟩, fun x passedX y member => ?_⟩
  rcases List.mem_cons.mp member with rfl | later
  · -- `elem` behind `x`: `x` is no descendant of `elem`
    intro descendant
    rcases Nat.eq_zero_or_pos (passed placeBefore s) with none | some
    · rw [none, List.take_zero] at passedX
      exact List.not_mem_nil passedX
    obtain ⟨front, a, split, member⟩ := last_passed_mem within some
    obtain ⟨inS, ancestor⟩ := (ancestor_iff a).mp member
    rw [split] at passedX front_ordered
    rcases List.mem_append.mp passedX with earlier | last
    · exact List.pairwise_append.mp front_ordered |>.2.2 x earlier a (List.mem_singleton_self a)
        (order.trans ancestor descendant)
    · rw [List.mem_singleton.mp last] at descendant
      exact fresh (order.antisymm ancestor descendant ▸ inS)
  · exact across x passedX y later

end Insert

section Pass

theorem fixLinearizationLoop_pass (g : DepGraph) {pre post s : List ℕ} {elem : ℕ}
    (length : s.length = post.length) (remaining : ℕ) :
    fixLinearizationLoop g (pre.length + 1 + post.length) (remaining + 1) post.length
        (pre ++ elem :: s) s.toFinset =
      fixLinearizationLoop g (pre.length + 1 + post.length) remaining (post.length + 1)
        (pre ++ (s.take (passed (s.toFinset ∩ g.ancestors elem) s) ++
          elem :: s.drop (passed (s.toFinset ∩ g.ancestors elem) s)))
        (s.take (passed (s.toFinset ∩ g.ancestors elem) s) ++
          elem :: s.drop (passed (s.toFinset ∩ g.ancestors elem) s)).toFinset := by
  set m := passed (s.toFinset ∩ g.ancestors elem) s
  have bounded : m ≤ post.length := length ▸ passed_le _ s
  have read : (pre ++ elem :: s).getD (pre.length + 1 + post.length - 1 - post.length) 0 = elem := by
    rw [show pre.length + 1 + post.length - 1 - post.length = pre.length by omega]
    simp
  obtain ⟨hole, moved⟩ := moveForward_spec pre s [] elem (s.toFinset ∩ g.ancestors elem)
    fun a member => List.mem_toFinset.mp (Finset.mem_inter.mp member).1
  rw [List.length_nil, Nat.add_zero, List.append_nil, List.nil_append, length] at moved
  have write : (pre ++ s.take m ++ hole :: s.drop m).set
      (pre.length + 1 + post.length - 1 - (post.length - m)) elem =
        pre ++ (s.take m ++ elem :: s.drop m) := by
    rw [show pre.length + 1 + post.length - 1 - (post.length - m) = (pre ++ s.take m).length by
      rw [List.length_append, List.length_take, length]; omega,
      List.set_append_right _ _ le_rfl, Nat.sub_self]
    simp
  have done : insert elem s.toFinset = (s.take m ++ elem :: s.drop m).toFinset := by
    conv_lhs => rw [← List.take_append_drop m s]
    ext x
    simp only [Finset.mem_insert, List.mem_toFinset, List.mem_append, List.mem_cons]
    tauto
  rw [fixLinearizationLoop, read, moved]
  dsimp only
  rw [write, done]

end Pass

section Loop

variable {g : DepGraph} {U : Finset ℕ} {fee : ℕ → FeeFrac} {R : ℕ → ℕ → Prop} {L : List ℕ}

/-- The loop's invariant after `i` passes: the processed suffix `s` holds the last `i` elements
of `L` in topological order, and begins with the processed part of every prefix of `L` whose
elements follow their ancestors. -/
structure FixInv (R : ℕ → ℕ → Prop) (depgraph : DepGraph) (L : List ℕ) (i : ℕ) (s : List ℕ) :
    Prop where
  perm : s.Perm (L.drop (L.length - i))
  ordered : s.Pairwise fun a b => ¬R b a
  keeps : ∀ p rest, L = p ++ rest → PrecededByAncestors depgraph p → rest.length ≤ i →
    p.drop (L.length - i) <+: s

theorem FixInv.start (R : ℕ → ℕ → Prop) (depgraph : DepGraph) (L : List ℕ) :
    FixInv R depgraph L 0 [] where
  perm := by rw [Nat.sub_zero, List.drop_length]
  ordered := List.Pairwise.nil
  keeps := fun p rest split _ none => by
    rw [List.length_eq_zero_iff.mp (Nat.le_zero.mp none), List.append_nil] at split
    rw [Nat.sub_zero, split, List.drop_length]

theorem FixInv.step (rep : Represents g U fee R) (order : PartialOrderOn U R) (nodup : L.Nodup)
    (covers : ∀ x, x ∈ L ↔ x ∈ U) {i : ℕ} (more : i < L.length) {s : List ℕ}
    (inv : FixInv R g L i s) (remaining : ℕ) :
    ∃ s', fixLinearizationLoop g L.length (remaining + 1) i (L.take (L.length - i) ++ s)
        s.toFinset =
      fixLinearizationLoop g L.length remaining (i + 1) (L.take (L.length - (i + 1)) ++ s')
        s'.toFinset ∧ FixInv R g L (i + 1) s' := by
  -- `L` around the element the pass takes, `k` from the front
  have kLt : L.length - (i + 1) < L.length := by omega
  have whole : L = L.take (L.length - (i + 1)) ++ L[L.length - (i + 1)] ::
      L.drop (L.length - i) := by
    rw [show L.length - i = L.length - (i + 1) + 1 by omega, ← List.drop_eq_getElem_cons kLt,
      List.take_append_drop]
  set k := L.length - (i + 1) with kEq
  set elem := L[k]
  set pre := L.take k
  set post := L.drop (L.length - i)
  have preLength : pre.length = k := by rw [List.length_take]; omega
  have postLength : post.length = i := by rw [List.length_drop]; omega
  have sLength : s.length = post.length := by rw [inv.perm.length_eq]
  have nodup' := whole ▸ nodup
  rw [List.nodup_append, List.nodup_cons] at nodup'
  obtain ⟨-, ⟨elemPost, postNodup⟩, apart⟩ := nodup'
  have sNodup : s.Nodup := inv.perm.nodup_iff.mpr postNodup
  have fresh : elem ∉ s := fun inS => elemPost (inv.perm.subset inS)
  have elemU : elem ∈ U := (covers elem).mp (List.getElem_mem kLt)
  have ancestor_iff : ∀ a, a ∈ s.toFinset ∩ g.ancestors elem ↔ a ∈ s ∧ R a elem := by
    intro a
    rw [Finset.mem_inter, List.mem_toFinset, rep.ancestors elem elemU a]
    exact ⟨fun ⟨inS, _, related⟩ => ⟨inS, related⟩,
      fun ⟨inS, related⟩ => ⟨inS, (order.support related).1, related⟩⟩
  set m := passed (s.toFinset ∩ g.ancestors elem) s
  refine ⟨s.take m ++ elem :: s.drop m, ?_, ?_, ?_, ?_⟩
  · -- the pass itself
    have taken : L.take (L.length - i) = pre ++ [elem] := by
      rw [show L.length - i = k + 1 by omega, List.take_succ_eq_append_getElem kLt]
    have lengthL : L.length = pre.length + 1 + post.length := by
      conv_lhs => rw [whole]
      rw [List.length_append, List.length_cons]
      omega
    rw [taken, List.append_assoc, List.singleton_append, lengthL, ← postLength]
    exact fixLinearizationLoop_pass g sLength remaining
  · have middle : (s.take m ++ elem :: s.drop m).Perm (elem :: s) := by
      have moved := @List.perm_middle _ elem (s.take m) (s.drop m)
      rwa [List.take_append_drop] at moved
    rw [List.drop_eq_getElem_cons kLt, show k + 1 = L.length - i by omega]
    exact middle.trans (inv.perm.cons elem)
  · exact pairwise_insert_after order inv.ordered sNodup fresh ancestor_iff
  · intro p rest split preceded short
    rcases Nat.lt_or_ge i rest.length with last | earlier
    · -- no element of `p` has been processed yet
      have pLength : p.length = k := by
        have := congrArg List.length split
        rw [List.length_append] at this
        omega
      rw [List.drop_of_length_le (by omega)]
      exact List.nil_prefix
    · -- `elem` is in `p`: its ancestors are all in front of it, so it stays in front
      have old := inv.keeps p rest split preceded earlier
      have kP : k < p.length := by
        have := congrArg List.length split
        rw [List.length_append] at this
        omega
      have elemP : p[k] = elem := by
        simp only [elem, split, List.getElem_append_left kP]
      have prefixPre : p.take k = pre := by
        simp only [pre, split, List.take_append_of_le_length kP.le]
      have none : s.toFinset ∩ g.ancestors elem = ∅ := Finset.eq_empty_of_forall_notMem
        fun a member => by
          obtain ⟨inS, related⟩ := (ancestor_iff a).mp member
          have ancestor : a ∈ g.ancestors p[k] := by
            rw [elemP]
            exact (Finset.mem_inter.mp member).2
          have other : a ≠ p[k] := by
            rw [elemP]
            rintro rfl
            exact fresh inS
          have inPre : a ∈ pre := prefixPre ▸ preceded k kP a ancestor other
          exact apart a inPre a (List.mem_cons_of_mem _ (inv.perm.subset inS)) rfl
      have zero : m = 0 := by
        simp only [m, none, passed_of_empty]
      rw [zero, List.take_zero, List.nil_append, List.drop_zero, ← kEq,
        List.drop_eq_getElem_cons kP, elemP, show k + 1 = L.length - i by omega]
      exact List.cons_prefix_cons.mpr ⟨rfl, old⟩

theorem fixLinearizationLoop_run (rep : Represents g U fee R) (order : PartialOrderOn U R)
    (nodup : L.Nodup) (covers : ∀ x, x ∈ L ↔ x ∈ U) :
    ∀ (remaining i : ℕ) (s : List ℕ), i + remaining = L.length → FixInv R g L i s →
      ∃ s', fixLinearizationLoop g L.length remaining i (L.take (L.length - i) ++ s) s.toFinset =
        some s' ∧ FixInv R g L L.length s'
  | 0, i, s, finished, inv => by
      rw [Nat.add_zero] at finished
      refine ⟨s, ?_, finished ▸ inv⟩
      rw [fixLinearizationLoop, finished, Nat.sub_self, List.take_zero, List.nil_append]
  | remaining + 1, i, s, position, inv => by
      obtain ⟨s', pass, inv'⟩ := inv.step rep order nodup covers (by omega) remaining
      rw [pass]
      exact fixLinearizationLoop_run rep order nodup covers remaining (i + 1) s' (by omega) inv'

theorem precededByAncestors_of_pairwise (rep : Represents g U fee R) {l : List ℕ} (covers : ∀ x, x ∈ l ↔ x ∈ U) (ordered : l.Pairwise fun a b => ¬R b a) :
    PrecededByAncestors g l := by
  intro k inside a ancestor other
  have related := ((rep.ancestors l[k] ((covers _).mp (List.getElem_mem inside)) a).mp ancestor)
  obtain ⟨j, jInside, at_j⟩ := List.mem_iff_getElem.mp ((covers a).mpr related.1)
  rcases Nat.lt_or_ge j k with before | after
  · exact List.mem_take_iff_getElem.mpr ⟨j, by omega, at_j⟩
  · have later : k < j := lt_of_le_of_ne after fun same => other (by subst same; exact at_j.symm)
    exact absurd (at_j ▸ related.2) (List.pairwise_iff_getElem.mp ordered k j inside jInside later)

end Loop

section Repair

theorem fixLinearization_repairs_topology (g : DepGraph) (U : Finset ℕ) (fee : ℕ → FeeFrac)
    (R : ℕ → ℕ → Prop) (order : PartialOrderOn U R) (rep : Represents g U fee R) (L : List ℕ)
    (nodup : L.Nodup) (positions : L.toFinset = g.positions) :
    ∃ L', fixLinearization g L = some L' ∧ L'.Perm L ∧ PrecededByAncestors g L' ∧
      (∀ p rest, L = p ++ rest → PrecededByAncestors g p → p <+: L') ∧
      (PrecededByAncestors g L → L' = L) := by
  have covers : ∀ x, x ∈ L ↔ x ∈ U := fun x => by
    rw [← List.mem_toFinset, positions, rep.positions]
  obtain ⟨L', run, inv⟩ := fixLinearizationLoop_run rep order nodup covers L.length 0 []
    (Nat.zero_add _) (FixInv.start R g L)
  rw [Nat.sub_zero, List.take_length, List.append_nil, List.toFinset_nil] at run
  have perm : L'.Perm L := by
    have := inv.perm
    rwa [Nat.sub_self, List.drop_zero] at this
  have everything : ∀ p rest, L = p ++ rest → PrecededByAncestors g p → p <+: L' := by
    intro p rest split preceded
    have short : rest.length ≤ L.length := by
      rw [split, List.length_append]
      omega
    have keeps := inv.keeps p rest split preceded short
    rwa [Nat.sub_self, List.drop_zero] at keeps
  refine ⟨L', run, perm, ?_, everything, fun preceded => ?_⟩
  · exact precededByAncestors_of_pairwise rep (fun x => perm.mem_iff.trans (covers x)) inv.ordered
  · exact ((everything L [] (List.append_nil L).symm preceded).eq_of_length
      perm.length_eq.symm).symm

/-- A child listed before its parent, in the graph a program builds by adding two transactions
and the dependency between them. -/
theorem fixLinearization_repairs_child_first :
    ∃ L', fixLinearization (DepGraph.addDependencies {0} 1
        ⟨[⟨⟨5, 1⟩, {0}, {0}⟩, ⟨⟨7, 2⟩, {1}, {1}⟩], {1, 0}⟩) [1, 0] = some L' ∧ L'.Perm [1, 0] ∧
      PrecededByAncestors (DepGraph.addDependencies {0} 1
        ⟨[⟨⟨5, 1⟩, {0}, {0}⟩, ⟨⟨7, 2⟩, {1}, {1}⟩], {1, 0}⟩) L' ∧
      (∀ p rest, [1, 0] = p ++ rest → PrecededByAncestors (DepGraph.addDependencies {0} 1
        ⟨[⟨⟨5, 1⟩, {0}, {0}⟩, ⟨⟨7, 2⟩, {1}, {1}⟩], {1, 0}⟩) p → p <+: L') ∧
      (PrecededByAncestors (DepGraph.addDependencies {0} 1
        ⟨[⟨⟨5, 1⟩, {0}, {0}⟩, ⟨⟨7, 2⟩, {1}, {1}⟩], {1, 0}⟩) [1, 0] → L' = [1, 0]) := by
  have reached : Reachable 2 (DepGraph.addDependencies {0} 1
      ⟨[⟨⟨5, 1⟩, {0}, {0}⟩, ⟨⟨7, 2⟩, {1}, {1}⟩], {1, 0}⟩) :=
    Reachable.addDependencies
      (@Reachable.addTransaction 2 ⟨[⟨⟨5, 1⟩, {0}, {0}⟩], {0}⟩ _ ⟨7, 2⟩ 1
        (@Reachable.addTransaction 2 DepGraph.empty _ ⟨5, 1⟩ 0 Reachable.empty rfl) rfl)
      (by decide) (by decide) (by decide)
  obtain ⟨U, fee, R, order, rep⟩ := reached.represents
  exact fixLinearization_repairs_topology _ U fee R order rep [1, 0] (by decide) (by decide)

example : fixLinearization (DepGraph.addDependencies {0} 1
    ⟨[⟨⟨5, 1⟩, {0}, {0}⟩, ⟨⟨7, 2⟩, {1}, {1}⟩], {1, 0}⟩) [1, 0] = some [0, 1] := by decide

end Repair

end Freycoin.Cluster
