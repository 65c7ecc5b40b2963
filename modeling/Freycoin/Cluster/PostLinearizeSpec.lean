import Freycoin.Cluster.PostLinearizeGroups
import Freycoin.Cluster.FixLinearizationSpec
import Freycoin.Cluster.SearchCandidateRuns

/-! `PostLinearize` returns a reordering of its input, and keeps a topological linearization
topological. -/

namespace Freycoin.Cluster

namespace PostLinearize

open BackLinks ListOrder

/-! The write-back loops. -/

/-- What the write-back loops leave in the linearization once they have visited the transactions
`xs`: from position `done` on in a backward pass, from position `len - 1 - done` down in a
forward one. -/
def written (rev : Bool) (len : ℕ) : List ℕ → ℕ → List ℕ → List ℕ
  | linearization, _, [] => linearization
  | linearization, done, t :: xs =>
    written rev len (if rev then linearization.set done t else linearization.set (len - (done + 1)) t)
      (done + 1) xs

section Written

variable (rev : Bool) (len : ℕ)

theorem written_append : ∀ (linearization : List ℕ) (done : ℕ) (xs ys : List ℕ),
    written rev len linearization done (xs ++ ys) =
      written rev len (written rev len linearization done xs) (done + xs.length) ys
  | _, _, [], _ => rfl
  | linearization, done, t :: xs, ys => by
    rw [List.cons_append, written, written, written_append _ (done + 1) xs ys, List.length_cons,
      Nat.add_assoc, Nat.add_comm 1]

theorem length_written : ∀ (linearization : List ℕ) (done : ℕ) (xs : List ℕ),
    (written rev len linearization done xs).length = linearization.length
  | _, _, [] => rfl
  | linearization, done, t :: xs => by
    rw [written, length_written]
    split <;> exact List.length_set

theorem take_succ_set {l : List ℕ} {i : ℕ} (t : ℕ) (inside : i < l.length) :
    (l.set i t).take (i + 1) = l.take i ++ [t] := by
  simp [List.take_add_one, List.take_set_of_le, inside]

theorem drop_set_self {l : List ℕ} {i : ℕ} (t : ℕ) (inside : i < l.length) :
    (l.set i t).drop i = t :: l.drop (i + 1) := by
  rw [List.drop_set, if_neg (Nat.lt_irrefl i), Nat.sub_self, List.drop_eq_getElem_cons inside,
    List.set_cons_zero]

theorem written_true : ∀ (linearization : List ℕ) (done : ℕ) (xs : List ℕ),
    done + xs.length ≤ linearization.length →
      written true len linearization done xs =
        linearization.take done ++ xs ++ linearization.drop (done + xs.length)
  | linearization, done, [], _ => by simp [written]
  | linearization, done, t :: xs, fits => by
    rw [List.length_cons] at fits
    have inside : done < linearization.length := by omega
    rw [written, if_pos rfl, written_true _ (done + 1) xs (by rw [List.length_set]; omega),
      take_succ_set t inside, List.drop_set_of_lt (by omega), List.length_cons,
      show done + (xs.length + 1) = done + 1 + xs.length by omega]
    simp

theorem written_false : ∀ (linearization : List ℕ) (done : ℕ) (xs : List ℕ),
    linearization.length = len → done + xs.length ≤ len →
      written false len linearization done xs =
        linearization.take (len - (done + xs.length)) ++ xs.reverse ++ linearization.drop (len - done)
  | linearization, done, [], _, _ => by simp [written]
  | linearization, done, t :: xs, length, fits => by
    rw [List.length_cons] at fits
    have inside : len - (done + 1) < linearization.length := by omega
    rw [written, if_neg Bool.false_ne_true,
      written_false _ (done + 1) xs (by rw [List.length_set, length]) (by omega),
      List.take_set_of_le (by omega), drop_set_self t inside, List.length_cons, List.reverse_cons,
      show len - (done + 1) + 1 = len - done by omega,
      show len - (done + (xs.length + 1)) = len - (done + 1 + xs.length) by omega]
    simp

theorem written_all (linearization xs : List ℕ) (length : xs.length = linearization.length) :
    written rev linearization.length linearization 0 xs = if rev then xs else xs.reverse := by
  cases rev with
  | true => simp [written_true linearization.length linearization 0 xs (by omega), length]
  | false => simp [written_false linearization.length linearization 0 xs rfl (by omega), length]

end Written

section WriteBack

variable {depsOf : ℕ → Finset ℕ} (E : Entries) (rev : Bool) (len : ℕ)

theorem writeGroup_spec {G : List ℕ} (linked : BackLinked E.prevTx noPrevTx (G.map (· + 1)))
    (nonempty : G ≠ []) : ∀ fuel linearization done, G.length ≤ fuel →
      writeGroup E rev len fuel linearization done (tailOf G) =
        (written rev len linearization done G.reverse, done + G.length) := by
  induction G using List.reverseRecOn with
  | nil => exact absurd rfl nonempty
  | append_singleton G t ih =>
    intro fuel linearization done enough
    rw [List.map_append, List.map_singleton, backLinked_append_cons] at linked
    obtain ⟨front, link, -⟩ := linked
    rw [List.length_append, List.length_singleton] at enough
    obtain ⟨fuel, rfl⟩ : ∃ rest, fuel = rest + 1 := ⟨fuel - 1, by omega⟩
    have tail : tailOf (G ++ [t]) = t + 1 := by simp [tailOf]
    rw [tail, writeGroup, Nat.add_sub_cancel, link, List.reverse_append, List.reverse_singleton,
      List.singleton_append, List.length_append, List.length_singleton]
    by_cases first : G = []
    · -- `t` was the first transaction: its `prev_tx` ends the loop
      subst first
      rw [if_neg (by simp [noPrevTx])]
      rfl
    · have next : tailOf G ≠ sentinel := fun same => sentinel_notMem G (same ▸ tailOf_mem first)
      rw [if_pos (show (G.map (· + 1)).getLastD noPrevTx ≠ noPrevTx from next)]
      exact (ih front first fuel _ (done + 1) (by omega)).trans (by rw [written]; congr 1; omega)

theorem writeGroups_spec {Gs : List (List ℕ)} (summarizes : ∀ G ∈ Gs, Summarizes depsOf E G)
    (chained : BackLinked E.prevGroup sentinel (Gs.map tailOf)) (short : Gs.flatten.length ≤ len) :
    ∀ fuel linearization done, Gs.length < fuel →
      writeGroups E rev len fuel linearization done (lastTail Gs) =
        written rev len linearization done Gs.flatten.reverse := by
  induction Gs using List.reverseRecOn with
  | nil =>
    intro fuel linearization done enough
    obtain ⟨fuel, rfl⟩ : ∃ rest, fuel = rest + 1 := ⟨fuel - 1, by simp at enough; omega⟩
    rw [writeGroups, if_neg (by simp [lastTail])]
    rfl
  | append_singleton Gs G ih =>
    intro fuel linearization done enough
    rw [List.map_append, List.map_singleton, backLinked_append_cons] at chained
    obtain ⟨front, link, -⟩ := chained
    have summary := summarizes G (by simp)
    rw [List.flatten_append, List.flatten_singleton, List.length_append] at short
    rw [List.length_append, List.length_singleton] at enough
    obtain ⟨fuel, rfl⟩ : ∃ rest, fuel = rest + 1 := ⟨fuel - 1, by omega⟩
    have last : lastTail (Gs ++ [G]) = tailOf G := by simp [lastTail]
    have next : tailOf G ≠ sentinel :=
      fun same => sentinel_notMem G (same ▸ tailOf_mem summary.nonempty)
    have link' : E.prevGroup (tailOf G) = lastTail Gs := link
    -- the last group first, then the groups before it
    rw [last, writeGroups, if_pos next,
      writeGroup_spec E rev len summary.linked summary.nonempty len _ _ (by omega), link',
      ih (fun H member => summarizes H (by simp [member])) front (by omega) fuel _ _ (by omega),
      show done + G.length = done + G.reverse.length by simp, ← written_append,
      List.flatten_append, List.flatten_singleton, List.reverse_append]

end WriteBack

/-! A pass. -/

/-- The transactions in the order a pass visits them: from the back in a backward pass. -/
def visitOrder (rev : Bool) (linearization : List ℕ) : List ℕ :=
  if rev then linearization.reverse else linearization

theorem length_visitOrder (rev : Bool) (linearization : List ℕ) :
    (visitOrder rev linearization).length = linearization.length := by
  cases rev <;> simp [visitOrder]

theorem getD_visitOrder (rev : Bool) {linearization : List ℕ} {i : ℕ} (inside : i < linearization.length) :
    linearization.getD (if rev then linearization.length - 1 - i else i) 0 =
      (visitOrder rev linearization).getD i 0 := by
  cases rev with
  | true =>
    simp only [visitOrder, if_true, List.getD_eq_getElem?_getD, List.getElem?_reverse inside]
  | false => rfl

theorem length_le_length_flatten : ∀ {Gs : List (List ℕ)}, (∀ G ∈ Gs, G ≠ []) →
    Gs.length ≤ Gs.flatten.length
  | [], _ => le_rfl
  | G :: Gs, nonempty => by
    have rest := length_le_length_flatten fun H member => nonempty H (List.mem_cons_of_mem G member)
    have first : 0 < G.length := List.length_pos_iff.mpr (nonempty G List.mem_cons_self)
    rw [List.flatten_cons, List.length_append, List.length_cons]
    omega

theorem getElem_notMem_take {l : List ℕ} (nodup : l.Nodup) {i : ℕ} (inside : i < l.length) :
    l[i] ∉ l.take i := by
  intro before
  have apart := List.disjoint_of_nodup_append ((List.take_append_drop i l).symm ▸ nodup)
  exact apart before (by rw [List.drop_eq_getElem_cons inside]; exact List.mem_cons_self)

section Pass

variable {T : Type} (arith : FeeFrac.Arith T) (depgraph : DepGraph) (rev : Bool) {r : ℕ → ℕ → Prop}

/-- The body of the `for` loop of a pass, at position `i`. -/
def insertStep (linearization : List ℕ) (entries : Entries) (i : ℕ) : Entries :=
  let len := linearization.length
  let idx := linearization.getD (if rev then len - 1 - i else i) 0
  let entries := newGroup depgraph rev entries idx
  mergeOrSwap arith (i + 1) entries (idx + 1) sentinel (entries.prevGroup (idx + 1))

theorem pass_eq (linearization : List ℕ) (entries : Entries) :
    pass arith depgraph rev linearization entries =
      let built := (List.range linearization.length).foldl (insertStep arith depgraph rev linearization)
        { entries with prevGroup := Function.update entries.prevGroup sentinel sentinel }
      (writeGroups built rev linearization.length (linearization.length + 1) linearization 0
        (built.prevGroup sentinel), built) := rfl

variable (stops : ∀ a, FeeFrac.higherFeerate arith a default = false)
  (respects : ∀ x y, r x y → y ∈ depsIn depgraph rev x) {linearization : List ℕ}
  (nodup : (visitOrder rev linearization).Nodup) (ordered : Ordered r (visitOrder rev linearization))

include stops respects nodup ordered

theorem insertStep_spec {i : ℕ} (inside : i < linearization.length) {E : Entries}
    {Gs : List (List ℕ)} (encodes : Encodes (depsIn depgraph rev) E Gs)
    (perm : Gs.flatten.Perm ((visitOrder rev linearization).take i)) (orderedGs : Ordered r Gs.flatten) :
    ∃ Gs', Encodes (depsIn depgraph rev) (insertStep arith depgraph rev linearization E i) Gs' ∧
      Gs'.flatten.Perm ((visitOrder rev linearization).take (i + 1)) ∧ Ordered r Gs'.flatten := by
  have inside' : i < (visitOrder rev linearization).length := by rwa [length_visitOrder]
  have fresh : (visitOrder rev linearization)[i] ∉ Gs.flatten :=
    fun member => getElem_notMem_take nodup inside' (perm.mem_iff.mp member)
  have encodesNew := encodes.newGroup fresh
  have prev := (encodesNew.chained_split (A := Gs) (B := [])).2.1
  have orderedNew : Ordered r (Gs ++ [[(visitOrder rev linearization)[i]]]).flatten := by
    rw [List.flatten_append, List.flatten_singleton]
    exact orderedGs.append_singleton fun y member must =>
      ordered.eq_of_mem_take inside' (perm.mem_iff.mp member) must
  obtain ⟨Gs', encodes', perm', ordered'⟩ :=
    mergeOrSwap_spec arith stops respects (i + 1) _ Gs [_] [] encodesNew orderedNew
  refine ⟨Gs', ?_, perm'.trans ?_, ordered'⟩
  · rw [insertStep, getD_visitOrder rev inside, List.getD_eq_getElem _ _ inside']
    exact prev ▸ encodes'
  · rw [List.flatten_append, List.flatten_singleton, List.take_add_one,
      List.getElem?_eq_getElem inside', Option.toList_some]
    exact perm.append_right _

theorem foldl_insertStep {E : Entries} (start : Encodes (depsIn depgraph rev) E []) :
    ∀ n ≤ linearization.length, ∃ Gs,
      Encodes (depsIn depgraph rev) ((List.range n).foldl (insertStep arith depgraph rev linearization) E) Gs ∧
        Gs.flatten.Perm ((visitOrder rev linearization).take n) ∧ Ordered r Gs.flatten := by
  intro n
  induction n with
  | zero => exact fun _ => ⟨[], start, by simp, List.Pairwise.nil⟩
  | succ n ih =>
    intro inside
    obtain ⟨Gs, encodes, perm, orderedGs⟩ := ih (by omega)
    rw [List.range_succ, List.foldl_append, List.foldl_cons, List.foldl_nil]
    exact insertStep_spec arith depgraph rev stops respects nodup ordered (by omega) encodes perm orderedGs

theorem pass_spec {E : Entries} (sentinelFeerate : E.feerate sentinel = default) :
    ∃ F, F.Perm (visitOrder rev linearization) ∧ Ordered r F ∧
      (pass arith depgraph rev linearization E).1 = (if rev then F.reverse else F) ∧
      (pass arith depgraph rev linearization E).2.feerate sentinel = default := by
  have start : Encodes (depsIn depgraph rev)
      { E with prevGroup := Function.update E.prevGroup sentinel sentinel } [] :=
    ⟨by simp, backLinked_nil, by simp [lastTail], List.nodup_nil, sentinelFeerate⟩
  obtain ⟨Gs, encodes, perm, orderedGs⟩ :=
    foldl_insertStep arith depgraph rev stops respects nodup ordered start linearization.length le_rfl
  rw [List.take_of_length_le (by rw [length_visitOrder])] at perm
  have length : Gs.flatten.length = linearization.length := by
    rw [perm.length_eq, length_visitOrder]
  have fewer := length_le_length_flatten encodes.nonempty
  refine ⟨Gs.flatten, perm, orderedGs, ?_, encodes.sentinelFeerate⟩
  rw [pass_eq]
  dsimp only
  rw [encodes.closed, writeGroups_spec _ rev _ encodes.summarizes encodes.chained length.le _ _ _
      (by omega), written_all _ _ _ (by rw [List.length_reverse, length])]
  cases rev <;> simp

end Pass

/-! Both passes. -/

section Both

variable {T : Type} (arith : FeeFrac.Arith T) (depgraph : DepGraph)

theorem postLinearize_spec (stops : ∀ a, FeeFrac.higherFeerate arith a default = false)
    (r₁ r₂ : ℕ → ℕ → Prop) (respects₁ : ∀ x y, r₁ x y → y ∈ depgraph.descendants x)
    (respects₂ : ∀ x y, r₂ x y → y ∈ depgraph.ancestors x) {linearization : List ℕ}
    (nodup : linearization.Nodup) (ordered : Ordered r₁ linearization.reverse)
    (carry : ∀ F : List ℕ, F.Perm linearization.reverse → Ordered r₁ F → Ordered r₂ F.reverse) :
    ∃ F, F.Perm linearization ∧ Ordered r₂ F ∧ postLinearize arith depgraph linearization = F := by
  obtain ⟨F₁, perm₁, ordered₁, output₁, sentinel₁⟩ :=
    pass_spec arith depgraph true stops respects₁ (List.nodup_reverse.mpr nodup) ordered
      (E := Entries.init) rfl
  rw [if_pos rfl] at output₁
  have backward : F₁.reverse.Perm linearization := by
    simpa using (List.reverse_perm F₁).trans (perm₁.trans (List.reverse_perm linearization))
  obtain ⟨F₂, perm₂, ordered₂, output₂, -⟩ :=
    pass_spec arith depgraph false stops respects₂
      (output₁ ▸ backward.nodup_iff.mpr nodup) (output₁ ▸ carry F₁ perm₁ ordered₁) sentinel₁
  rw [if_neg Bool.false_ne_true] at output₂
  refine ⟨F₂, perm₂.trans ?_, ordered₂, output₂⟩
  rw [visitOrder, if_neg Bool.false_ne_true, output₁]
  exact backward

/-- `PostLinearize` outputs a reordering of any linearization without repeats. It needs `>>` to
put no feerate above the empty one, or the cycle would run past the sentinel. -/
theorem postLinearize_perm (stops : ∀ a, FeeFrac.higherFeerate arith a default = false)
    {linearization : List ℕ} (nodup : linearization.Nodup) :
    (postLinearize arith depgraph linearization).Perm linearization := by
  have unordered : ∀ l : List ℕ, Ordered (fun _ _ => False) l :=
    fun l => List.pairwise_of_forall fun _ _ never => never.elim
  obtain ⟨F, perm, -, output⟩ := postLinearize_spec arith depgraph stops (fun _ _ => False)
    (fun _ _ => False) (fun _ _ never => never.elim) (fun _ _ never => never.elim) nodup
    (unordered _) fun F _ _ => unordered F.reverse
  exact output ▸ perm

theorem higherFeerate_int128_default (a : FeeFrac) :
    FeeFrac.higherFeerate FeeFrac.int128 a default = false := by
  have empty : (default : FeeFrac) = ⟨0, 0⟩ := rfl
  simp [empty, FeeFrac.higherFeerate, FeeFrac.int128, FeeFrac.mul]

theorem higherFeerate_fallback_default (a : FeeFrac) :
    FeeFrac.higherFeerate FeeFrac.fallback a default = false := by
  rw [FeeFrac.higherFeerate_fallback]
  exact higherFeerate_int128_default a

theorem postLinearize_perm_chainAndSingle :
    (∀ a, FeeFrac.higherFeerate FeeFrac.int128 a default = false) ∧ [2, 0, 1].Nodup ∧
      (postLinearize FeeFrac.int128 chainAndSingle [2, 0, 1]).Perm [2, 0, 1] :=
  ⟨higherFeerate_int128_default, by decide,
    postLinearize_perm FeeFrac.int128 chainAndSingle higherFeerate_int128_default (by decide)⟩

theorem ordered_of_precededByAncestors {linearization : List ℕ} (nodup : linearization.Nodup)
    (preceded : PrecededByAncestors depgraph linearization) :
    Ordered (fun x y => y ∈ depgraph.ancestors x) linearization := by
  unfold Ordered
  rw [List.pairwise_iff_getElem]
  intro i j inside inside' before ancestor
  by_contra other
  obtain ⟨k, earlier, same⟩ := List.mem_take_iff_getElem.mp (preceded i inside _ ancestor other)
  have atJ : k = j := (List.Nodup.getElem_inj_iff nodup).mp same
  omega

/-- `PostLinearize` keeps a topological linearization of a graph built by the `DepGraph`
interface topological. -/
theorem postLinearize_topological {size : ℕ} (built : Reachable size depgraph)
    (stops : ∀ a, FeeFrac.higherFeerate arith a default = false) {linearization : List ℕ}
    (nodup : linearization.Nodup) (covers : linearization.toFinset = depgraph.positions)
    (preceded : PrecededByAncestors depgraph linearization) :
    PrecededByAncestors depgraph (postLinearize arith depgraph linearization) := by
  obtain ⟨U, fee, R, -, rep⟩ := built.represents
  have inside : ∀ x, x ∈ linearization ↔ x ∈ U := fun x => by
    rw [← List.mem_toFinset, covers, rep.positions]
  -- within the positions, descendants and ancestors are the two sides of one relation
  have converse : ∀ x ∈ U, ∀ y ∈ U, y ∈ depgraph.descendants x ↔ x ∈ depgraph.ancestors y := by
    intro x xU y yU
    rw [rep.descendants x xU, rep.ancestors y yU]
    simp [xU, yU]
  have reversed : Ordered (fun x y => y ∈ depgraph.descendants x) linearization.reverse :=
    (ordered_of_precededByAncestors depgraph nodup preceded).reverse fun x xIn y yIn below =>
      (converse y ((inside y).mp yIn) x ((inside x).mp xIn)).mp below
  obtain ⟨F, perm, ordered, output⟩ := postLinearize_spec arith depgraph stops
    (fun x y => y ∈ depgraph.descendants x) (fun x y => y ∈ depgraph.ancestors x)
    (fun _ _ below => below) (fun _ _ above => above) nodup reversed fun F permF orderedF =>
      orderedF.reverse fun x xIn y yIn above =>
        have xU := (inside x).mp (List.mem_reverse.mp (permF.mem_iff.mp xIn))
        have yU := (inside y).mp (List.mem_reverse.mp (permF.mem_iff.mp yIn))
        (converse x xU y yU).mpr above
  have nodupF := perm.nodup_iff.mpr nodup
  rw [output]
  refine precededByAncestors_of_pairwise rep (fun x => perm.mem_iff.trans (inside x)) ?_
  -- a later element that is an ancestor would be the element itself
  refine (ordered.and nodupF).imp_of_mem fun {a b} aIn bIn ⟨later, apart⟩ related => apart ?_
  have aU := (inside a).mp (perm.mem_iff.mp aIn)
  have bU := (inside b).mp (perm.mem_iff.mp bIn)
  exact (later ((rep.ancestors a aU b).mpr ⟨bU, related⟩)).symm

theorem postLinearize_topological_chainAndSingle :
    (∀ a, FeeFrac.higherFeerate FeeFrac.int128 a default = false) ∧ [0, 2, 1].Nodup ∧
      [0, 2, 1].toFinset = chainAndSingle.positions ∧ PrecededByAncestors chainAndSingle [0, 2, 1] ∧
      PrecededByAncestors chainAndSingle (postLinearize FeeFrac.int128 chainAndSingle [0, 2, 1]) := by
  have preceded : PrecededByAncestors chainAndSingle [0, 2, 1] := by
    unfold PrecededByAncestors
    decide
  exact ⟨higherFeerate_int128_default, by decide, by decide, preceded,
    postLinearize_topological FeeFrac.int128 chainAndSingle reachable_chainAndSingle
      higherFeerate_int128_default (by decide) (by decide) preceded⟩

/-- Transaction `2`, of a lower feerate than the chunk `{0, 1}`, moves after it. -/
example : postLinearize FeeFrac.int128 chainAndSingle [2, 0, 1] = [0, 1, 2] := by decide

end Both

end PostLinearize

end Freycoin.Cluster
