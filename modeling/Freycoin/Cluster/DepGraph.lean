import Mathlib
import Freycoin.Cluster.FeeFrac

/-! `DepGraph` of `cluster_linearize.h`: a transaction graph stored as ancestor and
descendant sets per position, with the positions in use in `m_used`.

`SetType` is a `Finset ℕ` with the capacity `size`, and `for (auto i : set)` visits the positions in
increasing order. An index out of `entries` reads the default entry; a write there changes
nothing. -/

namespace Freycoin.Cluster

/-- `DepGraph::Entry`: the feerate and the ancestor and descendant sets, each including the
transaction itself. -/
structure Entry where
  feerate : FeeFrac
  ancestors : Finset ℕ
  descendants : Finset ℕ
  deriving DecidableEq

instance : Inhabited Entry := ⟨⟨default, ∅, ∅⟩⟩

structure DepGraph where
  entries : List Entry
  used : Finset ℕ

/-- The positions of a set in increasing order, as the bitset iterator visits them. -/
def members (s : Finset ℕ) : List ℕ :=
  (List.range (s.sup (· + 1))).filter (· ∈ s)

/-- `entries[i].descendants |= extra`. -/
def addDescendants (extra : Finset ℕ) (entry : Entry) : Entry :=
  { entry with descendants := entry.descendants ∪ extra }

/-- `entries[i].ancestors |= extra`. -/
def addAncestors (extra : Finset ℕ) (entry : Entry) : Entry :=
  { entry with ancestors := entry.ancestors ∪ extra }

namespace DepGraph

def positions (g : DepGraph) : Finset ℕ := g.used

def positionRange (g : DepGraph) : ℕ := g.entries.length

def feeRate (g : DepGraph) (i : ℕ) : FeeFrac := (g.entries.getD i default).feerate

def ancestors (g : DepGraph) (i : ℕ) : Finset ℕ := (g.entries.getD i default).ancestors

def descendants (g : DepGraph) (i : ℕ) : Finset ℕ := (g.entries.getD i default).descendants

/-- `FeeRate(elems)`: the feerates of a set's positions, added in increasing order. -/
def feeRateOfSet (g : DepGraph) (elems : Finset ℕ) : FeeFrac :=
  (members elems).foldl (fun ret pos => ret + g.feeRate pos) default

def empty : DepGraph := ⟨[], ∅⟩

/-- `AddTransaction`: the first position of `ALL_POSITIONS - m_used` gets an entry related
only to itself; `none` where `Assume(available.Any())` fails. -/
def addTransaction (size : ℕ) (feefrac : FeeFrac) (g : DepGraph) : Option (DepGraph × ℕ) :=
  let available := Finset.range size \ g.used
  if nonempty : available.Nonempty then
    let newIdx := available.min' nonempty
    let entry : Entry := ⟨feefrac, {newIdx}, {newIdx}⟩
    let entries :=
      if newIdx = g.entries.length then g.entries ++ [entry] else g.entries.set newIdx entry
    some (⟨entries, insert newIdx g.used⟩, newIdx)
  else none

/-- The length the loop of `RemoveTransactions` leaves to `entries`: it pops the last entry
while that position is unused. -/
def keptLength (used : Finset ℕ) : ℕ → ℕ
  | 0 => 0
  | k + 1 => if k ∈ used then k + 1 else keptLength used k

def removeTransactions (del : Finset ℕ) (g : DepGraph) : DepGraph :=
  let used := g.used \ del
  let entries := g.entries.take (keptLength used g.entries.length)
  -- the deleted positions keep their old entries until `AddTransaction` reuses them
  ⟨entries.map fun entry =>
    { entry with ancestors := entry.ancestors ∩ used, descendants := entry.descendants ∩ used },
    used⟩

/-- `par_anc` of `AddDependencies`: the ancestors of the new parents that are not already
ancestors of the child. -/
def parentAncestors (g : DepGraph) (parents : Finset ℕ) (child : ℕ) : Finset ℕ :=
  (parents \ g.ancestors child).biUnion g.ancestors \ g.ancestors child

def addDependencies (parents : Finset ℕ) (child : ℕ) (g : DepGraph) : DepGraph :=
  let parAnc := g.parentAncestors parents child
  -- Bail out if there are no such ancestors.
  if parAnc = ∅ then g
  else
    -- `chl_des` is a reference to `entries[child].descendants`, read again at each step
    let entries := (members parAnc).foldl
      (fun entries ancOfPar =>
        entries.modify ancOfPar (addDescendants (entries.getD child default).descendants))
      g.entries
    let entries := (members (entries.getD child default).descendants).foldl
      (fun entries decOfChl => entries.modify decOfChl (addAncestors parAnc)) entries
    { g with entries := entries }

/-- One pass of `GetReducedParents`: a parent still in the set stays, and its own ancestors
leave. -/
def reduceParent (g : DepGraph) (parents : Finset ℕ) (parent : ℕ) : Finset ℕ :=
  if parent ∈ parents then insert parent (parents \ g.ancestors parent) else parents

def getReducedParents (g : DepGraph) (i : ℕ) : Finset ℕ :=
  let parents := (g.ancestors i).erase i
  (members parents).foldl g.reduceParent parents

def isAcyclic (g : DepGraph) : Bool :=
  (members g.positions).all fun i => decide (g.ancestors i ∩ g.descendants i = {i})

/-- One pass of the first loop of the remapping constructor `DepGraph(depgraph, mapping,
pos_range)`: the used position `i` of `depgraph` is added at `mapping[i]` with its feerate and
no dependencies. -/
def remapPosition (depgraph : DepGraph) (mapping : List ℕ) (g : DepGraph) (i : ℕ) : DepGraph :=
  let newIdx := mapping.getD i 0
  ⟨g.entries.set newIdx ⟨depgraph.feeRate i, {newIdx}, {newIdx}⟩, insert newIdx g.used⟩

/-- The first loop, over `entries(pos_range)`. -/
def remapPositions (depgraph : DepGraph) (mapping : List ℕ) (posRange : ℕ) : DepGraph :=
  (members depgraph.positions).foldl (depgraph.remapPosition mapping)
    ⟨List.replicate posRange default, ∅⟩

/-- One pass of the second loop: the mapped reduced parents of `i` become dependencies of
`mapping[i]`. -/
def remapDependency (depgraph : DepGraph) (mapping : List ℕ) (g : DepGraph) (i : ℕ) : DepGraph :=
  g.addDependencies ((depgraph.getReducedParents i).image (mapping.getD · 0)) (mapping.getD i 0)

def remapDependencies (depgraph : DepGraph) (mapping : List ℕ) (g : DepGraph) : DepGraph :=
  (members depgraph.positions).foldl (depgraph.remapDependency mapping) g

def remap (depgraph : DepGraph) (mapping : List ℕ) (posRange : ℕ) : DepGraph :=
  remapDependencies depgraph mapping (remapPositions depgraph mapping posRange)

def txCount (g : DepGraph) : ℕ := g.used.card

/-- The comparator of `AppendTopo`'s `std::sort`: fewer ancestors first, then lower position. -/
def topoBefore (g : DepGraph) (a b : ℕ) : Bool :=
  let aAncCount := (g.ancestors a).card
  let bAncCount := (g.ancestors b).card
  if aAncCount ≠ bAncCount then decide (aAncCount < bAncCount) else decide (a < b)

/-- `AppendTopo(list, select)`. The comparator orders distinct positions strictly, so the sorted
block is the one insertion sort computes with the order `!comp(b, a)`. -/
def appendTopo (g : DepGraph) (list : List ℕ) (select : Finset ℕ) : List ℕ :=
  list ++ (members select).insertionSort fun a b => g.topoBefore b a = false

@[simp] theorem positions_mk (entries : List Entry) (used : Finset ℕ) :
    (⟨entries, used⟩ : DepGraph).positions = used := rfl

theorem ancestors_eq (g : DepGraph) (i : ℕ) :
    g.ancestors i = (g.entries[i]?.getD default).ancestors := by
  rw [ancestors, List.getD_eq_getElem?_getD]

theorem descendants_eq (g : DepGraph) (i : ℕ) :
    g.descendants i = (g.entries[i]?.getD default).descendants := by
  rw [descendants, List.getD_eq_getElem?_getD]

theorem feeRate_eq (g : DepGraph) (i : ℕ) : g.feeRate i = (g.entries[i]?.getD default).feerate := by
  rw [feeRate, List.getD_eq_getElem?_getD]

theorem ancestors_of_lt {g : DepGraph} {i : ℕ} (inRange : i < g.entries.length) :
    g.ancestors i = g.entries[i].ancestors := by
  rw [ancestors_eq, List.getElem?_eq_getElem inRange, Option.getD_some]

theorem descendants_of_lt {g : DepGraph} {i : ℕ} (inRange : i < g.entries.length) :
    g.descendants i = g.entries[i].descendants := by
  rw [descendants_eq, List.getElem?_eq_getElem inRange, Option.getD_some]

end DepGraph

@[simp] theorem mem_members {s : Finset ℕ} {x : ℕ} : x ∈ members s ↔ x ∈ s := by
  unfold members
  rw [List.mem_filter, List.mem_range, decide_eq_true_eq]
  constructor
  · exact fun inside => inside.2
  · intro member
    have bound : x + 1 ≤ s.sup (· + 1) := Finset.le_sup member
    exact ⟨Nat.lt_of_succ_le bound, member⟩

theorem nodup_members (s : Finset ℕ) : (members s).Nodup :=
  List.nodup_range.filter _

theorem sorted_members (s : Finset ℕ) : (members s).Pairwise (· < ·) :=
  List.pairwise_lt_range.filter _

@[simp] theorem addDescendants_feerate (extra : Finset ℕ) (entry : Entry) :
    (addDescendants extra entry).feerate = entry.feerate := rfl

@[simp] theorem addDescendants_ancestors (extra : Finset ℕ) (entry : Entry) :
    (addDescendants extra entry).ancestors = entry.ancestors := rfl

@[simp] theorem addDescendants_descendants (extra : Finset ℕ) (entry : Entry) :
    (addDescendants extra entry).descendants = entry.descendants ∪ extra := rfl

@[simp] theorem addAncestors_feerate (extra : Finset ℕ) (entry : Entry) :
    (addAncestors extra entry).feerate = entry.feerate := rfl

@[simp] theorem addAncestors_ancestors (extra : Finset ℕ) (entry : Entry) :
    (addAncestors extra entry).ancestors = entry.ancestors ∪ extra := rfl

@[simp] theorem addAncestors_descendants (extra : Finset ℕ) (entry : Entry) :
    (addAncestors extra entry).descendants = entry.descendants := rfl

theorem getElem?_foldl_modify {α : Type*} (f : α → α) (indices : List ℕ) (nodup : indices.Nodup)
    (l : List α) (j : ℕ) :
    (indices.foldl (fun l k => l.modify k f) l)[j]? = if j ∈ indices then l[j]?.map f else l[j]? := by
  induction indices generalizing l with
  | nil => simp
  | cons k rest ih =>
      rw [List.nodup_cons] at nodup
      rw [List.foldl_cons, ih nodup.2, List.getElem?_modify]
      by_cases here : j = k
      · subst here
        simp [nodup.1]
      · have : k ≠ j := fun same => here same.symm
        simp [here, this]

theorem length_foldl_modify {α : Type*} (f : List α → α → α) (indices : List ℕ) (l : List α) :
    (indices.foldl (fun l k => l.modify k (f l)) l).length = l.length := by
  induction indices generalizing l with
  | nil => rfl
  | cons k rest ih => rw [List.foldl_cons, ih, List.length_modify]

theorem foldl_addDescendants_of_notMem (child : ℕ) (indices : List ℕ) (notChild : child ∉ indices)
    (entries : List Entry) :
    indices.foldl (fun entries k =>
        entries.modify k (addDescendants (entries.getD child default).descendants)) entries =
      indices.foldl (fun l k => l.modify k (addDescendants (entries.getD child default).descendants))
        entries := by
  induction indices generalizing entries with
  | nil => rfl
  | cons k rest ih =>
      rw [List.mem_cons, not_or] at notChild
      have other : k ≠ child := fun same => notChild.1 same.symm
      have unchanged : (entries.modify k
          (addDescendants (entries.getD child default).descendants)).getD child default =
            entries.getD child default := by
        simp [List.getD_eq_getElem?_getD, other]
      rw [List.foldl_cons, List.foldl_cons, ih notChild.2, unchanged]

theorem getD_set_of_lt {α : Type*} {l : List α} {i : ℕ} (a d : α) (inRange : i < l.length) :
    (l.set i a).getD i d = a := by
  rw [List.getD_eq_getElem?_getD, List.getElem?_set_self inRange, Option.getD_some]

theorem getD_set_of_ne {α : Type*} {l : List α} {i j : ℕ} (a d : α) (other : i ≠ j) :
    (l.set i a).getD j d = l.getD j d := by
  rw [List.getD_eq_getElem?_getD, List.getD_eq_getElem?_getD, List.getElem?_set_ne other]

theorem getElem?_appendOrSet (entries : List Entry) (n : ℕ) (entry : Entry)
    (within : n ≤ entries.length) (i : ℕ) :
    (if n = entries.length then entries ++ [entry] else entries.set n entry)[i]? =
      if i = n then some entry else entries[i]? := by
  split_ifs with last here here
  · subst here last
    exact List.getElem?_concat_length
  · rcases Nat.lt_or_gt_of_ne (last ▸ here : i ≠ entries.length) with before | after
    · exact List.getElem?_append_left before
    · rw [List.getElem?_append_right after.le, List.getElem?_eq_none after.le]
      exact List.getElem?_eq_none (by simp; omega)
  · rw [List.getElem?_set, if_pos here.symm, if_pos (by omega)]
  · rw [List.getElem?_set, if_neg (fun same => here same.symm)]

namespace DepGraph

variable {g : DepGraph} {parents : Finset ℕ} {child : ℕ}

theorem child_notMem_parentAncestors (selfAncestor : child ∈ g.ancestors child) :
    child ∉ g.parentAncestors parents child := by
  rw [parentAncestors, Finset.mem_sdiff, not_and, not_not]
  exact fun _ => selfAncestor

theorem entries_addDependencies (selfAncestor : child ∈ g.ancestors child) (j : ℕ) :
    (g.addDependencies parents child).entries[j]? = g.entries[j]?.map fun entry =>
      addAncestors (if j ∈ g.descendants child then g.parentAncestors parents child else ∅)
        (addDescendants
          (if j ∈ g.parentAncestors parents child then g.descendants child else ∅) entry) := by
  have notChild : child ∉ g.parentAncestors parents child :=
    child_notMem_parentAncestors selfAncestor
  have notVisited : child ∉ members (g.parentAncestors parents child) :=
    fun member => notChild (mem_members.mp member)
  unfold addDependencies
  dsimp only
  by_cases none : g.parentAncestors parents child = ∅
  · -- nothing to add: every union is with the empty set
    rw [if_pos none, none]
    cases g.entries[j]? with
    | none => rfl
    | some entry =>
        cases entry
        simp [addAncestors, addDescendants]
  · rw [if_neg none, foldl_addDescendants_of_notMem child _ notVisited]
    have childEntry : (List.foldl (fun l k => l.modify k
        (addDescendants (g.entries.getD child default).descendants)) g.entries
          (members (g.parentAncestors parents child))).getD child default =
            g.entries.getD child default := by
      rw [List.getD_eq_getElem?_getD, List.getD_eq_getElem?_getD,
        getElem?_foldl_modify _ _ (nodup_members _), if_neg notVisited]
    dsimp only
    rw [childEntry, getElem?_foldl_modify _ _ (nodup_members _),
      getElem?_foldl_modify _ _ (nodup_members _)]
    cases g.entries[j]? with
    | none => simp
    | some entry =>
        simp only [mem_members, descendants, Option.map_some, List.getD_eq_getElem?_getD]
        split_ifs <;> cases entry <;> simp [addAncestors, addDescendants]

@[simp] theorem positions_addDependencies :
    (g.addDependencies parents child).positions = g.positions := by
  unfold addDependencies
  dsimp only
  split_ifs <;> rfl

@[simp] theorem length_addDependencies :
    (g.addDependencies parents child).entries.length = g.entries.length := by
  unfold addDependencies
  dsimp only
  split_ifs
  · rfl
  · simp only [length_foldl_modify]

theorem ancestors_addDependencies (selfAncestor : child ∈ g.ancestors child) {j : ℕ}
    (inRange : j < g.entries.length) :
    (g.addDependencies parents child).ancestors j =
      if j ∈ g.descendants child then g.ancestors j ∪ g.parentAncestors parents child
      else g.ancestors j := by
  rw [ancestors_eq, entries_addDependencies selfAncestor, List.getElem?_eq_getElem inRange,
    ancestors_of_lt inRange]
  split_ifs <;> simp

theorem descendants_addDependencies (selfAncestor : child ∈ g.ancestors child) {j : ℕ}
    (inRange : j < g.entries.length) :
    (g.addDependencies parents child).descendants j =
      if j ∈ g.parentAncestors parents child then g.descendants j ∪ g.descendants child
      else g.descendants j := by
  rw [descendants_eq, entries_addDependencies selfAncestor, List.getElem?_eq_getElem inRange,
    descendants_of_lt inRange]
  split_ifs <;> simp

example : (DepGraph.addDependencies {0} 1
    ⟨[⟨⟨5, 1⟩, {0}, {0}⟩, ⟨⟨7, 2⟩, {1}, {1}⟩], {1, 0}⟩).ancestors 1 = {0, 1} := by
  decide

theorem feeRate_addDependencies (selfAncestor : child ∈ g.ancestors child) (j : ℕ) :
    (g.addDependencies parents child).feeRate j = g.feeRate j := by
  rw [feeRate_eq, entries_addDependencies selfAncestor, feeRate_eq]
  cases g.entries[j]? <;> simp

theorem addTransaction_isSome {size : ℕ} {feefrac : FeeFrac} {result : DepGraph × ℕ}
    (added : g.addTransaction size feefrac = some result) :
    (Finset.range size \ g.used).Nonempty := by
  by_contra full
  unfold addTransaction at added
  dsimp only at added
  rw [dif_neg full] at added
  cases added

theorem keptLength_le (used : Finset ℕ) (n : ℕ) : keptLength used n ≤ n := by
  induction n with
  | zero => rfl
  | succ n ih =>
      rw [keptLength]
      split_ifs <;> omega

theorem keptLength_eq_sup (used : Finset ℕ) (n : ℕ) (below : ∀ u ∈ used, u < n) :
    keptLength used n = used.sup (· + 1) := by
  induction n with
  | zero =>
      have : used = ∅ := Finset.eq_empty_of_forall_notMem fun u member => by
        have := below u member
        omega
      rw [this]
      rfl
  | succ n ih =>
      rw [keptLength]
      split_ifs with last
      · apply le_antisymm
        · exact Finset.le_sup last
        · apply Finset.sup_le
          intro u member
          have := below u member
          show u + 1 ≤ n + 1
          omega
      · apply ih
        intro u member
        have := below u member
        have : u ≠ n := fun same => last (same ▸ member)
        omega

@[simp] theorem positions_removeTransactions (del : Finset ℕ) :
    (g.removeTransactions del).positions = g.positions \ del := rfl

theorem positionRange_removeTransactions (del : Finset ℕ) :
    (g.removeTransactions del).positionRange = keptLength (g.positions \ del) g.entries.length := by
  simp only [removeTransactions, positionRange, List.length_map, List.length_take, positions]
  exact Nat.min_eq_left (keptLength_le _ _)

theorem entry_removeTransactions (del : Finset ℕ) {j : ℕ}
    (kept : j < keptLength (g.positions \ del) g.entries.length) :
    (g.removeTransactions del).feeRate j = g.feeRate j ∧
      (g.removeTransactions del).ancestors j = g.ancestors j ∩ (g.positions \ del) ∧
      (g.removeTransactions del).descendants j = g.descendants j ∩ (g.positions \ del) := by
  have inRange : j < g.entries.length := Nat.lt_of_lt_of_le kept (keptLength_le _ _)
  have kept' : j < keptLength (g.used \ del) g.entries.length := kept
  simp [removeTransactions, feeRate_eq, ancestors_eq, descendants_eq, kept',
    List.getElem?_eq_getElem inRange, positions]

theorem reduceParent_covers {start parents : Finset ℕ} {parent : ℕ}
    (closed : ∀ p ∈ start, p ∈ g.ancestors p ∧ ∀ y ∈ g.ancestors p, g.ancestors y ⊆ g.ancestors p)
    (sub : parents ⊆ start) (covers : ∀ x ∈ start, ∃ s ∈ parents, x ∈ g.ancestors s) :
    g.reduceParent parents parent ⊆ start ∧
      ∀ x ∈ start, ∃ s ∈ g.reduceParent parents parent, x ∈ g.ancestors s := by
  unfold reduceParent
  split_ifs with present
  · constructor
    · intro s member
      rcases Finset.mem_insert.mp member with rfl | rest
      · exact sub present
      · exact sub (Finset.mem_sdiff.mp rest).1
    · intro x member
      obtain ⟨s, kept, below⟩ := covers x member
      -- a parent dropped here lies below `parent`, which stays and covers it
      by_cases dropped : s ∈ g.ancestors parent
      · exact ⟨parent, Finset.mem_insert_self _ _, (closed parent (sub present)).2 s dropped below⟩
      · exact ⟨s, Finset.mem_insert_of_mem (Finset.mem_sdiff.mpr ⟨kept, dropped⟩), below⟩
  · exact ⟨sub, covers⟩

theorem foldl_reduceParent_covers {start : Finset ℕ}
    (closed : ∀ p ∈ start, p ∈ g.ancestors p ∧ ∀ y ∈ g.ancestors p, g.ancestors y ⊆ g.ancestors p)
    (order : List ℕ) (parents : Finset ℕ) (sub : parents ⊆ start)
    (covers : ∀ x ∈ start, ∃ s ∈ parents, x ∈ g.ancestors s) :
    order.foldl g.reduceParent parents ⊆ start ∧
      ∀ x ∈ start, ∃ s ∈ order.foldl g.reduceParent parents, x ∈ g.ancestors s := by
  induction order generalizing parents with
  | nil => exact ⟨sub, covers⟩
  | cons parent rest ih =>
      obtain ⟨sub', covers'⟩ := @reduceParent_covers g start parents parent closed sub covers
      exact ih _ sub' covers'

theorem getReducedParents_covers {i : ℕ}
    (closed : ∀ p ∈ (g.ancestors i).erase i,
      p ∈ g.ancestors p ∧ ∀ y ∈ g.ancestors p, g.ancestors y ⊆ g.ancestors p) :
    g.getReducedParents i ⊆ (g.ancestors i).erase i ∧
      ∀ x ∈ (g.ancestors i).erase i, ∃ s ∈ g.getReducedParents i, x ∈ g.ancestors s :=
  foldl_reduceParent_covers closed _ _ (Finset.Subset.refl _)
    (fun x member => ⟨x, member, (closed x member).1⟩)

end DepGraph

end Freycoin.Cluster
