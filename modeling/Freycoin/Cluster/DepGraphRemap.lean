import Freycoin.Cluster.DepGraphSpec

/-! The remapping constructor `DepGraph(depgraph, mapping, pos_range)`. -/

namespace Freycoin.Cluster

open RelationOn

namespace DepGraph

variable {depgraph : DepGraph} {U : Finset ℕ} {fee : ℕ → FeeFrac} {R : ℕ → ℕ → Prop}
  {mapping : List ℕ} {posRange : ℕ}

/-- What the first loop has built after visiting the positions `done`. -/
structure PositionsDone (depgraph : DepGraph) (mapping : List ℕ) (posRange : ℕ)
    (done : List ℕ) (g : DepGraph) : Prop where
  length : g.entries.length = posRange
  used : g.used = (done.map (mapping.getD · 0)).toFinset
  added : ∀ i ∈ done, g.entries.getD (mapping.getD i 0) default =
    ⟨depgraph.feeRate i, {mapping.getD i 0}, {mapping.getD i 0}⟩
  untouched : ∀ k, (∀ i ∈ done, mapping.getD i 0 ≠ k) → g.entries.getD k default = default

theorem positionsDone_start :
    PositionsDone depgraph mapping posRange [] ⟨List.replicate posRange default, ∅⟩ where
  length := List.length_replicate
  used := rfl
  added := by simp
  untouched := by
    intro k _
    rw [List.getD_eq_getElem?_getD, List.getElem?_replicate]
    split_ifs <;> rfl

theorem PositionsDone.remapPosition {done : List ℕ} {g : DepGraph}
    (inv : PositionsDone depgraph mapping posRange done g)
    (injective : Set.InjOn (mapping.getD · 0) U) (sub : ∀ i ∈ done, i ∈ U) {x : ℕ}
    (member : x ∈ U) (inRange : mapping.getD x 0 < posRange) :
    PositionsDone depgraph mapping posRange (done ++ [x]) (depgraph.remapPosition mapping g x) := by
  have inLength : mapping.getD x 0 < g.entries.length := by
    rw [inv.length]
    exact inRange
  constructor
  · rw [DepGraph.remapPosition, List.length_set, inv.length]
  · rw [DepGraph.remapPosition, inv.used, List.map_append, List.toFinset_append]
    ext k
    simp
  · intro i done'
    rcases List.mem_append.mp done' with earlier | last
    · -- a position mapped to the same place is `x` itself, since the map is injective on `U`
      by_cases same : mapping.getD x 0 = mapping.getD i 0
      · have : x = i := injective member (sub i earlier) same
        subst this
        exact getD_set_of_lt _ _ inLength
      · rw [DepGraph.remapPosition, getD_set_of_ne _ _ same, inv.added i earlier]
    · rw [List.mem_singleton.mp last]
      exact getD_set_of_lt _ _ inLength
  · intro k away
    have other : mapping.getD x 0 ≠ k :=
      away x (List.mem_append_right done (List.mem_singleton_self x))
    rw [DepGraph.remapPosition, getD_set_of_ne _ _ other]
    exact inv.untouched k fun i member' => away i (List.mem_append_left [x] member')

theorem positionsDone_foldl (injective : Set.InjOn (mapping.getD · 0) U)
    (inRange : ∀ i ∈ U, mapping.getD i 0 < posRange) (done : List ℕ) (sub : ∀ i ∈ done, i ∈ U) :
    PositionsDone depgraph mapping posRange done
      (done.foldl (depgraph.remapPosition mapping) ⟨List.replicate posRange default, ∅⟩) := by
  induction done using List.reverseRecOn with
  | nil => exact positionsDone_start
  | append_singleton done x ih =>
      have earlier : ∀ i ∈ done, i ∈ U := fun i member => sub i (List.mem_append_left _ member)
      have last : x ∈ U := sub x (List.mem_append_right _ (List.mem_singleton_self x))
      rw [List.foldl_append, List.foldl_cons, List.foldl_nil]
      exact (ih earlier).remapPosition injective earlier last (inRange x last)

theorem remapPositions_spec (rep : Represents depgraph U fee R)
    (injective : Set.InjOn (mapping.getD · 0) U)
    (range : posRange = U.sup fun i => mapping.getD i 0 + 1) :
    Represents (depgraph.remapPositions mapping posRange) (U.image (mapping.getD · 0))
        (depgraph.remapPositions mapping posRange).feeRate
        (fun a b => a = b ∧ a ∈ U.image (mapping.getD · 0)) ∧
      ∀ i ∈ U, (depgraph.remapPositions mapping posRange).feeRate (mapping.getD i 0) = fee i := by
  have inRange : ∀ i ∈ U, mapping.getD i 0 < posRange := fun i member => by
    have bound : mapping.getD i 0 + 1 ≤ U.sup fun i => mapping.getD i 0 + 1 :=
      @Finset.le_sup _ _ _ _ U (fun i => mapping.getD i 0 + 1) i member
    rw [range]
    exact bound
  have inv : PositionsDone depgraph mapping posRange _ _ := positionsDone_foldl injective inRange
    (members depgraph.positions) fun i member => rep.positions ▸ mem_members.mp member
  have added : ∀ i ∈ U, (depgraph.remapPositions mapping posRange).entries.getD
      (mapping.getD i 0) default =
        ⟨depgraph.feeRate i, {mapping.getD i 0}, {mapping.getD i 0}⟩ := fun i member =>
    inv.added i (mem_members.mpr (rep.positions ▸ member))
  -- a mapped position reads the singleton entry the loop wrote there
  have single : ∀ k ∈ U.image (mapping.getD · 0), ∀ j,
      (j ∈ (depgraph.remapPositions mapping posRange).ancestors k ↔ j = k) ∧
        (j ∈ (depgraph.remapPositions mapping posRange).descendants k ↔ j = k) := by
    intro k member j
    obtain ⟨i, inside, rfl⟩ := Finset.mem_image.mp member
    rw [ancestors, descendants, added i inside, Finset.mem_singleton]
    exact ⟨Iff.rfl, Iff.rfl⟩
  refine ⟨⟨?_, ?_, fun _ _ => rfl, ?_, ?_⟩, ?_⟩
  · show (depgraph.remapPositions mapping posRange).used = _
    rw [remapPositions, inv.used]
    ext k
    simp [rep.positions]
  · rw [positionRange, remapPositions, inv.length, range, Finset.sup_image]
    rfl
  · intro k member j
    rw [(single k member j).1]
    exact ⟨fun same => ⟨same ▸ member, same, same ▸ member⟩, fun related => related.2.1⟩
  · intro k member j
    rw [(single k member j).2]
    exact ⟨fun same => ⟨same ▸ member, same.symm, member⟩, fun related => related.2.1.symm⟩
  · intro i member
    rw [feeRate, added i member]
    exact rep.feeRate i member

theorem reducedParents_spec (rep : Represents depgraph U fee R) (order : PreorderOn U R) {i : ℕ}
    (member : i ∈ U) :
    (∀ s ∈ depgraph.getReducedParents i, s ∈ U ∧ R s i ∧ s ≠ i) ∧
      ∀ j, R j i → j = i ∨ ∃ s ∈ depgraph.getReducedParents i, R j s := by
  -- the ancestor sets `GetReducedParents` reads are reflexive and transitive
  have closed : ∀ p ∈ (depgraph.ancestors i).erase i, p ∈ depgraph.ancestors p ∧
      ∀ y ∈ depgraph.ancestors p, depgraph.ancestors y ⊆ depgraph.ancestors p := by
    intro p below
    have pIn := ((rep.ancestors i member p).mp (Finset.mem_of_mem_erase below)).1
    refine ⟨rep.self_ancestor order pIn, fun y yp x xy => ?_⟩
    have yp' := (rep.ancestors p pIn y).mp yp
    have xy' := (rep.ancestors y yp'.1 x).mp xy
    exact (rep.ancestors p pIn x).mpr ⟨xy'.1, order.trans xy'.2 yp'.2⟩
  obtain ⟨sub, covers⟩ := getReducedParents_covers closed
  constructor
  · intro s reduced
    have below := sub reduced
    have related := (rep.ancestors i member s).mp (Finset.mem_of_mem_erase below)
    exact ⟨related.1, related.2, Finset.ne_of_mem_erase below⟩
  · intro j related
    by_cases same : j = i
    · exact Or.inl same
    · have below : j ∈ (depgraph.ancestors i).erase i := Finset.mem_erase.mpr
        ⟨same, (rep.ancestors i member j).mpr ⟨(order.support related).1, related⟩⟩
      obtain ⟨s, reduced, js⟩ := covers j below
      have sIn := (sub reduced)
      have sU := ((rep.ancestors i member s).mp (Finset.mem_of_mem_erase sIn)).1
      exact Or.inr ⟨s, reduced, ((rep.ancestors s sU j).mp js).2⟩

/-- What the second loop has built after visiting the positions `done`: a graph representing
a preorder `Q` on the mapped positions, inside the image of `R`, that holds along every
reduced-parent edge of the visited positions. -/
structure DependenciesDone (depgraph : DepGraph) (mapping : List ℕ) (V : Finset ℕ)
    (fee' : ℕ → FeeFrac) (R : ℕ → ℕ → Prop) (done : List ℕ) (g : DepGraph)
    (Q : ℕ → ℕ → Prop) : Prop where
  represents : Represents g V fee' Q
  preorder : PreorderOn V Q
  inside : ∀ {a b}, Q a b → image (mapping.getD · 0) R a b
  edges : ∀ i ∈ done, ∀ s ∈ depgraph.getReducedParents i, Q (mapping.getD s 0) (mapping.getD i 0)

theorem DependenciesDone.remapDependency {fee' : ℕ → FeeFrac} {done : List ℕ} {g : DepGraph}
    {Q : ℕ → ℕ → Prop}
    (inv : DependenciesDone depgraph mapping (U.image (mapping.getD · 0)) fee' R done g Q)
    (rep : Represents depgraph U fee R) (order : PartialOrderOn U R)
    (injective : Set.InjOn (mapping.getD · 0) U) {i : ℕ} (member : i ∈ U) :
    DependenciesDone depgraph mapping (U.image (mapping.getD · 0)) fee' R (done ++ [i])
      (depgraph.remapDependency mapping g i)
      (addEdges Q ((depgraph.getReducedParents i).image (mapping.getD · 0)) (mapping.getD i 0)) := by
  obtain ⟨parentsOf, -⟩ := reducedParents_spec rep order.toPreorderOn member
  have parents : (depgraph.getReducedParents i).image (mapping.getD · 0) ⊆
      U.image (mapping.getD · 0) :=
    Finset.image_subset_image fun s reduced => (parentsOf s reduced).1
  constructor
  · exact addDependencies_spec inv.represents inv.preorder parents
      (Finset.mem_image_of_mem _ member)
  · exact inv.preorder.addEdges
  · rintro a d (ad | ⟨p, parent, ap, cd⟩)
    · exact inv.inside ad
    · -- `a` below the image of a reduced parent `s`, and `d` above the image of `i`
      obtain ⟨s, reduced, rfl⟩ := Finset.mem_image.mp parent
      obtain ⟨x, y, xy, rfl, ys⟩ := inv.inside ap
      obtain ⟨i', w, iw, ii, rfl⟩ := inv.inside cd
      have yEq : y = s := injective (order.support xy).2 (parentsOf s reduced).1 ys
      have iEq : i' = i := injective (order.support iw).1 member ii
      subst yEq iEq
      exact ⟨x, w, order.trans xy (order.trans (parentsOf y reduced).2.1 iw), rfl, rfl⟩
  · intro j visited s reduced
    rcases List.mem_append.mp visited with earlier | last
    · exact Or.inl (inv.edges j earlier s reduced)
    · cases List.mem_singleton.mp last
      have sIn := Finset.mem_image_of_mem (mapping.getD · 0) (parentsOf s reduced).1
      exact Or.inr ⟨mapping.getD s 0, Finset.mem_image_of_mem _ reduced,
        inv.preorder.refl _ sIn, inv.preorder.refl _ (Finset.mem_image_of_mem _ member)⟩

theorem dependenciesDone_foldl {fee' : ℕ → FeeFrac} {g : DepGraph} {Q : ℕ → ℕ → Prop}
    (start : DependenciesDone depgraph mapping (U.image (mapping.getD · 0)) fee' R [] g Q)
    (rep : Represents depgraph U fee R) (order : PartialOrderOn U R)
    (injective : Set.InjOn (mapping.getD · 0) U) (done : List ℕ) (sub : ∀ i ∈ done, i ∈ U) :
    ∃ Q', DependenciesDone depgraph mapping (U.image (mapping.getD · 0)) fee' R done
      (done.foldl (depgraph.remapDependency mapping) g) Q' := by
  induction done using List.reverseRecOn with
  | nil => exact ⟨Q, start⟩
  | append_singleton done x ih =>
      have earlier : ∀ i ∈ done, i ∈ U := fun i member => sub i (List.mem_append_left _ member)
      have last : x ∈ U := sub x (List.mem_append_right _ (List.mem_singleton_self x))
      obtain ⟨Q', inv⟩ := ih earlier
      rw [List.foldl_append, List.foldl_cons, List.foldl_nil]
      exact ⟨_, inv.remapDependency rep order injective last⟩

theorem remap_spec (rep : Represents depgraph U fee R) (order : PartialOrderOn U R)
    (injective : Set.InjOn (mapping.getD · 0) U)
    (range : posRange = U.sup fun i => mapping.getD i 0 + 1) :
    ∃ fee' : ℕ → FeeFrac, (∀ i ∈ U, fee' (mapping.getD i 0) = fee i) ∧
      Represents (depgraph.remap mapping posRange) (U.image (mapping.getD · 0)) fee'
        (image (mapping.getD · 0) R) := by
  obtain ⟨placed, fees⟩ := remapPositions_spec rep injective range
  have start : DependenciesDone depgraph mapping (U.image (mapping.getD · 0))
      (depgraph.remapPositions mapping posRange).feeRate R []
      (depgraph.remapPositions mapping posRange)
      (fun a b => a = b ∧ a ∈ U.image (mapping.getD · 0)) := by
    constructor
    · exact placed
    · exact ⟨fun ⟨same, member⟩ => ⟨member, same ▸ member⟩, fun a member => ⟨rfl, member⟩,
        fun ⟨ab, member⟩ ⟨bc, _⟩ => ⟨ab.trans bc, member⟩⟩
    · rintro a b ⟨rfl, member⟩
      obtain ⟨i, inside, rfl⟩ := Finset.mem_image.mp member
      exact ⟨i, i, order.refl i inside, rfl, rfl⟩
    · intro i visited
      simp at visited
  obtain ⟨Q, final⟩ := dependenciesDone_foldl start rep order injective
    (members depgraph.positions) fun i member => rep.positions ▸ mem_members.mp member
  refine ⟨_, fees, ?_⟩
  -- `Q` is the image: inside it by the invariant, and all of it by `le_of_covers`
  have generated : ∀ y ∈ U, ∀ x, R x y → Q (mapping.getD x 0) (mapping.getD y 0) :=
    le_of_covers order depgraph.getReducedParents
      (fun i member s reduced =>
        ⟨((reducedParents_spec rep order.toPreorderOn member).1 s reduced).2.1,
          ((reducedParents_spec rep order.toPreorderOn member).1 s reduced).2.2⟩)
      (fun i member => (reducedParents_spec rep order.toPreorderOn member).2)
      (fun i member => final.preorder.refl _ (Finset.mem_image_of_mem _ member))
      final.preorder.trans
      (fun i member => final.edges i (mem_members.mpr (rep.positions ▸ member)))
  exact final.represents.congr fun a _ b _ => ⟨final.inside, fun ⟨x, y, xy, ax, dy⟩ =>
    ax ▸ dy ▸ generated y (order.support xy).2 x xy⟩

end DepGraph

end Freycoin.Cluster
