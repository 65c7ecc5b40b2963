import Freycoin.Cluster.PostLinearize
import Freycoin.Library.BackLinks
import Freycoin.Library.ListOrder

/-! What the entries of `PostLinearize` stand for: a list of groups of transactions. -/

namespace Freycoin.Cluster

namespace PostLinearize

open BackLinks ListOrder

/-- The entry of the first transaction of a group. -/
def firstOf (G : List ℕ) : ℕ := (G.map (· + 1)).headD sentinel

/-- The tail of a group: the entry of its last transaction. -/
def tailOf (G : List ℕ) : ℕ := (G.map (· + 1)).getLastD sentinel

/-- The tail of the last group, or the sentinel where there is none. -/
def lastTail (Gs : List (List ℕ)) : ℕ := (Gs.map tailOf).getLastD sentinel

/-- The tail of the first group, or the sentinel where there is none. -/
def firstTail (Gs : List (List ℕ)) : ℕ := (Gs.map tailOf).headD sentinel

/-- What the tail entry of the group `G` holds; `depsOf` gives the dependencies of a transaction
in the pass. -/
structure Summarizes (depsOf : ℕ → Finset ℕ) (entries : Entries) (G : List ℕ) : Prop where
  nonempty : G ≠ []
  linked : BackLinked entries.prevTx noPrevTx (G.map (· + 1))
  firstTx : entries.firstTx (tailOf G) = firstOf G
  group : entries.group (tailOf G) = G.toFinset
  deps : entries.deps (tailOf G) = G.toFinset.biUnion depsOf

/-- The entries hold the groups `Gs` in order, with the circle through the sentinel closed. -/
structure Encodes (depsOf : ℕ → Finset ℕ) (entries : Entries) (Gs : List (List ℕ)) : Prop where
  summarizes : ∀ G ∈ Gs, Summarizes depsOf entries G
  chained : BackLinked entries.prevGroup sentinel (Gs.map tailOf)
  closed : entries.prevGroup sentinel = lastTail Gs
  nodup : Gs.flatten.Nodup
  sentinelFeerate : entries.feerate sentinel = default

section Indices

variable {G P C : List ℕ} {A B Gs : List (List ℕ)}

theorem tailOf_singleton (t : ℕ) : tailOf [t] = t + 1 := rfl

theorem tailOf_append (nonempty : C ≠ []) : tailOf (P ++ C) = tailOf C := by
  obtain ⟨C', c, rfl⟩ := List.eq_nil_or_concat C |>.resolve_left nonempty
  simp [tailOf]

theorem firstOf_append (nonempty : P ≠ []) : firstOf (P ++ C) = firstOf P := by
  obtain ⟨p, P', rfl⟩ := List.exists_cons_of_ne_nil nonempty
  rfl

theorem tailOf_mem (nonempty : G ≠ []) : tailOf G ∈ G.map (· + 1) := by
  obtain ⟨G', t, rfl⟩ := List.eq_nil_or_concat G |>.resolve_left nonempty
  simp [tailOf]

theorem firstOf_mem (nonempty : G ≠ []) : firstOf G ∈ G.map (· + 1) := by
  obtain ⟨t, G', rfl⟩ := List.exists_cons_of_ne_nil nonempty
  simp [firstOf]

theorem sentinel_notMem (G : List ℕ) : sentinel ∉ G.map (· + 1) := by
  simp [sentinel]

theorem notMem_of_disjoint (apart : G.Disjoint C) {i : ℕ} (member : i ∈ G.map (· + 1)) :
    i ∉ C.map (· + 1) := by
  obtain ⟨t, inG, rfl⟩ := List.mem_map.mp member
  intro inC
  obtain ⟨u, uInC, same⟩ := List.mem_map.mp inC
  exact apart inG (Nat.succ_injective same ▸ uInC)

theorem lastTail_append_cons : lastTail (A ++ G :: B) = (B.map tailOf).getLastD (tailOf G) := by
  rw [lastTail, List.map_append, List.map_cons, getLastD_append, List.getLastD_cons]

theorem disjoint_of_nodup (nodup : (A ++ C :: B).flatten.Nodup) (member : G ∈ A ++ B) :
    G.Disjoint C := by
  rw [List.flatten_append, List.flatten_cons] at nodup
  rcases List.mem_append.mp member with inA | inB
  · have apart := List.disjoint_of_nodup_append nodup
    exact fun t inG inC => apart (List.mem_flatten_of_mem inA inG) (List.mem_append_left _ inC)
  · have apart := List.disjoint_of_nodup_append (List.nodup_append.mp nodup).2.1
    exact fun t inG inC => apart inC (List.mem_flatten_of_mem inB inG)

theorem nodup_of_nodup (nodup : (A ++ C :: B).flatten.Nodup) : C.Nodup := by
  rw [List.flatten_append, List.flatten_cons] at nodup
  exact (List.nodup_append.mp (List.nodup_append.mp nodup).2.1).1

end Indices

variable {depsOf : ℕ → Finset ℕ} {E : Entries} {G P C : List ℕ} {A B Gs : List (List ℕ)}

theorem Summarizes.frame (summary : Summarizes depsOf E G) {E' : Entries}
    (agree : ∀ i ∈ G.map (· + 1), E'.prevTx i = E.prevTx i ∧ E'.firstTx i = E.firstTx i ∧
      E'.group i = E.group i ∧ E'.deps i = E.deps i) :
    Summarizes depsOf E' G where
  nonempty := summary.nonempty
  linked := summary.linked.congr fun i member => (agree i member).1
  firstTx := (agree _ (tailOf_mem summary.nonempty)).2.1.trans summary.firstTx
  group := (agree _ (tailOf_mem summary.nonempty)).2.2.1.trans summary.group
  deps := (agree _ (tailOf_mem summary.nonempty)).2.2.2.trans summary.deps

namespace Encodes

theorem nonempty (encodes : Encodes depsOf E Gs) : ∀ G ∈ Gs, G ≠ [] :=
  fun G member => (encodes.summarizes G member).nonempty

theorem nodup_tails (encodes : Encodes depsOf E Gs) : (sentinel :: Gs.map tailOf).Nodup := by
  have disjoint := (List.nodup_flatten.mp encodes.nodup).2
  refine List.nodup_cons.mpr ⟨fun inTails => ?_, ?_⟩
  · obtain ⟨G, member, at_tail⟩ := List.mem_map.mp inTails
    exact sentinel_notMem G (at_tail ▸ tailOf_mem (encodes.nonempty G member))
  · rw [List.Nodup, List.pairwise_map]
    refine disjoint.imp_of_mem fun {G H} inG inH apart same => ?_
    exact notMem_of_disjoint apart (tailOf_mem (encodes.nonempty G inG))
      (same ▸ tailOf_mem (encodes.nonempty H inH))

theorem tailOf_notMem (encodes : Encodes depsOf E (A ++ G :: B)) :
    tailOf G ≠ sentinel ∧ tailOf G ∉ A.map tailOf ∧ tailOf G ∉ B.map tailOf := by
  have nodup := encodes.nodup_tails
  rw [List.map_append, List.map_cons] at nodup
  simp only [List.nodup_cons, List.nodup_middle, List.mem_cons, List.mem_append, not_or] at nodup
  exact ⟨fun same => nodup.1.2.1 same.symm, nodup.2.1.1, nodup.2.1.2⟩

theorem chained_split (encodes : Encodes depsOf E (A ++ G :: B)) :
    BackLinked E.prevGroup sentinel (A.map tailOf) ∧ E.prevGroup (tailOf G) = lastTail A ∧
      BackLinked E.prevGroup (tailOf G) (B.map tailOf) := by
  have chained := encodes.chained
  rw [List.map_append, List.map_cons, backLinked_append_cons] at chained
  exact chained

end Encodes

/-! The effect of each branch on the entries, one equation each. -/

section Effects

variable (E : Entries) (c n p : ℕ)

theorem mergeGroups_eq : mergeGroups E c p =
    (⟨Function.update E.prevTx (E.firstTx c) p, Function.update E.firstTx c (E.firstTx p),
      Function.update E.prevGroup c (E.prevGroup p), Function.update E.group c (E.group c ∪ E.group p),
      Function.update E.deps c (E.deps c ∪ E.deps p),
      Function.update E.feerate c (E.feerate c + E.feerate p)⟩, E.prevGroup p) := rfl

theorem swapGroups_eq : swapGroups E c n p =
    ⟨E.prevTx, E.firstTx, Function.update (Function.update (Function.update E.prevGroup n p) p c) c
      (E.prevGroup p), E.group, E.deps, E.feerate⟩ := rfl

end Effects

/-- The dependencies of a transaction in a pass: its descendants in a backward pass, its
ancestors in a forward one. -/
def depsIn (depgraph : DepGraph) (rev : Bool) (t : ℕ) : Finset ℕ :=
  if rev then depgraph.descendants t else depgraph.ancestors t

theorem newGroup_eq (depgraph : DepGraph) (rev : Bool) (E : Entries) (idx : ℕ) :
    newGroup depgraph rev E idx = ⟨Function.update E.prevTx (idx + 1) noPrevTx,
      Function.update E.firstTx (idx + 1) (idx + 1),
      Function.update (Function.update E.prevGroup (idx + 1) (E.prevGroup sentinel)) sentinel (idx + 1),
      Function.update E.group (idx + 1) {idx}, Function.update E.deps (idx + 1) (depsIn depgraph rev idx),
      Function.update E.feerate (idx + 1) (if rev then
        ⟨-(depgraph.feeRate idx).fee, (depgraph.feeRate idx).size⟩ else depgraph.feeRate idx)⟩ := rfl

/-! Each branch keeps the encoding. -/

theorem Encodes.newGroup {depgraph : DepGraph} {rev : Bool} (encodes : Encodes (depsIn depgraph rev) E Gs)
    {idx : ℕ} (fresh : idx ∉ Gs.flatten) :
    Encodes (depsIn depgraph rev) (newGroup depgraph rev E idx) (Gs ++ [[idx]]) := by
  have outside : ∀ G ∈ Gs, ∀ i ∈ G.map (· + 1), i ≠ idx + 1 := by
    rintro G member i inG rfl
    obtain ⟨t, inG', same⟩ := List.mem_map.mp inG
    exact fresh (List.mem_flatten_of_mem member (Nat.succ_injective same ▸ inG'))
  have tails : ∀ i ∈ Gs.map tailOf, i ≠ idx + 1 ∧ i ≠ sentinel := by
    intro i member
    obtain ⟨G, inGs, rfl⟩ := List.mem_map.mp member
    have nonempty := encodes.nonempty G inGs
    exact ⟨outside G inGs _ (tailOf_mem nonempty), fun same => sentinel_notMem G (same ▸ tailOf_mem nonempty)⟩
  have positive : idx + 1 ≠ sentinel := Nat.succ_ne_zero idx
  rw [newGroup_eq]
  refine ⟨fun G member => ?_, ?_, ?_, ?_, ?_⟩
  · rcases List.mem_append.mp member with old | single
    · refine (encodes.summarizes G old).frame fun i inG => ?_
      simp only [Function.update_of_ne (outside G old i inG), and_self]
    · rw [List.mem_singleton.mp single]
      refine ⟨List.cons_ne_nil idx [], ?_, ?_, ?_, ?_⟩
      · simp [noPrevTx]
      · simp only [tailOf_singleton, Function.update_self]
        rfl
      · simp only [tailOf_singleton, Function.update_self]
        simp
      · simp only [tailOf_singleton, Function.update_self]
        simp
  · rw [List.map_append, List.map_singleton, tailOf_singleton, backLinked_append_cons]
    refine ⟨(encodes.chained.congr fun i member => ?_), ?_, backLinked_nil⟩
    · simp only [Function.update_of_ne (tails i member).2, Function.update_of_ne (tails i member).1]
    · simp only [Function.update_of_ne positive, Function.update_self, encodes.closed]
      rfl
  · simp [lastTail, tailOf_singleton]
  · rw [List.flatten_append, List.flatten_singleton]
    exact List.nodup_append.mpr ⟨encodes.nodup, List.nodup_singleton idx,
      fun a member b single => by rw [List.mem_singleton.mp single]; rintro rfl; exact fresh member⟩
  · simp only [Function.update_of_ne positive.symm]
    exact encodes.sentinelFeerate

theorem Summarizes.mergeGroups (summaryP : Summarizes depsOf E P) (summaryC : Summarizes depsOf E C)
    (apart : P.Disjoint C) (nodupC : C.Nodup) :
    Summarizes depsOf (mergeGroups E (tailOf C) (tailOf P)).1 (P ++ C) where
  nonempty := List.append_ne_nil_of_left_ne_nil summaryP.nonempty C
  linked := by
    obtain ⟨c, C', rfl⟩ := List.exists_cons_of_ne_nil summaryC.nonempty
    have first : E.firstTx (tailOf (c :: C')) = c + 1 := summaryC.firstTx
    have rest := (backLinked_cons.mp summaryC.linked).2
    have notInP : c + 1 ∉ P.map (· + 1) :=
      notMem_of_disjoint apart.symm (List.mem_map_of_mem List.mem_cons_self)
    have notInRest : c + 1 ∉ C'.map (· + 1) := by
      simpa using (List.nodup_cons.mp nodupC).1
    rw [mergeGroups_eq, first, List.map_append, backLinked_append, List.map_cons, backLinked_cons]
    exact ⟨summaryP.linked.update _ notInP, Function.update_self .., rest.update _ notInRest⟩
  firstTx := by
    rw [mergeGroups_eq, tailOf_append summaryC.nonempty, firstOf_append summaryP.nonempty]
    simp only [Function.update_self]
    exact summaryP.firstTx
  group := by
    rw [mergeGroups_eq, tailOf_append summaryC.nonempty]
    simp only [Function.update_self]
    rw [summaryC.group, summaryP.group, List.toFinset_append, Finset.union_comm]
  deps := by
    rw [mergeGroups_eq, tailOf_append summaryC.nonempty]
    simp only [Function.update_self]
    rw [summaryC.deps, summaryP.deps, List.toFinset_append, Finset.union_biUnion, Finset.union_comm]

theorem Encodes.mergeGroups (encodes : Encodes depsOf E (A ++ P :: C :: B)) :
    Encodes depsOf (mergeGroups E (tailOf C) (tailOf P)).1 (A ++ (P ++ C) :: B) := by
  have encodesC : Encodes depsOf E ((A ++ [P]) ++ C :: B) := by simpa using encodes
  have summaryP := encodes.summarizes P (by simp)
  have summaryC := encodes.summarizes C (by simp)
  have nonemptyC := summaryC.nonempty
  obtain ⟨beforeP, linkP, -⟩ := encodes.chained_split
  obtain ⟨-, -, afterC⟩ := encodesC.chained_split
  obtain ⟨cNotSentinel, cNotBefore, cNotAfter⟩ := encodesC.tailOf_notMem
  refine ⟨fun G member => ?_, ?_, ?_, ?_, ?_⟩
  · by_cases merged : G = P ++ C
    · rw [merged]
      exact summaryP.mergeGroups summaryC (disjoint_of_nodup encodesC.nodup (by simp))
        (nodup_of_nodup encodesC.nodup)
    · -- every other group keeps its entries, which are apart from those of `C`
      have other : G ∈ (A ++ [P]) ++ B := by
        simp only [List.mem_append, List.mem_cons] at member ⊢
        tauto
      have apart := disjoint_of_nodup encodesC.nodup other
      have old : G ∈ A ++ P :: C :: B := by
        simp only [List.mem_append, List.mem_cons] at other ⊢
        tauto
      refine (encodes.summarizes G old).frame fun i inG => ?_
      have outside := notMem_of_disjoint apart inG
      have notFirst : i ≠ E.firstTx (tailOf C) := by
        rw [summaryC.firstTx]
        rintro rfl
        exact outside (firstOf_mem nonemptyC)
      have notTail : i ≠ tailOf C := by
        rintro rfl
        exact outside (tailOf_mem nonemptyC)
      rw [mergeGroups_eq]
      simp only [Function.update_of_ne notFirst, Function.update_of_ne notTail, and_self]
  · rw [List.map_append, List.map_cons, tailOf_append nonemptyC, backLinked_append_cons, mergeGroups_eq]
    simp only [Function.update_self]
    refine ⟨beforeP.update _ fun inA => cNotBefore (by simp [inA]), linkP, afterC.update _ cNotAfter⟩
  · rw [mergeGroups_eq]
    simp only [Function.update_of_ne cNotSentinel.symm]
    rw [encodesC.closed, lastTail_append_cons, lastTail_append_cons, tailOf_append nonemptyC]
  · simpa using encodes.nodup
  · rw [mergeGroups_eq]
    simp only [Function.update_of_ne cNotSentinel.symm]
    exact encodes.sentinelFeerate

theorem flatten_swap (A B : List (List ℕ)) (P C : List ℕ) :
    (A ++ C :: P :: B).flatten.Perm (A ++ P :: C :: B).flatten := by
  simp only [List.flatten_append, List.flatten_cons]
  exact List.Perm.append_left _ (List.perm_append_comm_assoc C P B.flatten)

theorem Encodes.swapGroups (encodes : Encodes depsOf E (A ++ P :: C :: B)) :
    Encodes depsOf (swapGroups E (tailOf C) (firstTail B) (tailOf P)) (A ++ C :: P :: B) := by
  have encodesC : Encodes depsOf E ((A ++ [P]) ++ C :: B) := by simpa using encodes
  obtain ⟨beforeP, linkP, -⟩ := encodes.chained_split
  obtain ⟨pNotSentinel, pNotBefore, pNotAfter⟩ := encodes.tailOf_notMem
  obtain ⟨cNotSentinel, cNotBefore, cNotAfter⟩ := encodesC.tailOf_notMem
  have sentinelNotTail := (List.nodup_cons.mp encodes.nodup_tails).1
  have pc : tailOf P ≠ tailOf C := fun same => pNotAfter (by simp [same])
  -- only the `prev_group` links of `next`, `P` and `C` change
  have frame : ∀ {i}, i ≠ firstTail B → i ≠ tailOf P → i ≠ tailOf C →
      (PostLinearize.swapGroups E (tailOf C) (firstTail B) (tailOf P)).prevGroup i = E.prevGroup i := by
    intro i notNext notP notC
    rw [swapGroups_eq]
    simp only [Function.update_of_ne notNext, Function.update_of_ne notP, Function.update_of_ne notC]
  have nextNotA : ∀ i ∈ A.map tailOf, i ≠ firstTail B := by
    intro i inA same
    cases B with
    | nil => exact sentinelNotTail (by simp [← show i = sentinel from same, inA])
    | cons H B' =>
      have encodesH : Encodes depsOf E ((A ++ [P, C]) ++ H :: B') := by simpa using encodes
      exact encodesH.tailOf_notMem.2.1 (by simp [← show i = tailOf H from same, inA])
  refine ⟨fun G member => ?_, ?_, ?_, ?_, ?_⟩
  · have old : G ∈ A ++ P :: C :: B := by
      simp only [List.mem_append, List.mem_cons] at member ⊢
      tauto
    exact (encodes.summarizes G old).frame fun _ _ => ⟨rfl, rfl, rfl, rfl⟩
  · rw [List.map_append, List.map_cons, List.map_cons, backLinked_append_cons, backLinked_cons]
    refine ⟨beforeP.congr fun i inA => frame (nextNotA i inA) ?_ ?_, ?_, ?_, ?_⟩
    · rintro rfl
      exact pNotBefore inA
    · rintro rfl
      exact cNotBefore (by simp [inA])
    · rw [swapGroups_eq]
      simp only [Function.update_self]
      exact linkP
    · rw [swapGroups_eq]
      simp only [Function.update_of_ne pc, Function.update_self]
    · cases B with
      | nil => exact backLinked_nil
      | cons H B' =>
        have encodesH : Encodes depsOf E ((A ++ [P, C]) ++ H :: B') := by simpa using encodes
        obtain ⟨-, -, afterH⟩ := encodesH.chained_split
        obtain ⟨-, hNotBefore, hNotAfter⟩ := encodesH.tailOf_notMem
        have hp : tailOf H ≠ tailOf P := fun same => hNotBefore (by simp [same])
        have hc : tailOf H ≠ tailOf C := fun same => hNotBefore (by simp [same])
        rw [List.map_cons, backLinked_cons]
        refine ⟨?_, afterH.congr fun i inB => frame ?_ ?_ ?_⟩
        · rw [swapGroups_eq]
          simp only [Function.update_of_ne hc, Function.update_of_ne hp]
          exact Function.update_self ..
        · rintro rfl
          exact hNotAfter inB
        · rintro rfl
          exact pNotAfter (by simp [inB])
        · rintro rfl
          exact cNotAfter (by simp [inB])
  · cases B with
    | nil =>
      rw [swapGroups_eq]
      simp only [Function.update_of_ne cNotSentinel.symm, Function.update_of_ne pNotSentinel.symm]
      rw [lastTail_append_cons]
      exact Function.update_self ..
    | cons H B' =>
      have encodesH : Encodes depsOf E ((A ++ [P, C]) ++ H :: B') := by simpa using encodes
      have hNotSentinel := encodesH.tailOf_notMem.1
      rw [frame hNotSentinel.symm pNotSentinel.symm cNotSentinel.symm, encodesH.closed]
      have reordered : A ++ C :: P :: H :: B' = (A ++ [C, P]) ++ H :: B' := by simp
      rw [reordered, lastTail_append_cons, lastTail_append_cons]
  · exact (flatten_swap A B P C).nodup_iff.mpr encodes.nodup
  · exact encodes.sentinelFeerate

/-! The merge/swap cycle. `r x y` is an order the pass must keep (`x` must stay after `y`); the
cycle keeps it where the dependencies of each transaction hold all it must stay after. -/

section Cycle

variable {T : Type} (arith : FeeFrac.Arith T) {r : ℕ → ℕ → Prop}

theorem ordered_swapGroups (respects : ∀ x y, r x y → y ∈ depsOf x)
    (ordered : Ordered r (A ++ [P] ++ C :: B).flatten) (summaryC : Summarizes depsOf E C)
    (summaryP : Summarizes depsOf E P) (apart : ¬(E.deps (tailOf C) ∩ E.group (tailOf P)).Nonempty) :
    Ordered r (A ++ C :: P :: B).flatten := by
  have split : (A ++ [P] ++ C :: B).flatten = A.flatten ++ P ++ C ++ B.flatten := by simp
  have swapped : (A ++ C :: P :: B).flatten = A.flatten ++ C ++ P ++ B.flatten := by simp
  rw [split] at ordered
  rw [swapped]
  refine ordered.swap fun c inC b inP must => apart ⟨b, Finset.mem_inter.mpr ⟨?_, ?_⟩⟩
  · rw [summaryC.deps, Finset.mem_biUnion]
    exact ⟨c, List.mem_toFinset.mpr inC, respects c b must⟩
  · rw [summaryP.group]
    exact List.mem_toFinset.mpr inP

theorem mergeOrSwap_spec (stops : ∀ a, FeeFrac.higherFeerate arith a default = false)
    (respects : ∀ x y, r x y → y ∈ depsOf x) (fuel : ℕ) :
    ∀ E A C B, Encodes depsOf E (A ++ C :: B) → Ordered r (A ++ C :: B).flatten →
      ∃ Gs, Encodes depsOf (mergeOrSwap arith fuel E (tailOf C) (firstTail B) (lastTail A)) Gs ∧
        Gs.flatten.Perm (A ++ C :: B).flatten ∧ Ordered r Gs.flatten := by
  induction fuel with
  | zero =>
    intro E A C B encodes ordered
    exact ⟨_, encodes, List.Perm.refl _, ordered⟩
  | succ fuel ih =>
    intro E A C B encodes ordered
    rw [mergeOrSwap]
    cases A using List.reverseRecOn with
    | nil =>
      -- the group before `C` is the sentinel
      have stop : FeeFrac.higherFeerate arith (E.feerate (tailOf C)) (E.feerate (lastTail [])) = false :=
        encodes.sentinelFeerate ▸ stops _
      rw [if_neg (by simp [stop])]
      exact ⟨_, encodes, List.Perm.refl _, ordered⟩
    | append_singleton A P _ =>
      have last : lastTail (A ++ [P]) = tailOf P := by simp [lastTail]
      have encodes' : Encodes depsOf E (A ++ P :: C :: B) := by simpa using encodes
      have summaryC := encodes'.summarizes C (by simp)
      have linkP := encodes'.chained_split.2.1
      rw [last]
      split_ifs with higher overlap
      · -- merge: `P` joins `C`, the transactions stay where they are
        have same : (A ++ (P ++ C) :: B).flatten = (A ++ [P] ++ C :: B).flatten := by simp
        obtain ⟨Gs, encodesGs, perm, orderedGs⟩ :=
          ih _ A (P ++ C) B encodes'.mergeGroups (same ▸ ordered)
        rw [tailOf_append summaryC.nonempty] at encodesGs
        rw [mergeGroups_eq] at encodesGs ⊢
        exact ⟨Gs, linkP ▸ encodesGs, same ▸ perm, orderedGs⟩
      · -- swap: `C` moves before `P`
        obtain ⟨Gs, encodesGs, perm, orderedGs⟩ :=
          ih _ A C (P :: B) encodes'.swapGroups
            (ordered_swapGroups respects ordered summaryC (encodes'.summarizes P (by simp)) overlap)
        refine ⟨Gs, linkP ▸ encodesGs, perm.trans ?_, orderedGs⟩
        simpa using flatten_swap A B P C
      · exact ⟨_, encodes, List.Perm.refl _, ordered⟩

end Cycle

end PostLinearize

end Freycoin.Cluster
