import Mathlib.Data.List.GetD
import Mathlib.Data.List.TakeWhile
import Freycoin.Cluster.LinearizationChunking
import Freycoin.Cluster.AncestorCandidateSpec

/-! `LinearizationChunking` holds the chunking of what remains of its linearization. -/

namespace Freycoin.Cluster

section Filters

variable {α : Type*} {l a b : List α} {p : α → Bool}

theorem filter_take_drop_split (split : l.filter p = a ++ b) :
    ∃ a₁ a₂, a = a₁ ++ a₂ ∧ (l.take a.length).filter p = a₁ ∧ (l.drop a.length).filter p = a₂ ++ b := by
  have whole : (l.take a.length).filter p ++ (l.drop a.length).filter p = a ++ b := by
    rw [← List.filter_append, List.take_append_drop, split]
  have short : ((l.take a.length).filter p).length ≤ a.length :=
    (List.length_filter_le _ _).trans (List.length_take_le _ _)
  rcases List.append_eq_append_iff.mp whole with ⟨a₂, front, back⟩ | ⟨c', front, back⟩
  · exact ⟨_, a₂, front, rfl, back⟩
  · -- the filter of the front is `a ++ c'` and no longer than `a`, so `c'` is empty
    have empty : c' = [] := by
      rw [front, List.length_append] at short
      exact List.eq_nil_of_length_eq_zero (by omega)
    rw [empty, List.append_nil] at front
    rw [empty, List.nil_append] at back
    exact ⟨a, [], (List.append_nil a).symm, front, back.symm⟩

theorem filter_drop_of_filter_eq_append [DecidableEq α] (nodup : l.Nodup) (split : l.filter p = a ++ b) :
    (l.drop a.length).filter (fun x => p x && !decide (x ∈ a)) = b := by
  obtain ⟨a₁, a₂, parts, -, back⟩ := filter_take_drop_split split
  have apart : ∀ x ∈ b, x ∉ a := by
    have distinct : (a ++ b).Nodup := split ▸ nodup.filter p
    intro x later earlier
    exact List.disjoint_of_nodup_append distinct earlier later
  have done : a₂.filter (fun x => !decide (x ∈ a)) = [] := by
    apply List.filter_eq_nil_iff.mpr
    intro x inside
    rw [parts]
    simp [inside]
  have kept : b.filter (fun x => !decide (x ∈ a)) = b := by
    apply List.filter_eq_self.mpr
    intro x later
    simpa using apart x later
  rw [show (fun x => p x && !decide (x ∈ a)) = (fun x => !decide (x ∈ a) && p x) from
    funext fun x => Bool.and_comm _ _, ← List.filter_filter, back, List.filter_append, done, kept,
    List.nil_append]

theorem mem_of_mem_take_of_filter_eq_append (split : l.filter p = a ++ b) {x : α}
    (front : x ∈ l.take a.length) (passes : p x = true) : x ∈ a := by
  obtain ⟨a₁, a₂, parts, taken, -⟩ := filter_take_drop_split split
  have kept : x ∈ (l.take a.length).filter p := List.mem_filter.mpr ⟨front, passes⟩
  rw [taken] at kept
  rw [parts]
  exact List.mem_append_left a₂ kept

end Filters

variable {P : Type} (arith : FeeFrac.Arith P) (depgraph : DepGraph)

section Stack

@[simp] theorem pushChunk_nil (add : SetInfo) : pushChunk arith [] add = [add] := by
  rw [pushChunk, dif_neg (not_not.mpr rfl), List.nil_append]

theorem pushChunk_append_singleton (chunks : List SetInfo) (last add : SetInfo) :
    pushChunk arith (chunks ++ [last]) add =
      if FeeFrac.higherFeerate arith add.feerate last.feerate then pushChunk arith chunks (add.orAssign last)
      else chunks ++ [last] ++ [add] := by
  rw [pushChunk, dif_pos (List.concat_ne_nil last chunks), List.getLast_concat, List.dropLast_concat]

@[simp] theorem pushFeerate_nil (newChunk : FeeFrac) : pushFeerate arith [] newChunk = [newChunk] := by
  rw [pushFeerate, dif_neg (not_not.mpr rfl), List.nil_append]

theorem pushFeerate_append_singleton (ret : List FeeFrac) (last newChunk : FeeFrac) :
    pushFeerate arith (ret ++ [last]) newChunk =
      if FeeFrac.higherFeerate arith newChunk last then pushFeerate arith ret (newChunk + last)
      else ret ++ [last] ++ [newChunk] := by
  rw [pushFeerate, dif_pos (List.concat_ne_nil last ret), List.getLast_concat, List.dropLast_concat]

theorem map_feerate_pushChunk (chunks : List SetInfo) (add : SetInfo) :
    (pushChunk arith chunks add).map SetInfo.feerate = pushFeerate arith (chunks.map SetInfo.feerate) add.feerate := by
  induction chunks using List.reverseRecOn generalizing add with
  | nil => simp
  | append_singleton chunks last ih =>
    rw [pushChunk_append_singleton, List.map_append, List.map_singleton, pushFeerate_append_singleton]
    split
    · rw [ih]
      rfl
    · simp

theorem pushChunk_cons (bottom : SetInfo) (rest : List SetInfo) (add : SetInfo) :
    pushChunk arith (bottom :: rest) add = bottom :: pushChunk arith rest add ∨
      ∃ m, pushChunk arith (bottom :: rest) add = [m] ∧ add.transactions ⊆ m.transactions := by
  induction rest using List.reverseRecOn generalizing add with
  | nil =>
    rw [← List.nil_append [bottom], pushChunk_append_singleton]
    split
    · exact Or.inr ⟨add.orAssign bottom, pushChunk_nil arith _, Finset.subset_union_left⟩
    · exact Or.inl (by simp)
  | append_singleton rest last ih =>
    rw [← List.cons_append, pushChunk_append_singleton, pushChunk_append_singleton]
    split
    · rcases ih (add.orAssign last) with kept | ⟨m, merged, holds⟩
      · exact Or.inl kept
      · exact Or.inr ⟨m, merged, Finset.subset_union_left.trans holds⟩
    · exact Or.inl rfl

theorem pushChunk_isChain {chunks : List SetInfo}
    (chain : chunks.IsChain fun a b => FeeFrac.higherFeerate arith b.feerate a.feerate = false) (add : SetInfo) :
    (pushChunk arith chunks add).IsChain fun a b => FeeFrac.higherFeerate arith b.feerate a.feerate = false := by
  induction chunks using List.reverseRecOn generalizing add with
  | nil => simp
  | append_singleton chunks last ih =>
    rw [pushChunk_append_singleton]
    split
    · exact ih chain.left_of_append _
    · rename_i kept
      apply chain.append (List.isChain_singleton add)
      intro x lastIn y headIn
      rw [List.getLast?_concat, Option.mem_some_iff] at lastIn
      rw [List.head?_cons, Option.mem_some_iff] at headIn
      rw [← lastIn, ← headIn]
      exact Bool.eq_false_iff.mpr kept

end Stack

/-- The chunk of a run of transactions: its set and the sum of their feerates. -/
def runChunk (run : List ℕ) : SetInfo := ⟨run.toFinset, (run.map depgraph.feeRate).sum⟩

/-- The merge rule of `ChunkLinearization` on a sequence, onto the chunks it is given. -/
def chunkOnto (chunks : List SetInfo) (l : List ℕ) : List SetInfo :=
  l.foldl (fun chunks i => pushChunk arith chunks (SetInfo.ofPosition depgraph i)) chunks

/-- The chunking of a sequence of transactions: the sets and feerate sums the merge rule of
`ChunkLinearization` produces on it. -/
def chunking (l : List ℕ) : List SetInfo := chunkOnto arith depgraph [] l

section Runs

theorem ofPosition_eq_runChunk (i : ℕ) : SetInfo.ofPosition depgraph i = runChunk depgraph [i] := by
  simp [SetInfo.ofPosition, runChunk]

theorem orAssign_runChunk (run before : List ℕ) :
    (runChunk depgraph run).orAssign (runChunk depgraph before) = runChunk depgraph (before ++ run) := by
  rw [SetInfo.orAssign, runChunk, runChunk, runChunk, List.toFinset_append, Finset.union_comm,
    List.map_append, List.sum_append, add_comm]

theorem pushChunk_runs (runs : List (List ℕ)) (run : List ℕ) :
    ∃ k ≤ runs.length, pushChunk arith (runs.map (runChunk depgraph)) (runChunk depgraph run) =
      (runs.take k).map (runChunk depgraph) ++ [runChunk depgraph ((runs.drop k).flatten ++ run)] := by
  induction runs using List.reverseRecOn generalizing run with
  | nil => exact ⟨0, le_rfl, by simp⟩
  | append_singleton runs last ih =>
    rw [List.map_append, List.map_singleton, pushChunk_append_singleton]
    split
    · -- the run absorbs the last one, and the merge goes on below it
      obtain ⟨k, within, pushed⟩ := ih (last ++ run)
      refine ⟨k, by rw [List.length_append]; omega, ?_⟩
      rw [orAssign_runChunk, pushed, List.take_append_of_le_length within,
        List.drop_append_of_le_length within, List.flatten_append, List.flatten_singleton,
        List.append_assoc]
    · have whole : (runs ++ [last]).length = runs.length + 1 := by simp
      refine ⟨runs.length + 1, whole.ge, ?_⟩
      rw [List.take_of_length_le whole.le, List.drop_of_length_le whole.le, List.flatten_nil,
        List.nil_append, List.map_append, List.map_singleton]

theorem chunkOnto_cons (chunks : List SetInfo) (i : ℕ) (l : List ℕ) :
    chunkOnto arith depgraph chunks (i :: l) =
      chunkOnto arith depgraph (pushChunk arith chunks (SetInfo.ofPosition depgraph i)) l := rfl

theorem chunkOnto_append (chunks : List SetInfo) (l₁ l₂ : List ℕ) :
    chunkOnto arith depgraph chunks (l₁ ++ l₂) = chunkOnto arith depgraph (chunkOnto arith depgraph chunks l₁) l₂ :=
  List.foldl_append

theorem chunkOnto_runs (l : List ℕ) : ∀ runs : List (List ℕ), (∀ run ∈ runs, run ≠ []) →
    ∃ runs' : List (List ℕ), runs'.flatten = runs.flatten ++ l ∧ (∀ run ∈ runs', run ≠ []) ∧
      chunkOnto arith depgraph (runs.map (runChunk depgraph)) l = runs'.map (runChunk depgraph) := by
  induction l with
  | nil =>
    intro runs nonempty
    exact ⟨runs, (List.append_nil _).symm, nonempty, rfl⟩
  | cons i l ih =>
    intro runs nonempty
    obtain ⟨k, -, pushed⟩ := pushChunk_runs arith depgraph runs [i]
    have step : ∀ run ∈ runs.take k ++ [(runs.drop k).flatten ++ [i]], run ≠ [] := by
      intro run inside
      rcases List.mem_append.mp inside with kept | merged
      · exact nonempty run (List.mem_of_mem_take kept)
      · rw [List.mem_singleton.mp merged]
        exact List.concat_ne_nil i _
    obtain ⟨runs', flat, nonempty', onto⟩ := ih _ step
    refine ⟨runs', ?_, nonempty', ?_⟩
    · rw [flat]
      simp only [List.flatten_append, List.flatten_singleton, List.append_assoc, List.singleton_append]
      rw [← List.append_assoc, ← List.flatten_append, List.take_append_drop]
    · rw [chunkOnto_cons, ofPosition_eq_runChunk, pushed]
      rw [List.map_append, List.map_singleton] at onto
      exact onto

theorem chunking_runs (l : List ℕ) :
    ∃ runs : List (List ℕ), runs.flatten = l ∧ (∀ run ∈ runs, run ≠ []) ∧
      chunking arith depgraph l = runs.map (runChunk depgraph) := by
  obtain ⟨runs, flat, nonempty, built⟩ := chunkOnto_runs arith depgraph l [] (fun _ absent => absurd absent List.not_mem_nil)
  exact ⟨runs, flat, nonempty, built⟩

theorem chunkOnto_isChain (l : List ℕ) : ∀ {chunks : List SetInfo},
    (chunks.IsChain fun a b => FeeFrac.higherFeerate arith b.feerate a.feerate = false) →
    (chunkOnto arith depgraph chunks l).IsChain fun a b => FeeFrac.higherFeerate arith b.feerate a.feerate = false := by
  induction l with
  | nil => exact id
  | cons i l ih =>
    intro chunks chain
    exact ih (pushChunk_isChain arith chain _)

theorem map_feerate_chunkOnto (l : List ℕ) : ∀ chunks : List SetInfo,
    (chunkOnto arith depgraph chunks l).map SetInfo.feerate =
      l.foldl (fun ret i => pushFeerate arith ret (depgraph.feeRate i)) (chunks.map SetInfo.feerate) := by
  induction l with
  | nil => intro chunks; rfl
  | cons i l ih =>
    intro chunks
    rw [chunkOnto_cons, ih, map_feerate_pushChunk, List.foldl_cons]
    rfl

theorem chunkOnto_bottom (l : List ℕ) : ∀ (bottom : SetInfo) (rest : List SetInfo),
    chunkOnto arith depgraph (bottom :: rest) l = bottom :: chunkOnto arith depgraph rest l ∨
      ∃ m ms, chunkOnto arith depgraph (bottom :: rest) l = m :: ms ∧ ∃ x ∈ l, x ∈ m.transactions := by
  induction l with
  | nil =>
    intro bottom rest
    exact Or.inl rfl
  | cons i l ih =>
    intro bottom rest
    rw [chunkOnto_cons, chunkOnto_cons]
    rcases pushChunk_cons arith bottom rest (SetInfo.ofPosition depgraph i) with kept | ⟨m, merged, holds⟩
    · rw [kept]
      rcases ih bottom (pushChunk arith rest _) with below | ⟨m, ms, onto, x, later, inside⟩
      · exact Or.inl below
      · exact Or.inr ⟨m, ms, onto, x, List.mem_cons_of_mem i later, inside⟩
    · -- the push merged the whole stack into one chunk, which holds `i`
      right
      rw [merged]
      have mine : i ∈ m.transactions := holds (Finset.mem_singleton_self i)
      rcases ih m [] with below | ⟨m', ms, onto, x, later, inside⟩
      · exact ⟨m, chunkOnto arith depgraph [] l, below, i, List.mem_cons_self, mine⟩
      · exact ⟨m', ms, onto, x, List.mem_cons_of_mem i later, inside⟩

theorem chunking_of_first_run {first rest : List ℕ} {head : SetInfo} {tail : List SetInfo}
    (nodup : (first ++ rest).Nodup) (nonempty : first ≠ [])
    (chunked : chunking arith depgraph (first ++ rest) = head :: tail)
    (covers : head.transactions = first.toFinset) :
    chunking arith depgraph rest = tail := by
  obtain ⟨runs, flat, nonempty', built⟩ := chunking_runs arith depgraph first
  rw [chunking, chunkOnto_append, ← chunking, built] at chunked
  cases runs with
  | nil =>
    rw [List.flatten_nil] at flat
    exact absurd flat.symm nonempty
  | cons run runs =>
    rw [List.map_cons] at chunked
    rcases chunkOnto_bottom arith depgraph rest (runChunk depgraph run) (runs.map (runChunk depgraph)) with
      kept | ⟨m, ms, onto, x, later, inside⟩
    · rw [kept, List.cons.injEq] at chunked
      obtain ⟨same, below⟩ := chunked
      -- the first run is all of `first`: a later run would hold an element of `first` outside it
      have single : runs = [] := by
        cases runs with
        | nil => rfl
        | cons next runs =>
          obtain ⟨y, mem⟩ := List.exists_mem_of_ne_nil next (nonempty' next (by simp))
          have distinct : (run ++ (next :: runs).flatten).Nodup := by
            rw [← List.flatten_cons, flat]
            exact nodup.sublist (List.sublist_append_left first rest)
          have inRun : y ∈ run := by
            have inFirst : y ∈ first := by
              rw [← flat]
              simp [mem]
            rw [← List.mem_toFinset, ← covers, ← same] at inFirst
            exact List.mem_toFinset.mp inFirst
          exact absurd (List.mem_flatten_of_mem List.mem_cons_self mem)
            (List.disjoint_of_nodup_append distinct inRun)
      rw [← below, single]
      rfl
    · rw [onto, List.cons.injEq] at chunked
      rw [chunked.1, covers, List.mem_toFinset] at inside
      exact absurd later (List.disjoint_of_nodup_append nodup inside)

end Runs

theorem runChunk_eq_of_nodup {run : List ℕ} (nodup : run.Nodup) :
    runChunk depgraph run = ⟨run.toFinset, depgraph.feeRateOfSet run.toFinset⟩ := by
  rw [runChunk, DepGraph.feeRateOfSet_eq_sum, List.sum_toFinset _ nodup]

namespace LinearizationChunking

@[simp] theorem buildChunks_linearization (c : LinearizationChunking) :
    (buildChunks arith depgraph c).linearization = c.linearization.dropWhile fun i => decide (i ∉ c.todo) := rfl

@[simp] theorem buildChunks_todo (c : LinearizationChunking) : (buildChunks arith depgraph c).todo = c.todo := rfl

@[simp] theorem buildChunks_chunksSkip (c : LinearizationChunking) :
    (buildChunks arith depgraph c).chunksSkip = c.chunksSkip := rfl

theorem buildChunks_chunks {c : LinearizationChunking} (empty : c.chunks = []) :
    (buildChunks arith depgraph c).chunks =
      chunking arith depgraph ((c.linearization.dropWhile fun i => decide (i ∉ c.todo)).filter fun x => decide (x ∈ c.todo)) := by
  rw [chunking, chunkOnto, List.foldl_filter, buildChunks, empty]
  simp only [decide_eq_true_eq]

theorem markDone_of_first {c : LinearizationChunking} {subset : Finset ℕ}
    (first : (c.getChunk 0).transactions = subset) :
    markDone arith depgraph c subset =
      { c with todo := c.todo \ subset, chunksSkip := c.chunksSkip + 1,
               linearization := c.linearization.drop subset.card } := by
  rw [markDone]
  exact if_pos first

theorem markDone_of_not_first {c : LinearizationChunking} {subset : Finset ℕ}
    (first : (c.getChunk 0).transactions ≠ subset) :
    markDone arith depgraph c subset = buildChunks arith depgraph { c with todo := c.todo \ subset, chunks := [], chunksSkip := 0 } := by
  rw [markDone]
  exact if_neg first

@[simp] theorem markDone_todo (c : LinearizationChunking) (subset : Finset ℕ) :
    (markDone arith depgraph c subset).todo = c.todo \ subset := by
  by_cases first : (c.getChunk 0).transactions = subset
  · rw [markDone_of_first arith depgraph first]
  · rw [markDone_of_not_first arith depgraph first, buildChunks_todo]

theorem getChunk_eq_getD_drop (c : LinearizationChunking) (n : ℕ) :
    c.getChunk n = (c.chunks.drop c.chunksSkip).getD n default := by
  rw [getChunk, List.getD_eq_getElem?_getD, List.getD_eq_getElem?_getD, List.getElem?_drop, Nat.add_comm]

theorem getChunks_eq_drop (c : LinearizationChunking) :
    (List.range c.numChunksLeft).map c.getChunk = c.chunks.drop c.chunksSkip := by
  apply List.ext_getElem
  · rw [List.length_map, List.length_range, List.length_drop, numChunksLeft]
  · intro n inRange inDrop
    rw [List.getElem_map, List.getElem_range, getChunk_eq_getD_drop, List.getD_eq_getElem _ _ inDrop]

theorem foldl_insert_eq_union (L : List ℕ) : ∀ s : Finset ℕ, L.foldl (fun todo i => insert i todo) s = s ∪ L.toFinset := by
  induction L with
  | nil =>
    intro s
    rw [List.foldl_nil, List.toFinset_nil, Finset.union_empty]
  | cons i L ih =>
    intro s
    rw [List.foldl_cons, ih, List.toFinset_cons, Finset.insert_eq, Finset.insert_eq, Finset.union_left_comm,
      Finset.union_assoc]

theorem init_todo (L : List ℕ) : (init arith depgraph L).todo = L.toFinset := by
  rw [init, buildChunks_todo]
  exact (foldl_insert_eq_union L ∅).trans (Finset.empty_union _)

/-! ### A run of `MarkDone` calls -/

/-- `MarkDone` of each subset in turn. -/
def markDoneAll (c : LinearizationChunking) (subsets : List (Finset ℕ)) : LinearizationChunking :=
  subsets.foldl (markDone arith depgraph) c

/-- Each subset is non-empty and within what remains when it is marked done. -/
def ValidCalls : LinearizationChunking → List (Finset ℕ) → Prop
  | _, [] => True
  | c, subset :: rest => subset.Nonempty ∧ subset ⊆ c.todo ∧ ValidCalls (markDone arith depgraph c subset) rest

theorem todo_markDoneAll (subsets : List (Finset ℕ)) : ∀ c : LinearizationChunking,
    (markDoneAll arith depgraph c subsets).todo = c.todo \ subsets.foldr (· ∪ ·) ∅ := by
  induction subsets with
  | nil =>
    intro c
    rw [markDoneAll, List.foldl_nil, List.foldr_nil, Finset.sdiff_empty]
  | cons subset rest ih =>
    intro c
    rw [markDoneAll, List.foldl_cons, ← markDoneAll, ih, markDone_todo, List.foldr_cons, sdiff_sdiff_left, Finset.sup_eq_union]

variable (L : List ℕ)

/-- What the state keeps of the linearization `L` it was built from: every transaction still to
do is in `L`, the remaining `m_linearization` is a suffix of `L` whose cut-off front is done, and
the chunks past the skipped ones are the chunking of what is still to do, in that order. -/
structure Holds (c : LinearizationChunking) : Prop where
  todo_subset : c.todo ⊆ L.toFinset
  suffix : ∃ front, L = front ++ c.linearization ∧ ∀ x ∈ front, x ∉ c.todo
  chunks_left : c.chunks.drop c.chunksSkip = chunking arith depgraph (c.linearization.filter fun x => decide (x ∈ c.todo))

/-- The states a `LinearizationChunking` of `L` reaches: the constructor, then `MarkDone` of
non-empty subsets of what remains. -/
inductive Reachable : LinearizationChunking → Prop
  | init : Reachable (init arith depgraph L)
  | markDone {c : LinearizationChunking} {subset : Finset ℕ} :
      Reachable c → subset.Nonempty → subset ⊆ c.todo → Reachable (markDone arith depgraph c subset)

variable {L}

theorem Holds.filter_eq {c : LinearizationChunking} (holds : Holds arith depgraph L c) :
    L.filter (fun x => decide (x ∈ c.todo)) = c.linearization.filter fun x => decide (x ∈ c.todo) := by
  obtain ⟨front, whole, done⟩ := holds.suffix
  have cut : front.filter (fun x => decide (x ∈ c.todo)) = [] := by
    apply List.filter_eq_nil_iff.mpr
    intro x early
    exact decide_eq_false_iff_not.mpr (done x early) ▸ Bool.false_ne_true
  rw [whole, List.filter_append, cut, List.nil_append]

theorem holds_buildChunks {c : LinearizationChunking} (todo_subset : c.todo ⊆ L.toFinset)
    (suffix : ∃ front, L = front ++ c.linearization ∧ ∀ x ∈ front, x ∉ c.todo)
    (empty : c.chunks = []) (unskipped : c.chunksSkip = 0) :
    Holds arith depgraph L (buildChunks arith depgraph c) where
  todo_subset := todo_subset
  suffix := by
    obtain ⟨front, whole, done⟩ := suffix
    rw [buildChunks_linearization, buildChunks_todo]
    refine ⟨front ++ c.linearization.takeWhile fun i => decide (i ∉ c.todo), ?_, ?_⟩
    · rw [List.append_assoc, List.takeWhile_append_dropWhile, whole]
    · intro x inside
      rcases List.mem_append.mp inside with early | chopped
      · exact done x early
      · simpa using List.mem_takeWhile_imp chopped
  chunks_left := by
    rw [buildChunks_chunks arith depgraph empty, buildChunks_chunksSkip, unskipped, List.drop_zero,
      buildChunks_linearization, buildChunks_todo]

theorem holds_init : Holds arith depgraph L (init arith depgraph L) := by
  rw [init]
  apply holds_buildChunks
  · show L.foldl (fun todo i => insert i todo) ∅ ⊆ L.toFinset
    rw [foldl_insert_eq_union, Finset.empty_union]
  · exact ⟨[], rfl, fun x absent => absurd absent List.not_mem_nil⟩
  · rfl
  · rfl

theorem holds_markDone (nodup : L.Nodup) {c : LinearizationChunking} (holds : Holds arith depgraph L c)
    (subset : Finset ℕ) : Holds arith depgraph L (markDone arith depgraph c subset) := by
  obtain ⟨front, whole, done⟩ := holds.suffix
  have still : ∀ x ∈ front, x ∉ c.todo \ subset := fun x early inside => done x early (Finset.mem_sdiff.mp inside).1
  by_cases first : (c.getChunk 0).transactions = subset
  · rw [markDone_of_first arith depgraph first]
    have distinct : (c.linearization.filter fun x => decide (x ∈ c.todo)).Nodup :=
      (nodup.sublist (whole ▸ List.sublist_append_right front c.linearization)).filter _
    obtain ⟨runs, flat, nonempty, built⟩ := chunking_runs arith depgraph (c.linearization.filter fun x => decide (x ∈ c.todo))
    have left := holds.chunks_left.trans built
    -- the first chunk is the first run of what is still to do, or there is none and nothing is
    -- removed; either way the chunks after it are the chunking of the rest
    obtain ⟨first, rest, split, covers, skipped⟩ : ∃ first rest,
        c.linearization.filter (fun x => decide (x ∈ c.todo)) = first ++ rest ∧ subset = first.toFinset ∧
          c.chunks.drop (c.chunksSkip + 1) = chunking arith depgraph rest := by
      cases runs with
      | nil =>
        have empty : c.getChunk 0 = default := by
          rw [getChunk_eq_getD_drop, left]
          rfl
        refine ⟨[], [], flat.symm, ?_, ?_⟩
        · rw [← first, empty]
          rfl
        · rw [← List.drop_drop, left]
          rfl
      | cons run runs =>
        have chunk0 : c.getChunk 0 = runChunk depgraph run := by
          rw [getChunk_eq_getD_drop, left]
          rfl
        have chunked : chunking arith depgraph (run ++ runs.flatten) = runChunk depgraph run :: runs.map (runChunk depgraph) := by
          rw [← List.flatten_cons, flat, built, List.map_cons]
        have distinct' : (run ++ runs.flatten).Nodup := by
          rw [← List.flatten_cons, flat]
          exact distinct
        refine ⟨run, runs.flatten, flat.symm, ?_, ?_⟩
        · rw [← first, chunk0]
          rfl
        · rw [← List.drop_drop, left, List.drop_one, List.map_cons, List.tail_cons]
          exact (chunking_of_first_run arith depgraph distinct' (nonempty run List.mem_cons_self) chunked rfl).symm
    have remaining : c.linearization.Nodup := nodup.sublist (whole ▸ List.sublist_append_right front c.linearization)
    have card : subset.card = first.length := by
      rw [covers]
      exact List.toFinset_card_of_nodup ((split ▸ distinct).sublist (List.sublist_append_left first rest))
    constructor
    · exact Finset.sdiff_subset.trans holds.todo_subset
    · -- what is dropped from the front is done: the transactions of the first run, or done before
      refine ⟨front ++ c.linearization.take subset.card, ?_, ?_⟩
      · rw [List.append_assoc, List.take_append_drop, whole]
      · intro x inside
        rcases List.mem_append.mp inside with early | chopped
        · exact still x early
        · intro remains
          obtain ⟨todo, notDone⟩ := Finset.mem_sdiff.mp remains
          rw [card] at chopped
          have inFirst := mem_of_mem_take_of_filter_eq_append split chopped (decide_eq_true todo)
          exact notDone (covers ▸ List.mem_toFinset.mpr inFirst)
    · have dropped : (c.linearization.drop subset.card).filter (fun x => decide (x ∈ c.todo \ subset)) = rest := by
        rw [card, ← filter_drop_of_filter_eq_append remaining split]
        apply List.filter_congr
        intro x _
        rw [covers]
        simp
      show c.chunks.drop (c.chunksSkip + 1) = chunking arith depgraph
        ((c.linearization.drop subset.card).filter fun x => decide (x ∈ c.todo \ subset))
      rw [dropped]
      exact skipped
  · rw [markDone_of_not_first arith depgraph first]
    exact holds_buildChunks arith depgraph ((Finset.sdiff_subset).trans holds.todo_subset) ⟨front, whole, still⟩ rfl rfl

theorem Reachable.markDoneAll (subsets : List (Finset ℕ)) : ∀ {c : LinearizationChunking},
    Reachable arith depgraph L c → ValidCalls arith depgraph c subsets →
      Reachable arith depgraph L (markDoneAll arith depgraph c subsets) := by
  induction subsets with
  | nil =>
    intro c reached _
    exact reached
  | cons subset rest ih =>
    rintro c reached ⟨nonempty, within, valid⟩
    exact ih (.markDone reached nonempty within) valid

theorem Reachable.holds (nodup : L.Nodup) {c : LinearizationChunking} (reached : Reachable arith depgraph L c) :
    Holds arith depgraph L c := by
  induction reached with
  | init => exact holds_init arith depgraph
  | markDone _ _ _ holds => exact holds_markDone arith depgraph nodup holds _

theorem Holds.getChunks_eq_chunking {c : LinearizationChunking} (holds : Holds arith depgraph L c) :
    (List.range c.numChunksLeft).map c.getChunk = chunking arith depgraph (L.filter fun x => decide (x ∈ c.todo)) := by
  rw [getChunks_eq_drop, holds.chunks_left, holds.filter_eq]

theorem linearizationChunking_holds_remaining_chunking (nodup : L.Nodup) (subsets : List (Finset ℕ))
    (valid : ValidCalls arith depgraph (init arith depgraph L) subsets) :
    let c := markDoneAll arith depgraph (init arith depgraph L) subsets
    c.todo = L.toFinset \ subsets.foldr (· ∪ ·) ∅ ∧
    (List.range c.numChunksLeft).map c.getChunk = chunking arith depgraph (L.filter fun x => decide (x ∈ c.todo)) ∧
    ((List.range c.numChunksLeft).map c.getChunk).map SetInfo.feerate =
      chunkLinearization arith depgraph (L.filter fun x => decide (x ∈ c.todo)) ∧
    (∃ runs : List (List ℕ), runs.flatten = L.filter (fun x => decide (x ∈ c.todo)) ∧ (∀ run ∈ runs, run ≠ []) ∧
      (List.range c.numChunksLeft).map c.getChunk =
        runs.map fun run => ⟨run.toFinset, depgraph.feeRateOfSet run.toFinset⟩) ∧
    (L.filter fun x => decide (x ∈ c.todo)).toFinset = c.todo ∧
    ((List.range c.numChunksLeft).map c.getChunk).IsChain
      fun a b => FeeFrac.higherFeerate arith b.feerate a.feerate = false := by
  intro c
  have reached : Reachable arith depgraph L c := Reachable.init.markDoneAll arith depgraph subsets valid
  have holds := reached.holds arith depgraph nodup
  have chunks := holds.getChunks_eq_chunking
  obtain ⟨runs, flat, nonempty, built⟩ := chunking_runs arith depgraph (L.filter fun x => decide (x ∈ c.todo))
  refine ⟨?_, chunks, ?_, ⟨runs, flat, nonempty, ?_⟩, ?_, ?_⟩
  · rw [todo_markDoneAll, init_todo]
  · rw [chunks, chunking, map_feerate_chunkOnto]
    rfl
  · rw [chunks, built]
    apply List.map_congr_left
    intro run inside
    apply runChunk_eq_of_nodup
    exact (flat ▸ nodup.filter _).sublist (List.sublist_flatten_of_mem inside)
  · ext x
    rw [List.mem_toFinset, List.mem_filter, decide_eq_true_eq]
    exact ⟨And.right, fun todo => ⟨List.mem_toFinset.mp (holds.todo_subset todo), todo⟩⟩
  · rw [chunks]
    exact chunkOnto_isChain arith depgraph _ List.isChain_nil

/-- A child paying for its parent: `1` spends `0` and has the higher feerate. -/
def cpfpPair : DepGraph := DepGraph.addDependencies {0} 1 ⟨[⟨⟨1, 1⟩, {0}, {0}⟩, ⟨⟨9, 1⟩, {1}, {1}⟩], {1, 0}⟩

theorem linearizationChunking_chunks_cpfp_pair :
    [0, 1].Nodup ∧ ValidCalls FeeFrac.int128 cpfpPair (init FeeFrac.int128 cpfpPair [0, 1]) [{0}] ∧
      (markDoneAll FeeFrac.int128 cpfpPair (init FeeFrac.int128 cpfpPair [0, 1]) [{0}]).todo =
        [0, 1].toFinset \ [{0}].foldr (· ∪ ·) ∅ ∧
      (List.range (markDoneAll FeeFrac.int128 cpfpPair (init FeeFrac.int128 cpfpPair [0, 1]) [{0}]).numChunksLeft).map
          (markDoneAll FeeFrac.int128 cpfpPair (init FeeFrac.int128 cpfpPair [0, 1]) [{0}]).getChunk =
        chunking FeeFrac.int128 cpfpPair ([0, 1].filter fun x =>
          decide (x ∈ (markDoneAll FeeFrac.int128 cpfpPair (init FeeFrac.int128 cpfpPair [0, 1]) [{0}]).todo)) := by
  have nodup : [0, 1].Nodup := by decide
  have valid : ValidCalls FeeFrac.int128 cpfpPair (init FeeFrac.int128 cpfpPair [0, 1]) [{0}] :=
    ⟨Finset.singleton_nonempty 0, by decide, trivial⟩
  have run := linearizationChunking_holds_remaining_chunking FeeFrac.int128 cpfpPair nodup [{0}] valid
  exact ⟨nodup, valid, run.1, run.2.1⟩

end LinearizationChunking

end Freycoin.Cluster
