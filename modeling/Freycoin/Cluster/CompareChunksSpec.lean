import Freycoin.Cluster.FeeFracSpec
import Freycoin.Library.Polyline
import Mathlib.Algebra.Order.Field.Rat

/-! `CompareChunks` compares two feerate diagrams pointwise. -/

namespace Freycoin.Cluster

open FeeFrac Polyline MachineInt

section Diagrams

/-- A `FeeFrac` in the plane: its size, then its fee. A chunk is a segment of its diagram this
way, and a sum of chunks a point of it. -/
def point (c : FeeFrac) : ℚ × ℚ := ((c.size.toInt : ℚ), (c.fee.toInt : ℚ))

@[simp] theorem point_fst (c : FeeFrac) : (point c).1 = c.size.toInt := rfl

@[simp] theorem point_snd (c : FeeFrac) : (point c).2 = c.fee.toInt := rfl

/-- `D`, the feerate diagram of a chunk list. -/
def diagram (chunks : List FeeFrac) (x : ℚ) : ℚ := value (0, 0) (chunks.map point) x

/-- The total size of a chunk list. -/
def sizeSum (chunks : List FeeFrac) : ℤ := (chunks.map fun c => c.size.toInt).sum

/-- The total fee of a chunk list. -/
def feeSum (chunks : List FeeFrac) : ℤ := (chunks.map fun c => c.fee.toInt).sum

/-- The pointwise order of two diagrams on `[0, ∞)`. -/
noncomputable def diagramOrder (D0 D1 : ℚ → ℚ) : PartialOrdering :=
  open Classical in
  if ∃ x, 0 ≤ x ∧ D1 x < D0 x then
    if ∃ x, 0 ≤ x ∧ D0 x < D1 x then .unordered else .greater
  else if ∃ x, 0 ≤ x ∧ D0 x < D1 x then .less else .equivalent

/-- What the loop needs of a chunk list: positive sizes, cumulative sizes that fit an `int32_t`
and cumulative fees within `±2 ^ 62`. -/
structure Bounded (chunks : List FeeFrac) : Prop where
  positive : ∀ c ∈ chunks, 0 < c.size.toInt
  sizes : ∀ k ≤ chunks.length, sizeSum (chunks.take k) < 2 ^ 31
  fees : ∀ k ≤ chunks.length, -2 ^ 62 ≤ feeSum (chunks.take k) ∧ feeSum (chunks.take k) < 2 ^ 62

theorem sizeSum_take_succ {chunks : List FeeFrac} {k : ℕ} (inside : k < chunks.length) :
    sizeSum (chunks.take (k + 1)) = sizeSum (chunks.take k) + chunks[k].size.toInt := by
  rw [sizeSum, sizeSum, List.take_succ_eq_append_getElem inside, List.map_append, List.sum_append,
    List.map_singleton, List.sum_singleton]

theorem feeSum_take_succ {chunks : List FeeFrac} {k : ℕ} (inside : k < chunks.length) :
    feeSum (chunks.take (k + 1)) = feeSum (chunks.take k) + chunks[k].fee.toInt := by
  rw [feeSum, feeSum, List.take_succ_eq_append_getElem inside, List.map_append, List.sum_append,
    List.map_singleton, List.sum_singleton]

theorem Bounded.sizeSum_nonneg {chunks : List FeeFrac} (bounded : Bounded chunks) (k : ℕ) :
    0 ≤ sizeSum (chunks.take k) := by
  induction k with
  | zero => simp [sizeSum]
  | succ k ih =>
      rcases Nat.lt_or_ge k chunks.length with inside | beyond
      · rw [sizeSum_take_succ inside]
        have := bounded.positive _ (List.getElem_mem inside)
        omega
      · rwa [List.take_of_length_le (by omega), ← List.take_of_length_le beyond]

/-- The cumulative point after `k` chunks. -/
def cumulative (chunks : List FeeFrac) (k : ℕ) : ℚ × ℚ :=
  ((sizeSum (chunks.take k) : ℚ), (feeSum (chunks.take k) : ℚ))

theorem cumulative_succ {chunks : List FeeFrac} {k : ℕ} (inside : k < chunks.length) :
    cumulative chunks (k + 1) = next (cumulative chunks k) (point chunks[k]) := by
  simp only [next, cumulative, point, sizeSum_take_succ inside, feeSum_take_succ inside]
  push_cast
  rfl

theorem cumulative_fst_nonneg {chunks : List FeeFrac} (bounded : Bounded chunks) (k : ℕ) :
    0 ≤ (cumulative chunks k).1 := by
  show (0 : ℚ) ≤ (sizeSum (chunks.take k) : ℚ)
  exact_mod_cast bounded.sizeSum_nonneg k

theorem rising_map_point {chunks : List FeeFrac} (bounded : Bounded chunks) (k : ℕ) :
    Rising ((chunks.drop k).map point) := by
  intro seg inside
  obtain ⟨c, member, rfl⟩ := List.mem_map.mp inside
  show (0 : ℚ) < c.size.toInt
  exact_mod_cast bounded.positive c (List.mem_of_mem_drop member)

theorem diagram_eq_drop {chunks : List FeeFrac} (bounded : Bounded chunks) :
    ∀ k ≤ chunks.length, ∀ x, (cumulative chunks k).1 ≤ x →
      diagram chunks x = value (cumulative chunks k) ((chunks.drop k).map point) x := by
  intro k
  induction k with
  | zero =>
      intro _ x _
      rfl
  | succ k ih =>
      intro inside x past
      have below : k < chunks.length := by omega
      have step := (cumulative_succ below).symm
      have rising := rising_map_point bounded k
      rw [List.drop_eq_getElem_cons below, List.map_cons] at rising
      have earlier : (cumulative chunks k).1 ≤ x := by
        have := bounded.positive _ (List.getElem_mem below)
        simp only [cumulative, sizeSum_take_succ below] at past ⊢
        push_cast at past
        linarith [(show (0 : ℚ) < chunks[k].size.toInt by exact_mod_cast this)]
      rw [ih (by omega) x earlier, List.drop_eq_getElem_cons below, List.map_cons,
        value_of_le rising (by rw [step]; exact past), step]

theorem cumulative_lt_succ {chunks : List FeeFrac} {k : ℕ} (bounded : Bounded chunks)
    (inside : k < chunks.length) : (cumulative chunks k).1 < (cumulative chunks (k + 1)).1 := by
  have positive : (0 : ℚ) < chunks[k].size.toInt := by
    exact_mod_cast bounded.positive _ (List.getElem_mem inside)
  rw [cumulative_succ inside, next]
  exact lt_add_of_pos_right _ positive

theorem diagram_cumulative {chunks : List FeeFrac} {k : ℕ} (bounded : Bounded chunks)
    (inside : k ≤ chunks.length) : diagram chunks (cumulative chunks k).1 = (cumulative chunks k).2 := by
  rw [diagram_eq_drop bounded k inside _ le_rfl, value_start (rising_map_point bounded k)]

theorem diagram_of_total_le {chunks : List FeeFrac} (bounded : Bounded chunks) {x : ℚ}
    (past : (cumulative chunks chunks.length).1 ≤ x) :
    diagram chunks x = (cumulative chunks chunks.length).2 := by
  rw [diagram_eq_drop bounded _ le_rfl x past, List.drop_length, List.map_nil, value_nil]

theorem diagram_of_mem_chunk {chunks : List FeeFrac} {k : ℕ} (bounded : Bounded chunks)
    (inside : k < chunks.length) {x : ℚ} (low : (cumulative chunks k).1 ≤ x)
    (high : x ≤ (cumulative chunks (k + 1)).1) :
    diagram chunks x = (cumulative chunks k).2 +
      (point chunks[k]).2 * (x - (cumulative chunks k).1) / (point chunks[k]).1 := by
  rw [cumulative_succ inside] at high
  rw [diagram_eq_drop bounded k inside.le x low, List.drop_eq_getElem_cons inside, List.map_cons]
  exact value_of_mem_segment _ high

theorem diagram_affine {chunks : List FeeFrac} {k : ℕ} (bounded : Bounded chunks)
    (inside : k ≤ chunks.length) :
    ∃ c r : ℚ, ∀ x, (cumulative chunks k).1 ≤ x →
      (k < chunks.length → x ≤ (cumulative chunks (k + 1)).1) → diagram chunks x = c + r * x := by
  rcases inside.lt_or_eq with more | rfl
  · refine ⟨(cumulative chunks k).2 - (point chunks[k]).2 * (cumulative chunks k).1 /
      (point chunks[k]).1, (point chunks[k]).2 / (point chunks[k]).1, fun x low high => ?_⟩
    rw [diagram_of_mem_chunk bounded more low (high more), segment_affine]
  · refine ⟨(cumulative chunks chunks.length).2, 0, fun x low _ => ?_⟩
    rw [diagram_of_total_le bounded low, zero_mul, add_zero]

end Diagrams

section Cursors

/-- `c` is `k` chunks into `chunks`: its rest is what follows, and `accum` holds the sums of what
came before, exactly. -/
structure Tracks (chunks : List FeeFrac) (c : ChunkCursor) (k : ℕ) : Prop where
  within : k ≤ chunks.length
  rest : c.rest = chunks.drop k
  fee : c.accum.fee.toInt = feeSum (chunks.take k)
  size : c.accum.size.toInt = sizeSum (chunks.take k)

/-- A point of a `Bounded` diagram: a fee within `±2 ^ 62` and a size in `[0, 2 ^ 31)`. -/
structure Placeable (f : FeeFrac) : Prop where
  fee_low : -2 ^ 62 ≤ f.fee.toInt
  fee_high : f.fee.toInt < 2 ^ 62
  size_low : 0 ≤ f.size.toInt
  size_high : f.size.toInt < 2 ^ 31

@[simp] theorem ChunkCursor.advance_rest (c : ChunkCursor) : c.advance.rest = c.rest.tail := rfl

@[simp] theorem ChunkCursor.advance_fee (c : ChunkCursor) :
    c.advance.accum.fee = c.accum.fee + (c.rest.headD default).fee := rfl

@[simp] theorem ChunkCursor.advance_size (c : ChunkCursor) :
    c.advance.accum.size = c.accum.size + (c.rest.headD default).size := rfl

theorem ChunkCursor.nextPoint_eq_advance (c : ChunkCursor) : c.nextPoint = c.advance.accum := by
  show FeeFrac.add _ _ = FeeFrac.add _ _
  rw [FeeFrac.add, FeeFrac.add, Int64.add_comm, Int32.add_comm]

@[simp] theorem FeeFrac.sub_fee (a b : FeeFrac) : (a - b).fee = a.fee - b.fee := rfl

@[simp] theorem FeeFrac.sub_size (a b : FeeFrac) : (a - b).size = a.size - b.size := rfl

theorem Placeable.point_sub {a b : FeeFrac} (ha : Placeable a) (hb : Placeable b) :
    point (a - b) = point a - point b := by
  have fee : (a - b).fee.toInt = a.fee.toInt - b.fee.toInt :=
    toInt_sub_eq rfl rfl (by linarith [ha.fee_low, hb.fee_high]) (by linarith [ha.fee_high, hb.fee_low])
  have size : (a - b).size.toInt = a.size.toInt - b.size.toInt :=
    int32_toInt_sub_eq rfl rfl (by linarith [ha.size_low, hb.size_high])
      (by linarith [ha.size_high, hb.size_low])
  simp only [point, fee, size, Prod.mk_sub_mk, Int.cast_sub]

variable {chunks : List FeeFrac} {c : ChunkCursor} {k : ℕ}

theorem Tracks.start (chunks : List FeeFrac) : Tracks chunks ⟨chunks, ⟨0, 0⟩⟩ 0 where
  within := Nat.zero_le _
  rest := rfl
  fee := rfl
  size := rfl

theorem Tracks.head (tracks : Tracks chunks c k) (more : k < chunks.length) :
    c.rest.headD default = chunks[k] := by
  rw [tracks.rest, List.drop_eq_getElem_cons more]
  rfl

theorem Tracks.rest_eq_nil_iff (tracks : Tracks chunks c k) : c.rest = [] ↔ chunks.length ≤ k := by
  rw [tracks.rest, List.drop_eq_nil_iff]

theorem Tracks.isEmpty_rest (tracks : Tracks chunks c k) :
    c.rest.isEmpty = decide (chunks.length ≤ k) := by
  rw [Bool.eq_iff_iff, List.isEmpty_iff, tracks.rest_eq_nil_iff, decide_eq_true_iff]

theorem Tracks.point_accum (tracks : Tracks chunks c k) : point c.accum = cumulative chunks k := by
  rw [point, cumulative, tracks.fee, tracks.size]

variable (bounded : Bounded chunks)
include bounded

theorem Tracks.placeable (tracks : Tracks chunks c k) : Placeable c.accum where
  fee_low := tracks.fee ▸ (bounded.fees k tracks.within).1
  fee_high := tracks.fee ▸ (bounded.fees k tracks.within).2
  size_low := tracks.size ▸ bounded.sizeSum_nonneg k
  size_high := tracks.size ▸ bounded.sizes k tracks.within

theorem Tracks.advance (tracks : Tracks chunks c k) (more : k < chunks.length) :
    Tracks chunks c.advance (k + 1) where
  within := more
  rest := by rw [ChunkCursor.advance_rest, tracks.rest, List.tail_drop]
  fee := by
    have sum := bounded.fees (k + 1) more
    rw [feeSum_take_succ more] at sum ⊢
    exact toInt_add_eq tracks.fee (by rw [tracks.head more]) (by omega) (by omega)
  size := by
    have below := bounded.sizes (k + 1) more
    have nonneg := bounded.sizeSum_nonneg (k + 1)
    rw [sizeSum_take_succ more] at below nonneg ⊢
    exact int32_toInt_add_eq tracks.size (by rw [tracks.head more]) (by omega) (by omega)

theorem Tracks.point_nextPoint (tracks : Tracks chunks c k) (more : k < chunks.length) :
    point c.nextPoint = cumulative chunks (k + 1) := by
  rw [c.nextPoint_eq_advance, (tracks.advance bounded more).point_accum]

theorem Tracks.nextPoint_size (tracks : Tracks chunks c k) (more : k < chunks.length) :
    (c.nextPoint.size.toInt : ℚ) = (cumulative chunks (k + 1)).1 := by
  rw [← point_fst, tracks.point_nextPoint bounded more]

theorem Tracks.placeable_nextPoint (tracks : Tracks chunks c k) (more : k < chunks.length) :
    Placeable c.nextPoint := by
  rw [c.nextPoint_eq_advance]
  exact (tracks.advance bounded more).placeable bounded

end Cursors

section Pass

/-! A pass of `compareChunksStep` seen from the input whose next point it places, `p`, and the
other input `o`. -/

variable {P : Type} (arith : Arith P)

/-- The comparison of the pass that places `p`'s next point against `o`: against the segment `o`
is on, or against level ground once `o` is done. -/
def placeCompare (p o : ChunkCursor) : Ordering :=
  if o.rest.isEmpty then feeRateCompare arith (p.nextPoint - o.accum) ⟨0, 1⟩
  else feeRateCompare arith (p.nextPoint - o.accum) (o.nextPoint - o.accum)

/-- `o` after that pass: advanced together with `p` where its next point has the same size. -/
def placeOther (p o : ChunkCursor) : ChunkCursor :=
  if o.rest.isEmpty then o else if o.nextPoint.size = p.nextPoint.size then o.advance else o

/-- The end of a pass: `unordered` once both flags are set, the next state otherwise. -/
def finishPass (c0 c1 : ChunkCursor) (better0 better1 : Bool) : PartialOrdering ⊕ ChunkState :=
  if better0 ∧ better1 then .inl .unordered else .inr ⟨c0, c1, better0, better1⟩

/-- `unproc_side`: `true` where the pass places diagram `1`'s next point. -/
def unprocSide (s : ChunkState) : Bool :=
  if s.c0.rest.isEmpty ∨ s.c1.rest.isEmpty then s.c0.rest.isEmpty
  else decide (s.c1.nextPoint.size < s.c0.nextPoint.size)

theorem compareChunksStep_eq {s : ChunkState} (going : ¬(s.c0.rest = [] ∧ s.c1.rest = [])) :
    compareChunksStep arith s =
      if unprocSide s then
        finishPass (placeOther s.c1 s.c0) s.c1.advance
          (s.better0 || placeCompare arith s.c1 s.c0 = .lt)
          (s.better1 || placeCompare arith s.c1 s.c0 = .gt)
      else
        finishPass s.c0.advance (placeOther s.c0 s.c1)
          (s.better0 || placeCompare arith s.c0 s.c1 = .gt)
          (s.better1 || placeCompare arith s.c0 s.c1 = .lt) := by
  obtain ⟨c0, c1, better0, better1⟩ := s
  -- the step tests `done0 ∨ done1` where the pass view tests whether `o` is done
  rcases c0 with ⟨_ | ⟨head0, tail0⟩, accum0⟩ <;> rcases c1 with ⟨_ | ⟨head1, tail1⟩, accum1⟩
  · exact absurd ⟨rfl, rfl⟩ going
  · simp [compareChunksStep, unprocSide, placeCompare, placeOther, finishPass]
  · simp [compareChunksStep, unprocSide, placeCompare, placeOther, finishPass]
  · by_cases smaller : (ChunkCursor.nextPoint ⟨head1 :: tail1, accum1⟩).size <
        (ChunkCursor.nextPoint ⟨head0 :: tail0, accum0⟩).size
    all_goals simp [compareChunksStep, unprocSide, placeCompare, placeOther, finishPass, smaller]

theorem feeRateCompare_int128 (a b : FeeFrac) :
    feeRateCompare int128 a b = compare (a.fee.toInt * b.size.toInt) (b.fee.toInt * a.size.toInt) :=
  rfl

theorem feeRateCompare_int128_eq_gt (a b : FeeFrac) :
    feeRateCompare int128 a b = .gt ↔ (point b).2 * (point a).1 < (point a).2 * (point b).1 := by
  rw [feeRateCompare_int128, compare_gt_iff_gt, point_fst, point_fst, point_snd, point_snd]
  norm_cast

theorem feeRateCompare_int128_eq_lt (a b : FeeFrac) :
    feeRateCompare int128 a b = .lt ↔ (point a).2 * (point b).1 < (point b).2 * (point a).1 := by
  rw [feeRateCompare_int128, compare_lt_iff_lt, point_fst, point_fst, point_snd, point_snd]
  norm_cast

theorem point_level : point ⟨0, 1⟩ = (1, 0) := by
  simp [point]

variable {chunksP chunksO : List FeeFrac} {p o : ChunkCursor} {i j : ℕ}

theorem placeCompare_spec (boundedP : Bounded chunksP) (boundedO : Bounded chunksO)
    (trackP : Tracks chunksP p i) (trackO : Tracks chunksO o j) (more : i < chunksP.length)
    (placed : (cumulative chunksO j).1 < (cumulative chunksP (i + 1)).1)
    (first : j < chunksO.length → (cumulative chunksP (i + 1)).1 ≤ (cumulative chunksO (j + 1)).1) :
    (placeCompare int128 p o = .gt ↔
      diagram chunksO (cumulative chunksP (i + 1)).1 < diagram chunksP (cumulative chunksP (i + 1)).1) ∧
    (placeCompare int128 p o = .lt ↔
      diagram chunksP (cumulative chunksP (i + 1)).1 < diagram chunksO (cumulative chunksP (i + 1)).1) := by
  have slopeAP : point (p.nextPoint - o.accum) = cumulative chunksP (i + 1) - cumulative chunksO j := by
    rw [(trackP.placeable_nextPoint boundedP more).point_sub (trackO.placeable boundedO),
      trackP.point_nextPoint boundedP more, trackO.point_accum]
  rw [diagram_cumulative boundedP more]
  rcases Nat.lt_or_ge j chunksO.length with going | done
  · -- `o` is on its `j`-th chunk at that size: compare with the segment `AB`
    have slopeAB : point (o.nextPoint - o.accum) = point chunksO[j] := by
      rw [(trackO.placeable_nextPoint boundedO going).point_sub (trackO.placeable boundedO),
        trackO.point_nextPoint boundedO going, trackO.point_accum, cumulative_succ going, next_sub]
    have positive : (0 : ℚ) < (point chunksO[j]).1 := by
      rw [point_fst]
      exact_mod_cast boundedO.positive _ (List.getElem_mem going)
    have notEmpty : o.rest.isEmpty = false := by
      rw [List.isEmpty_eq_false_iff, ne_eq, trackO.rest_eq_nil_iff]
      omega
    rw [placeCompare, notEmpty, if_neg Bool.false_ne_true, feeRateCompare_int128_eq_gt,
      feeRateCompare_int128_eq_lt, slopeAP, slopeAB,
      diagram_of_mem_chunk boundedO going placed.le (first going), segment_lt_iff positive,
      lt_segment_iff positive]
    exact ⟨Iff.rfl, Iff.rfl⟩
  · -- `o` is done: its diagram is level at that size
    have last : j = chunksO.length := le_antisymm trackO.within done
    have empty : o.rest.isEmpty = true := by
      rw [List.isEmpty_iff, trackO.rest_eq_nil_iff]
      exact done
    have level : diagram chunksO (cumulative chunksP (i + 1)).1 = (cumulative chunksO j).2 := by
      rw [last] at placed ⊢
      exact diagram_of_total_le boundedO placed.le
    rw [placeCompare, empty, if_pos rfl, feeRateCompare_int128_eq_gt, feeRateCompare_int128_eq_lt,
      slopeAP, point_level, level]
    simp only [Prod.snd_sub, zero_mul, mul_one, sub_pos, sub_neg, iff_self, and_self]

theorem placeOther_spec (boundedP : Bounded chunksP) (boundedO : Bounded chunksO)
    (trackP : Tracks chunksP p i) (trackO : Tracks chunksO o j) (more : i < chunksP.length)
    (placed : (cumulative chunksO j).1 < (cumulative chunksP (i + 1)).1)
    (first : j < chunksO.length → (cumulative chunksP (i + 1)).1 ≤ (cumulative chunksO (j + 1)).1) :
    ∃ j', Tracks chunksO (placeOther p o) j' ∧
      (cumulative chunksO j').1 ≤ (cumulative chunksP (i + 1)).1 ∧
      (j' < chunksO.length → (cumulative chunksP (i + 1)).1 < (cumulative chunksO (j' + 1)).1) := by
  rcases Nat.lt_or_ge j chunksO.length with going | done
  · have notEmpty : o.rest.isEmpty = false := by
      rw [List.isEmpty_eq_false_iff, ne_eq, trackO.rest_eq_nil_iff]
      omega
    have sameSize : o.nextPoint.size = p.nextPoint.size ↔
        (cumulative chunksO (j + 1)).1 = (cumulative chunksP (i + 1)).1 := by
      rw [← trackO.nextPoint_size boundedO going, ← trackP.nextPoint_size boundedP more, Int.cast_inj,
        Int32.toInt_inj]
    by_cases together : o.nextPoint.size = p.nextPoint.size
    · -- the next points of both inputs are at one size: `o` moves on with `p`
      have equal := sameSize.mp together
      have moved : placeOther p o = o.advance := by
        rw [placeOther, notEmpty, if_neg Bool.false_ne_true, if_pos together]
      refine ⟨j + 1, ?_, equal.le, fun further => ?_⟩
      · rw [moved]
        exact trackO.advance boundedO going
      · rw [← equal]
        exact cumulative_lt_succ boundedO further
    · have stays : placeOther p o = o := by
        rw [placeOther, notEmpty, if_neg Bool.false_ne_true, if_neg together]
      refine ⟨j, ?_, placed.le, fun _ => lt_of_le_of_ne (first going) ?_⟩
      · rw [stays]
        exact trackO
      · exact fun equal => together (sameSize.mpr equal.symm)
  · have empty : o.rest.isEmpty = true := by
      rw [List.isEmpty_iff, trackO.rest_eq_nil_iff]
      exact done
    refine ⟨j, ?_, placed.le, fun going => absurd going (not_lt.mpr done)⟩
    rw [placeOther, empty, if_pos rfl]
    exact trackO

end Pass

section Loop

variable {chunksP chunksO : List FeeFrac} {p o : ChunkCursor} {i j : ℕ} {betterP betterO : Bool}
  {horizon : ℚ}

/-- The invariant of `CompareChunks`' loop for inputs `p` and `o`, `i` and `j` chunks in. Every
size up to `horizon` has been placed and no point still to come lies at or below it; each flag
says whether its diagram is above the other somewhere up to `horizon`. -/
structure PairInv (chunksP chunksO : List FeeFrac) (p o : ChunkCursor) (i j : ℕ)
    (betterP betterO : Bool) (horizon : ℚ) : Prop where
  trackP : Tracks chunksP p i
  trackO : Tracks chunksO o j
  placedP : (cumulative chunksP i).1 ≤ horizon
  placedO : (cumulative chunksO j).1 ≤ horizon
  aheadP : i < chunksP.length → horizon < (cumulative chunksP (i + 1)).1
  aheadO : j < chunksO.length → horizon < (cumulative chunksO (j + 1)).1
  betterP_iff : betterP = true ↔ ∃ x, 0 ≤ x ∧ x ≤ horizon ∧ diagram chunksO x < diagram chunksP x
  betterO_iff : betterO = true ↔ ∃ x, 0 ≤ x ∧ x ≤ horizon ∧ diagram chunksP x < diagram chunksO x

theorem PairInv.swap (inv : PairInv chunksP chunksO p o i j betterP betterO horizon) :
    PairInv chunksO chunksP o p j i betterO betterP horizon :=
  ⟨inv.trackO, inv.trackP, inv.placedO, inv.placedP, inv.aheadO, inv.aheadP, inv.betterO_iff,
    inv.betterP_iff⟩

theorem PairInv.start (boundedP : Bounded chunksP) (boundedO : Bounded chunksO) :
    PairInv chunksP chunksO ⟨chunksP, ⟨0, 0⟩⟩ ⟨chunksO, ⟨0, 0⟩⟩ 0 0 false false 0 := by
  have origin : ∀ chunks, Bounded chunks → diagram chunks 0 = 0 := fun chunks bounded =>
    value_start (rising_map_point bounded 0)
  have nowhere : ∀ D E : ℚ → ℚ, D 0 = 0 → E 0 = 0 → ¬∃ x, 0 ≤ x ∧ x ≤ 0 ∧ D x < E x := by
    rintro D E hD hE ⟨x, low, high, below⟩
    rw [le_antisymm high low, hD, hE] at below
    exact lt_irrefl 0 below
  refine ⟨Tracks.start chunksP, Tracks.start chunksO, le_rfl, le_rfl, fun more => ?_,
    fun more => ?_, ?_, ?_⟩
  · exact cumulative_lt_succ boundedP more
  · exact cumulative_lt_succ boundedO more
  · simpa using nowhere _ _ (origin _ boundedO) (origin _ boundedP)
  · simpa using nowhere _ _ (origin _ boundedP) (origin _ boundedO)

theorem PairInv.place (boundedP : Bounded chunksP) (boundedO : Bounded chunksO)
    (inv : PairInv chunksP chunksO p o i j betterP betterO horizon) (more : i < chunksP.length)
    (first : j < chunksO.length → (cumulative chunksP (i + 1)).1 ≤ (cumulative chunksO (j + 1)).1) :
    ∃ j', PairInv chunksP chunksO p.advance (placeOther p o) (i + 1) j'
      (betterP || placeCompare int128 p o = .gt) (betterO || placeCompare int128 p o = .lt)
      (cumulative chunksP (i + 1)).1 := by
  have ahead := inv.aheadP more
  have placed := lt_of_le_of_lt inv.placedO ahead
  have start := (cumulative_fst_nonneg boundedP i).trans inv.placedP
  obtain ⟨gt_iff, lt_iff⟩ := placeCompare_spec boundedP boundedO inv.trackP inv.trackO more placed first
  have affineP : ∃ c r, ∀ x, horizon ≤ x → x ≤ (cumulative chunksP (i + 1)).1 →
      diagram chunksP x = c + r * x := by
    obtain ⟨c, r, line⟩ := diagram_affine boundedP inv.trackP.within
    exact ⟨c, r, fun x low high => line x (inv.placedP.trans low) fun _ => high⟩
  have affineO : ∃ c r, ∀ x, horizon ≤ x → x ≤ (cumulative chunksP (i + 1)).1 →
      diagram chunksO x = c + r * x := by
    obtain ⟨c, r, line⟩ := diagram_affine boundedO inv.trackO.within
    exact ⟨c, r, fun x low high => line x (inv.placedO.trans low) fun going => high.trans (first going)⟩
  obtain ⟨j', trackO, placedO, aheadO⟩ :=
    placeOther_spec boundedP boundedO inv.trackP inv.trackO more placed first
  refine ⟨j', inv.trackP.advance boundedP more, trackO, le_rfl, placedO,
    fun further => cumulative_lt_succ boundedP further, aheadO, ?_, ?_⟩
  · rw [Bool.or_eq_true, inv.betterP_iff, decide_eq_true_iff, gt_iff,
      exists_lt_extend start ahead.le affineP affineO]
  · rw [Bool.or_eq_true, inv.betterO_iff, decide_eq_true_iff, lt_iff,
      exists_lt_extend start ahead.le affineO affineP]

theorem PairInv.exists_lt_iff (boundedP : Bounded chunksP) (boundedO : Bounded chunksO)
    (inv : PairInv chunksP chunksO p o i j betterP betterO horizon) (doneP : chunksP.length ≤ i)
    (doneO : chunksO.length ≤ j) :
    (∃ x, 0 ≤ x ∧ x ≤ horizon ∧ diagram chunksO x < diagram chunksP x) ↔
      ∃ x, 0 ≤ x ∧ diagram chunksO x < diagram chunksP x := by
  have lastP : i = chunksP.length := le_antisymm inv.trackP.within doneP
  have lastO : j = chunksO.length := le_antisymm inv.trackO.within doneO
  have placedP := inv.placedP
  have placedO := inv.placedO
  rw [lastP] at placedP
  rw [lastO] at placedO
  constructor
  · rintro ⟨x, low, -, above⟩
    exact ⟨x, low, above⟩
  · rintro ⟨x, low, above⟩
    rcases le_total x horizon with before | after
    · exact ⟨x, low, before, above⟩
    · -- beyond the horizon both diagrams have their values at it
      refine ⟨horizon, (cumulative_fst_nonneg boundedP _).trans placedP, le_rfl, ?_⟩
      rwa [diagram_of_total_le boundedP placedP, diagram_of_total_le boundedO placedO,
        ← diagram_of_total_le boundedP (placedP.trans after),
        ← diagram_of_total_le boundedO (placedO.trans after)]

end Loop

section Order

variable {D0 D1 : ℚ → ℚ}

theorem diagramOrder_eq_unordered (above0 : ∃ x, 0 ≤ x ∧ D1 x < D0 x)
    (above1 : ∃ x, 0 ≤ x ∧ D0 x < D1 x) : diagramOrder D0 D1 = .unordered := by
  rw [diagramOrder, if_pos above0, if_pos above1]

theorem diagramOrder_eq_ofOrdering {better0 better1 : Bool}
    (better0_iff : better0 = true ↔ ∃ x, 0 ≤ x ∧ D1 x < D0 x)
    (better1_iff : better1 = true ↔ ∃ x, 0 ≤ x ∧ D0 x < D1 x)
    (notBoth : ¬(better0 = true ∧ better1 = true)) :
    diagramOrder D0 D1 = .ofOrdering (compare better0 better1) := by
  rw [diagramOrder, ← better0_iff, ← better1_iff]
  cases better0 <;> cases better1
  · simp only [Bool.false_eq_true, if_false]
    rfl
  · simp only [Bool.false_eq_true, if_false, if_true]
    rfl
  · simp only [Bool.false_eq_true, if_false, if_true]
    rfl
  · exact absurd ⟨rfl, rfl⟩ notBoth

theorem diagramOrder_spec (D0 D1 : ℚ → ℚ) :
    (diagramOrder D0 D1 = .equivalent ↔ ∀ x, 0 ≤ x → D0 x = D1 x) ∧
    (diagramOrder D0 D1 = .greater ↔
      (∀ x, 0 ≤ x → D1 x ≤ D0 x) ∧ ∃ x, 0 ≤ x ∧ D1 x < D0 x) ∧
    (diagramOrder D0 D1 = .less ↔ (∀ x, 0 ≤ x → D0 x ≤ D1 x) ∧ ∃ x, 0 ≤ x ∧ D0 x < D1 x) ∧
    (diagramOrder D0 D1 = .unordered ↔
      (∃ x, 0 ≤ x ∧ D1 x < D0 x) ∧ ∃ x, 0 ≤ x ∧ D0 x < D1 x) := by
  have nowhere0 : (¬∃ x, 0 ≤ x ∧ D1 x < D0 x) ↔ ∀ x, 0 ≤ x → D0 x ≤ D1 x := by
    simp only [not_exists, not_and, not_lt]
  have nowhere1 : (¬∃ x, 0 ≤ x ∧ D0 x < D1 x) ↔ ∀ x, 0 ≤ x → D1 x ≤ D0 x := by
    simp only [not_exists, not_and, not_lt]
  have equal : (∀ x, 0 ≤ x → D0 x = D1 x) ↔
      (∀ x, 0 ≤ x → D0 x ≤ D1 x) ∧ ∀ x, 0 ≤ x → D1 x ≤ D0 x :=
    ⟨fun same => ⟨fun x low => (same x low).le, fun x low => (same x low).ge⟩,
      fun both x low => le_antisymm (both.1 x low) (both.2 x low)⟩
  rw [equal, ← nowhere0, ← nowhere1]
  -- each result is one of the four cases of the two `∃`s
  by_cases above0 : ∃ x, 0 ≤ x ∧ D1 x < D0 x <;> by_cases above1 : ∃ x, 0 ≤ x ∧ D0 x < D1 x <;>
    simp [diagramOrder, above0, above1]

end Order

section Run

variable {chunks0 chunks1 : List FeeFrac} {s : ChunkState} {i j : ℕ}

/-- The loop's invariant on a state: `PairInv` for the inputs in order, and not both flags set. -/
def StateInv (chunks0 chunks1 : List FeeFrac) (s : ChunkState) : Prop :=
  ∃ i j horizon, PairInv chunks0 chunks1 s.c0 s.c1 i j s.better0 s.better1 horizon ∧
    ¬(s.better0 = true ∧ s.better1 = true)

/-- The chunks the loop has still to go through. -/
def ChunkState.remaining (s : ChunkState) : ℕ := s.c0.rest.length + s.c1.rest.length

/-- What a pass from `s` may lead to: the order of the diagrams, or a state that keeps the
invariant with fewer chunks left. -/
def StepSound (chunks0 chunks1 : List FeeFrac) (s : ChunkState) :
    PartialOrdering ⊕ ChunkState → Prop
  | .inl result => result = diagramOrder (diagram chunks0) (diagram chunks1)
  | .inr next => StateInv chunks0 chunks1 next ∧ next.remaining < s.remaining

theorem unprocSide_spec (bounded0 : Bounded chunks0) (bounded1 : Bounded chunks1)
    (track0 : Tracks chunks0 s.c0 i) (track1 : Tracks chunks1 s.c1 j)
    (going : ¬(s.c0.rest = [] ∧ s.c1.rest = [])) :
    if unprocSide s then
      j < chunks1.length ∧
        (i < chunks0.length → (cumulative chunks1 (j + 1)).1 ≤ (cumulative chunks0 (i + 1)).1)
    else
      i < chunks0.length ∧
        (j < chunks1.length → (cumulative chunks0 (i + 1)).1 ≤ (cumulative chunks1 (j + 1)).1) := by
  rw [track0.rest_eq_nil_iff, track1.rest_eq_nil_iff] at going
  by_cases done0 : chunks0.length ≤ i
  · have side : unprocSide s = true := by
      simp [unprocSide, track0.isEmpty_rest, done0]
    rw [if_pos side]
    exact ⟨by omega, fun more => absurd more (by omega)⟩
  by_cases done1 : chunks1.length ≤ j
  · have side : unprocSide s = false := by
      simp [unprocSide, track0.isEmpty_rest, track1.isEmpty_rest, done0, done1]
    rw [if_neg (by rw [side]; exact Bool.false_ne_true)]
    exact ⟨by omega, fun more => absurd more (by omega)⟩
  -- neither is done: the smaller next size is placed, diagram `0`'s on a tie
  have more0 : i < chunks0.length := by omega
  have more1 : j < chunks1.length := by omega
  have sizes : s.c1.nextPoint.size < s.c0.nextPoint.size ↔
      (cumulative chunks1 (j + 1)).1 < (cumulative chunks0 (i + 1)).1 := by
    rw [Int32.lt_iff_toInt_lt, ← Int.cast_lt (R := ℚ), track1.nextPoint_size bounded1 more1,
      track0.nextPoint_size bounded0 more0]
  have side : unprocSide s = decide (s.c1.nextPoint.size < s.c0.nextPoint.size) := by
    simp [unprocSide, track0.isEmpty_rest, track1.isEmpty_rest, done0, done1]
  by_cases smaller : s.c1.nextPoint.size < s.c0.nextPoint.size
  · rw [if_pos (by rw [side, decide_eq_true_iff]; exact smaller)]
    exact ⟨more1, fun _ => (sizes.mp smaller).le⟩
  · rw [if_neg (by rw [side, decide_eq_true_iff]; exact smaller)]
    exact ⟨more0, fun _ => not_lt.mp (mt sizes.mpr smaller)⟩

theorem length_placeOther_rest_le (p o : ChunkCursor) :
    (placeOther p o).rest.length ≤ o.rest.length := by
  unfold placeOther
  split_ifs
  · exact le_rfl
  · rw [ChunkCursor.advance_rest, List.length_tail]
    exact Nat.sub_le _ _
  · exact le_rfl

theorem length_advance_rest_lt {c : ChunkCursor} (nonempty : c.rest ≠ []) :
    c.advance.rest.length < c.rest.length := by
  rw [ChunkCursor.advance_rest, List.length_tail]
  have := List.length_pos_iff.mpr nonempty
  omega

theorem finishPass_sound {c0 c1 : ChunkCursor} {better0 better1 : Bool} {horizon : ℚ}
    (inv : PairInv chunks0 chunks1 c0 c1 i j better0 better1 horizon)
    (shorter : c0.rest.length + c1.rest.length < s.remaining) :
    StepSound chunks0 chunks1 s (finishPass c0 c1 better0 better1) := by
  unfold finishPass
  split_ifs with both
  · obtain ⟨x0, low0, -, above0⟩ := inv.betterP_iff.mp both.1
    obtain ⟨x1, low1, -, above1⟩ := inv.betterO_iff.mp both.2
    exact (diagramOrder_eq_unordered ⟨x0, low0, above0⟩ ⟨x1, low1, above1⟩).symm
  · exact ⟨⟨i, j, horizon, inv, both⟩, shorter⟩

theorem compareChunksStep_sound (bounded0 : Bounded chunks0) (bounded1 : Bounded chunks1)
    (inv : StateInv chunks0 chunks1 s) : StepSound chunks0 chunks1 s (compareChunksStep int128 s) := by
  obtain ⟨i, j, horizon, inv, notBoth⟩ := inv
  by_cases finished : s.c0.rest = [] ∧ s.c1.rest = []
  · -- both inputs done: the flags give the order
    have step : compareChunksStep int128 s = .inl (.ofOrdering (compare s.better0 s.better1)) := by
      simp [compareChunksStep, finished]
    have done0 := inv.trackP.rest_eq_nil_iff.mp finished.1
    have done1 := inv.trackO.rest_eq_nil_iff.mp finished.2
    rw [step]
    exact (diagramOrder_eq_ofOrdering
      (inv.betterP_iff.trans (inv.exists_lt_iff bounded0 bounded1 done0 done1))
      (inv.betterO_iff.trans (inv.swap.exists_lt_iff bounded1 bounded0 done1 done0)) notBoth).symm
  have side := unprocSide_spec bounded0 bounded1 inv.trackP inv.trackO finished
  rw [compareChunksStep_eq int128 finished]
  cases h : unprocSide s
  · -- diagram `0`'s next point is placed
    rw [h, if_neg Bool.false_ne_true] at side
    obtain ⟨j', next⟩ := inv.place bounded0 bounded1 side.1 side.2
    have nonempty : s.c0.rest ≠ [] := by
      rw [ne_eq, inv.trackP.rest_eq_nil_iff]
      omega
    apply finishPass_sound next
    have := length_advance_rest_lt nonempty
    have := length_placeOther_rest_le s.c0 s.c1
    unfold ChunkState.remaining
    omega
  · -- diagram `1`'s next point is placed
    rw [h, if_pos rfl] at side
    obtain ⟨i', next⟩ := inv.swap.place bounded1 bounded0 side.1 side.2
    have nonempty : s.c1.rest ≠ [] := by
      rw [ne_eq, inv.trackO.rest_eq_nil_iff]
      omega
    apply finishPass_sound next.swap
    have := length_advance_rest_lt nonempty
    have := length_placeOther_rest_le s.c1 s.c0
    unfold ChunkState.remaining
    omega

theorem compareChunksLoop_eq (bounded0 : Bounded chunks0) (bounded1 : Bounded chunks1) :
    ∀ fuel s, StateInv chunks0 chunks1 s → s.remaining < fuel →
      compareChunksLoop int128 fuel s = diagramOrder (diagram chunks0) (diagram chunks1) := by
  intro fuel
  induction fuel with
  | zero => exact fun _ _ enough => absurd enough (Nat.not_lt_zero _)
  | succ fuel ih =>
    intro s inv enough
    have sound := compareChunksStep_sound bounded0 bounded1 inv
    rw [compareChunksLoop]
    cases h : compareChunksStep int128 s with
    | inl result =>
      rw [h] at sound
      exact sound
    | inr next =>
      rw [h] at sound
      obtain ⟨kept, shorter⟩ := sound
      exact ih next kept (by omega)

theorem compareChunks_int128 (bounded0 : Bounded chunks0) (bounded1 : Bounded chunks1) :
    compareChunks int128 chunks0 chunks1 = diagramOrder (diagram chunks0) (diagram chunks1) := by
  apply compareChunksLoop_eq bounded0 bounded1
  · exact ⟨0, 0, 0, PairInv.start bounded0 bounded1, by simp⟩
  · simp [ChunkState.remaining]

theorem compareChunksStep_fallback (s : ChunkState) :
    compareChunksStep fallback s = compareChunksStep int128 s := by
  simp only [compareChunksStep, feeRateCompare_fallback]

theorem compareChunksLoop_fallback (fuel : ℕ) (s : ChunkState) :
    compareChunksLoop fallback fuel s = compareChunksLoop int128 fuel s := by
  induction fuel generalizing s with
  | zero => rfl
  | succ fuel ih =>
    rw [compareChunksLoop, compareChunksLoop, compareChunksStep_fallback]
    cases compareChunksStep int128 s with
    | inl result => rfl
    | inr next => exact ih next

theorem compareChunks_fallback (chunks0 chunks1 : List FeeFrac) :
    compareChunks fallback chunks0 chunks1 = compareChunks int128 chunks0 chunks1 :=
  compareChunksLoop_fallback _ _

end Run

section Order

theorem compareChunks_decides_diagram_order (chunks0 chunks1 : List FeeFrac)
    (bounded0 : Bounded chunks0) (bounded1 : Bounded chunks1) :
    ∀ result ∈ [compareChunks int128 chunks0 chunks1, compareChunks fallback chunks0 chunks1],
      (result = .equivalent ↔ ∀ x, 0 ≤ x → diagram chunks0 x = diagram chunks1 x) ∧
      (result = .greater ↔ (∀ x, 0 ≤ x → diagram chunks1 x ≤ diagram chunks0 x) ∧
        ∃ x, 0 ≤ x ∧ diagram chunks1 x < diagram chunks0 x) ∧
      (result = .less ↔ (∀ x, 0 ≤ x → diagram chunks0 x ≤ diagram chunks1 x) ∧
        ∃ x, 0 ≤ x ∧ diagram chunks0 x < diagram chunks1 x) ∧
      (result = .unordered ↔ (∃ x, 0 ≤ x ∧ diagram chunks1 x < diagram chunks0 x) ∧
        ∃ x, 0 ≤ x ∧ diagram chunks0 x < diagram chunks1 x) := by
  intro result member
  have order : result = diagramOrder (diagram chunks0) (diagram chunks1) := by
    rw [List.mem_pair] at member
    rcases member with rfl | rfl
    · exact compareChunks_int128 bounded0 bounded1
    · rw [compareChunks_fallback]
      exact compareChunks_int128 bounded0 bounded1
  rw [order]
  exact diagramOrder_spec _ _

theorem compareChunks_orders_sample_diagrams :
    (∀ x, 0 ≤ x → diagram [⟨2, 2⟩] x ≤ diagram [⟨3, 1⟩, ⟨1, 2⟩] x) ∧
      ∃ x, 0 ≤ x ∧ diagram [⟨2, 2⟩] x < diagram [⟨3, 1⟩, ⟨1, 2⟩] x :=
  ((compareChunks_decides_diagram_order [⟨3, 1⟩, ⟨1, 2⟩] [⟨2, 2⟩]
    ⟨by decide, by decide, by decide⟩ ⟨by decide, by decide, by decide⟩ _
    (List.mem_cons_self ..)).2.1).mp (by decide)

/-- Cumulative fees of `2 ^ 62` and `-2 ^ 62` fit an `int64_t`, but the slope between them does
not: the loop sees diagram `1` above diagram `0` at size `2` and returns `unordered`, where
diagram `0` is above everywhere. -/
theorem compareChunks_overflows_at_two_pow_62 :
    (∀ c ∈ [(⟨0x4000000000000000, 2⟩ : FeeFrac), ⟨-0x4000000000000000, 1⟩, ⟨0, 5⟩],
      0 < c.size.toInt) ∧
    compareChunks int128 [⟨0x4000000000000000, 2⟩] [⟨-0x4000000000000000, 1⟩, ⟨0, 5⟩] =
      .unordered ∧
    compareChunks fallback [⟨0x4000000000000000, 2⟩] [⟨-0x4000000000000000, 1⟩, ⟨0, 5⟩] =
      .unordered ∧
    (∀ x, 0 ≤ x →
      diagram [⟨-0x4000000000000000, 1⟩, ⟨0, 5⟩] x ≤ diagram [⟨0x4000000000000000, 2⟩] x) ∧
    diagram [⟨-0x4000000000000000, 1⟩, ⟨0, 5⟩] 1 < diagram [⟨0x4000000000000000, 2⟩] 1 := by
  obtain ⟨two, one, five, zero, high, low⟩ : (2 : Int32).toInt = 2 ∧ (1 : Int32).toInt = 1 ∧
      (5 : Int32).toInt = 5 ∧ (0 : Int64).toInt = 0 ∧ (0x4000000000000000 : Int64).toInt = 2 ^ 62 ∧
      (-0x4000000000000000 : Int64).toInt = -2 ^ 62 := by decide
  -- diagram `0` rises to `2 ^ 62` and stays there; diagram `1` falls to `-2 ^ 62` and stays
  have above : ∀ x, 0 ≤ x → 0 ≤ diagram [⟨0x4000000000000000, 2⟩] x := by
    intro x nonneg
    simp only [diagram, List.map, point, value, high, two]
    push_cast
    split_ifs <;> positivity
  have below : ∀ x, 0 ≤ x → diagram [⟨-0x4000000000000000, 1⟩, ⟨0, 5⟩] x ≤ 0 := by
    intro x nonneg
    simp only [diagram, List.map, point, value, low, one, five, zero]
    push_cast
    split_ifs <;> nlinarith
  refine ⟨by decide, by decide, by decide, fun x nonneg => (below x nonneg).trans (above x nonneg), ?_⟩
  simp only [diagram, List.map, point, value, high, low, two, one, five, zero]
  norm_num

end Order

end Freycoin.Cluster
