import Freycoin.Util.BitSetSpec

/-! `MultiIntBitSet<I, N>` as a finite set of positions below `W * N`. -/

namespace Freycoin.Util

open StdBit

theorem sum_range_mul_blocks (f : ℕ → ℕ) (W n : ℕ) :
    ∑ p ∈ Finset.range (W * n), f p = ∑ j ∈ Finset.range n, ∑ q ∈ Finset.range W, f (q + j * W) := by
  induction n with
  | zero => simp
  | succ n ih =>
      rw [Nat.mul_succ, Finset.sum_range_add, ih, Finset.sum_range_succ]
      congr 1
      exact Finset.sum_congr rfl fun q _ => by rw [Nat.add_comm, Nat.mul_comm]

namespace MultiIntBitSet

variable {W N : ℕ}

section Limb

theorem limb_of_lt (s : MultiIntBitSet W N) {j : ℕ} (inside : j < N) : s.limb j = s.val[j] := by
  rw [limb, Vector.getElem?_eq_getElem inside, Option.getD_some]

theorem limb_empty (j : ℕ) : (empty : MultiIntBitSet W N).limb j = 0 := by
  rw [limb, empty, Vector.getElem?_replicate]
  split <;> rfl

theorem limb_updateLimb (s : MultiIntBitSet W N) (i : ℕ) (f : BitVec W → BitVec W) {j : ℕ}
    (inside : j < N) : (s.updateLimb i f).limb j = if j = i then f (s.limb j) else s.limb j := by
  rw [limb_of_lt _ inside, limb_of_lt _ inside, updateLimb, Vector.getElem_mapIdx]

theorem limb_limbwise (op : BitVec W → BitVec W → BitVec W) (a b : MultiIntBitSet W N) {j : ℕ}
    (inside : j < N) : (limbwise op a b).limb j = op (a.limb j) (b.limb j) := by
  rw [limb_of_lt _ inside, limb_of_lt _ inside, limb_of_lt _ inside, limbwise, Vector.getElem_zipWith]


theorem set_eq (s : MultiIntBitSet W N) (pos : ℕ) :
    s.set pos = s.updateLimb (pos / W) fun x => (IntBitSet.set ⟨x⟩ (pos % W)).val := rfl

theorem reset_eq (s : MultiIntBitSet W N) (pos : ℕ) :
    s.reset pos = s.updateLimb (pos / W) fun x => (IntBitSet.reset ⟨x⟩ (pos % W)).val := rfl

theorem setTo_eq (s : MultiIntBitSet W N) (pos : ℕ) (b : Bool) :
    s.setTo pos b = s.updateLimb (pos / W) fun x => (IntBitSet.setTo ⟨x⟩ (pos % W) b).val := rfl

theorem singleton_eq (pos : ℕ) :
    (singleton pos : MultiIntBitSet W N) = empty.updateLimb (pos / W) fun _ => (IntBitSet.singleton (pos % W)).val :=
  rfl

end Limb

/-- The positions of the one bits. -/
def elems (s : MultiIntBitSet W N) : Finset ℕ :=
  (Finset.range (W * N)).filter fun p => (s.limb (p / W)).getLsbD (p % W)

@[simp] theorem mem_elems {s : MultiIntBitSet W N} {p : ℕ} :
    p ∈ s.elems ↔ p < W * N ∧ (s.limb (p / W)).getLsbD (p % W) = true := by
  rw [elems, Finset.mem_filter, Finset.mem_range]

theorem elems_subset_range (s : MultiIntBitSet W N) : s.elems ⊆ Finset.range (W * N) :=
  Finset.filter_subset _ _

theorem mod_add_mul {q : ℕ} (bit : q < W) (j : ℕ) : (q + j * W) % W = q := by
  rw [Nat.add_mul_mod_self_right, Nat.mod_eq_of_lt bit]

section Index

variable [NeZero W]

theorem div_add_mul {q : ℕ} (bit : q < W) (j : ℕ) : (q + j * W) / W = j := by
  rw [Nat.add_mul_div_right _ _ (Nat.pos_of_neZero W), Nat.div_eq_of_lt bit, Nat.zero_add]

theorem exists_add_mul (p : ℕ) : ∃ q < W, ∃ j, p = q + j * W :=
  ⟨p % W, Nat.mod_lt _ (Nat.pos_of_neZero W), p / W, (Nat.mod_add_div' p W).symm⟩

theorem add_mul_inj {q q' j j' : ℕ} (bit : q < W) (bit' : q' < W) :
    q + j * W = q' + j' * W ↔ q = q' ∧ j = j' := by
  constructor
  · intro same
    have limbs := congrArg (· / W) same
    have bits := congrArg (· % W) same
    simp only [div_add_mul bit, div_add_mul bit', mod_add_mul bit, mod_add_mul bit'] at limbs bits
    exact ⟨bits, limbs⟩
  · rintro ⟨rfl, rfl⟩
    rfl

theorem add_mul_lt {q j : ℕ} (bit : q < W) : q + j * W < W * N ↔ j < N := by
  rw [Nat.mul_comm W N, ← Nat.div_lt_iff_lt_mul (Nat.pos_of_neZero W), div_add_mul bit]

theorem mem_elems_add_mul {s : MultiIntBitSet W N} {q j : ℕ} (bit : q < W) :
    q + j * W ∈ s.elems ↔ j < N ∧ (s.limb j).getLsbD q = true := by
  rw [mem_elems, add_mul_lt bit, div_add_mul bit, mod_add_mul bit]

theorem mem_limb {s : MultiIntBitSet W N} {q j : ℕ} (inside : j < N) :
    q ∈ (IntBitSet.mk (s.limb j)).elems ↔ q < W ∧ q + j * W ∈ s.elems := by
  rw [IntBitSet.mem_elems]
  constructor
  · rintro ⟨bit, set⟩
    exact ⟨bit, (mem_elems_add_mul bit).mpr ⟨inside, set⟩⟩
  · rintro ⟨bit, member⟩
    exact ⟨bit, ((mem_elems_add_mul bit).mp member).2⟩

theorem mem_elems_updateLimb (s : MultiIntBitSet W N) {i : ℕ} (inside : i < N) (f : BitVec W → BitVec W)
    {q j : ℕ} (bit : q < W) : q + j * W ∈ (s.updateLimb i f).elems ↔
      if j = i then (f (s.limb i)).getLsbD q = true else q + j * W ∈ s.elems := by
  by_cases same : j = i
  · subst same
    rw [if_pos rfl, mem_elems_add_mul bit, limb_updateLimb _ _ _ inside, if_pos rfl]
    exact ⟨And.right, fun set => ⟨inside, set⟩⟩
  · rw [if_neg same, mem_elems_add_mul bit, mem_elems_add_mul bit]
    constructor
    · rintro ⟨limbInside, set⟩
      rw [limb_updateLimb _ _ _ limbInside, if_neg same] at set
      exact ⟨limbInside, set⟩
    · rintro ⟨limbInside, set⟩
      rw [limb_updateLimb _ _ _ limbInside, if_neg same]
      exact ⟨limbInside, set⟩

theorem mem_elems_limbwise (op : BitVec W → BitVec W → BitVec W) (a b : MultiIntBitSet W N) {q j : ℕ}
    (bit : q < W) : q + j * W ∈ (limbwise op a b).elems ↔ j < N ∧ (op (a.limb j) (b.limb j)).getLsbD q = true := by
  rw [mem_elems_add_mul bit]
  constructor
  · rintro ⟨inside, set⟩
    rw [limb_limbwise _ _ _ inside] at set
    exact ⟨inside, set⟩
  · rintro ⟨inside, set⟩
    rw [limb_limbwise _ _ _ inside]
    exact ⟨inside, set⟩

end Index

section Construct

variable [NeZero W]

theorem eq_iff_elems_eq {a b : MultiIntBitSet W N} : a = b ↔ a.elems = b.elems := by
  constructor
  · intro same
    rw [same]
  · intro same
    cases a with | mk a =>
    cases b with | mk b =>
    congr 1
    apply Vector.ext
    intro j inside
    apply BitVec.eq_of_getLsbD_eq
    intro q bit
    have member := congrArg (q + j * W ∈ ·) same
    simp only [mem_elems_add_mul bit, limb_of_lt _ inside, inside, true_and, eq_iff_iff] at member
    exact Bool.eq_iff_iff.mpr member

theorem elems_empty : (empty : MultiIntBitSet W N).elems = ∅ := by
  ext p
  obtain ⟨q, bit, j, rfl⟩ := exists_add_mul (W := W) p
  simp [mem_elems_add_mul bit, limb_empty]

theorem mem_elems_update (s : MultiIntBitSet W N) {j0 : ℕ} (limbInside : j0 < N)
    (g : IntBitSet W → IntBitSet W) {q j : ℕ} (bit : q < W) :
    q + j * W ∈ (s.updateLimb j0 fun x => (g ⟨x⟩).val).elems ↔
      if j = j0 then q ∈ (g ⟨s.limb j0⟩).elems else q + j * W ∈ s.elems := by
  rw [mem_elems_updateLimb _ limbInside _ bit]
  split
  · rw [IntBitSet.mem_elems]
    exact ⟨fun set => ⟨bit, set⟩, And.right⟩
  · rfl

theorem elems_set (s : MultiIntBitSet W N) {pos : ℕ} (inside : pos < W * N) :
    (s.set pos).elems = insert pos s.elems := by
  obtain ⟨q0, bit0, j0, rfl⟩ := exists_add_mul (W := W) pos
  have limbInside := (add_mul_lt bit0).mp inside
  ext p
  obtain ⟨q, bit, j, rfl⟩ := exists_add_mul (W := W) p
  rw [set_eq, div_add_mul bit0, mod_add_mul bit0, mem_elems_update _ limbInside (·.set q0) bit, Finset.mem_insert,
    add_mul_inj bit bit0]
  split
  · rename_i same
    subst same
    rw [IntBitSet.elems_set _ bit0, Finset.mem_insert, mem_limb limbInside]
    simp [bit]
  · rename_i other
    simp [other]

theorem elems_reset (s : MultiIntBitSet W N) {pos : ℕ} (inside : pos < W * N) :
    (s.reset pos).elems = s.elems.erase pos := by
  obtain ⟨q0, bit0, j0, rfl⟩ := exists_add_mul (W := W) pos
  have limbInside := (add_mul_lt bit0).mp inside
  ext p
  obtain ⟨q, bit, j, rfl⟩ := exists_add_mul (W := W) p
  rw [reset_eq, div_add_mul bit0, mod_add_mul bit0, mem_elems_update _ limbInside (·.reset q0) bit, Finset.mem_erase,
    ne_eq, add_mul_inj bit bit0]
  split
  · rename_i same
    subst same
    rw [IntBitSet.elems_reset _ bit0, Finset.mem_erase, mem_limb limbInside]
    simp [bit]
  · rename_i other
    simp [other]

theorem setTo_eq_ite (s : MultiIntBitSet W N) (pos : ℕ) (b : Bool) :
    s.setTo pos b = if b then s.set pos else s.reset pos := by
  have bit : pos % W < W := Nat.mod_lt _ (Nat.pos_of_neZero W)
  rw [setTo_eq]
  cases b with
  | false =>
      rw [if_neg Bool.false_ne_true, reset_eq]
      simp only [IntBitSet.setTo_eq_ite _ bit, if_neg Bool.false_ne_true]
  | true =>
      rw [if_pos rfl, set_eq]
      simp only [IntBitSet.setTo_eq_ite _ bit, ite_true]

theorem elems_setTo (s : MultiIntBitSet W N) {pos : ℕ} (inside : pos < W * N) (b : Bool) :
    (s.setTo pos b).elems = if b then insert pos s.elems else s.elems.erase pos := by
  rw [setTo_eq_ite]
  cases b with
  | false => rw [if_neg Bool.false_ne_true, if_neg Bool.false_ne_true, elems_reset _ inside]
  | true => rw [if_pos rfl, if_pos rfl, elems_set _ inside]

theorem elems_singleton {pos : ℕ} (inside : pos < W * N) : (singleton pos : MultiIntBitSet W N).elems = {pos} := by
  obtain ⟨q0, bit0, j0, rfl⟩ := exists_add_mul (W := W) pos
  have limbInside := (add_mul_lt bit0).mp inside
  ext p
  obtain ⟨q, bit, j, rfl⟩ := exists_add_mul (W := W) p
  rw [singleton_eq, div_add_mul bit0, mod_add_mul bit0, mem_elems_update _ limbInside (fun _ => IntBitSet.singleton q0) bit,
    Finset.mem_singleton, add_mul_inj bit bit0, IntBitSet.elems_singleton bit0, Finset.mem_singleton, elems_empty]
  split
  · rename_i same
    simp [same]
  · rename_i other
    simp [other]

theorem get_iff (s : MultiIntBitSet W N) {pos : ℕ} (inside : pos < W * N) : s.get pos = true ↔ pos ∈ s.elems := by
  rw [get, and_one_ne_zero _ (Nat.pos_of_neZero W), BitVec.getLsbD_ushiftRight, Nat.add_zero, mem_elems]
  exact ⟨fun set => ⟨inside, set⟩, And.right⟩

end Construct

theorem assign_eq (a b : MultiIntBitSet W N) : a.orAssign b = a.or b ∧ a.andAssign b = a.and b ∧
    a.subAssign b = a.sub b ∧ a.xorAssign b = a.xor b := ⟨rfl, rfl, rfl, rfl⟩

section Combine

variable [NeZero W] (a b : MultiIntBitSet W N)

theorem elems_or : (a.or b).elems = a.elems ∪ b.elems := by
  ext p
  obtain ⟨q, bit, j, rfl⟩ := exists_add_mul (W := W) p
  rw [or, mem_elems_limbwise _ _ _ bit, Finset.mem_union, mem_elems_add_mul bit, mem_elems_add_mul bit,
    BitVec.getLsbD_or, Bool.or_eq_true]
  tauto

theorem elems_and : (a.and b).elems = a.elems ∩ b.elems := by
  ext p
  obtain ⟨q, bit, j, rfl⟩ := exists_add_mul (W := W) p
  rw [and, mem_elems_limbwise _ _ _ bit, Finset.mem_inter, mem_elems_add_mul bit, mem_elems_add_mul bit,
    BitVec.getLsbD_and, Bool.and_eq_true]
  tauto

theorem elems_sub : (a.sub b).elems = a.elems \ b.elems := by
  ext p
  obtain ⟨q, bit, j, rfl⟩ := exists_add_mul (W := W) p
  rw [sub, mem_elems_limbwise _ _ _ bit, Finset.mem_sdiff, mem_elems_add_mul bit, mem_elems_add_mul bit,
    BitVec.getLsbD_and, BitVec.getLsbD_not]
  simp only [bit, decide_true, Bool.true_and, Bool.and_eq_true, Bool.not_eq_true', not_and, Bool.not_eq_true]
  tauto

theorem elems_xor : (a.xor b).elems = symmDiff a.elems b.elems := by
  ext p
  obtain ⟨q, bit, j, rfl⟩ := exists_add_mul (W := W) p
  rw [xor, mem_elems_limbwise _ _ _ bit, Finset.mem_symmDiff, mem_elems_add_mul bit, mem_elems_add_mul bit,
    BitVec.getLsbD_xor]
  cases (a.limb j).getLsbD q <;> cases (b.limb j).getLsbD q <;> simp

end Combine

section Count

theorem foldl_add_eq_sum {α : Type} (f : α → ℕ) (d : α) (l : List α) (acc : ℕ) :
    l.foldl (fun ret v => ret + f v) acc = acc + ∑ j ∈ Finset.range l.length, f (l[j]?.getD d) := by
  induction l generalizing acc with
  | nil => simp
  | cons x l ih =>
      rw [List.foldl_cons, ih, List.length_cons, Finset.sum_range_succ']
      simp only [List.getElem?_cons_succ, List.getElem?_cons_zero, Option.getD_some]
      omega

theorem count_eq_sum_limbs (s : MultiIntBitSet W N) : s.count = ∑ j ∈ Finset.range N, popCount (s.limb j) := by
  rw [count, ← Vector.foldl_toList, foldl_add_eq_sum _ 0, Vector.length_toList, Nat.zero_add]
  apply Finset.sum_congr rfl
  intro j _
  rw [Vector.getElem?_toList]
  rfl

variable [NeZero W]

theorem card_eq_sum_limbs (s : MultiIntBitSet W N) :
    s.elems.card = ∑ j ∈ Finset.range N, (IntBitSet.mk (s.limb j)).elems.card := by
  rw [elems, Finset.card_filter, sum_range_mul_blocks]
  apply Finset.sum_congr rfl
  intro j _
  rw [IntBitSet.elems, Finset.card_filter]
  apply Finset.sum_congr rfl
  intro q member
  have bit := Finset.mem_range.mp member
  rw [div_add_mul bit, mod_add_mul bit]

theorem count_eq_card (limb : W = 8 ∨ W = 16 ∨ W = 32 ∨ W = 64) (s : MultiIntBitSet W N) :
    s.count = s.elems.card := by
  rw [count_eq_sum_limbs, card_eq_sum_limbs]
  apply Finset.sum_congr rfl
  intro j _
  exact IntBitSet.count_eq_card ⟨s.limb j⟩ limb

end Count

section Empty

variable [NeZero W]

theorem elems_eq_empty_iff (s : MultiIntBitSet W N) : s.elems = ∅ ↔ ∀ j < N, s.limb j = 0 := by
  rw [Finset.eq_empty_iff_forall_notMem]
  constructor
  · intro outside j inside
    rw [eq_zero_iff]
    intro q bit
    have unset := outside (q + j * W)
    rw [mem_elems_add_mul bit] at unset
    simpa [inside] using unset
  · intro zero p member
    obtain ⟨q, bit, j, rfl⟩ := exists_add_mul (W := W) p
    rw [mem_elems_add_mul bit] at member
    rw [zero j member.1, getLsbD_ofNat_zero] at member
    exact Bool.false_ne_true member.2

theorem none_iff (s : MultiIntBitSet W N) : s.none = true ↔ s.elems = ∅ := by
  rw [none, Vector.all_eq_true, elems_eq_empty_iff]
  apply forall_congr'
  intro j
  constructor
  · intro zero inside
    rw [limb_of_lt _ inside]
    exact beq_iff_eq.mp (zero inside)
  · intro zero inside
    rw [← limb_of_lt _ inside, zero inside]
    rfl

theorem any_iff (s : MultiIntBitSet W N) : s.any = true ↔ s.elems.Nonempty := by
  rw [any, Bool.not_eq_true', Bool.eq_false_iff, ne_eq, none_iff, ← ne_eq, Finset.nonempty_iff_ne_empty]

variable (a b : MultiIntBitSet W N)

theorem isSubsetOf_iff : a.isSubsetOf b = true ↔ a.elems ⊆ b.elems := by
  rw [show a.isSubsetOf b = (a.sub b).none from rfl, none_iff, elems_sub, Finset.sdiff_eq_empty_iff_subset]

theorem isSupersetOf_iff : a.isSupersetOf b = true ↔ b.elems ⊆ a.elems := by
  rw [isSupersetOf, Vector.zipWith_comm, ← isSubsetOf_iff]
  rfl

theorem overlaps_iff : a.overlaps b = true ↔ ¬Disjoint a.elems b.elems := by
  rw [overlaps, Vector.any_eq_not_all_not]
  simp only [bne, Bool.not_not]
  rw [show (Vector.zipWith (· &&& ·) a.val b.val).all (· == 0) = (a.and b).none from rfl, Bool.not_eq_true',
    Bool.eq_false_iff, ne_eq, none_iff, elems_and, Finset.disjoint_iff_inter_eq_empty]

end Empty

section Fill

variable [NeZero W]

theorem getLsbD_fillLoop (ret : MultiIntBitSet W N) (i count : ℕ) (positive : 0 < count) {j : ℕ}
    (inside : j < N) {q : ℕ} (bit : q < W) : ((ret.fillLoop i count).limb j).getLsbD q =
      if i ≤ j ∧ (j - i) * W < count then decide ((j - i) * W + q < count) else (ret.limb j).getLsbD q := by
  induction ret, i, count using fillLoop.induct with
  | case1 ret i count more ih =>
      -- a whole limb of ones at `i`, and `count - W` bits from limb `i + 1`
      rw [fillLoop, if_pos more, ih (by omega), limb_updateLimb _ _ _ inside]
      rcases Nat.lt_trichotomy j i with below | same | above
      · rw [if_neg (show ¬(i + 1 ≤ j ∧ _) by omega), if_neg (show ¬j = i by omega),
          if_neg (show ¬(i ≤ j ∧ _) by omega)]
      · subst same
        rw [if_neg (show ¬(j + 1 ≤ j ∧ _) by omega), if_pos rfl, Nat.sub_self, Nat.zero_mul,
          if_pos ⟨le_refl j, positive⟩, BitVec.getLsbD_allOnes, Nat.zero_add, decide_eq_decide]
        omega
      · obtain ⟨k, rfl⟩ : ∃ k, j = i + 1 + k := ⟨j - (i + 1), by omega⟩
        rw [if_neg (show ¬i + 1 + k = i by omega), show i + 1 + k - (i + 1) = k by omega,
          show i + 1 + k - i = k + 1 by omega, Nat.succ_mul]
        by_cases reached : k * W + W < count
        · rw [if_pos ⟨by omega, by omega⟩, if_pos ⟨by omega, reached⟩, decide_eq_decide]
          omega
        · rw [if_neg (show ¬(_ ∧ k * W < count - W) by omega), if_neg (show ¬(_ ∧ k * W + W < count) by omega)]
  | case2 ret i count last =>
      -- the last limb: the `count` low bits of limb `i`
      rw [fillLoop, if_neg last, limb_updateLimb _ _ _ inside]
      rcases Nat.lt_trichotomy j i with below | same | above
      · rw [if_neg (show ¬j = i by omega), if_neg (show ¬(i ≤ j ∧ _) by omega)]
      · subst same
        rw [if_pos rfl, Nat.sub_self, Nat.zero_mul, if_pos ⟨le_refl j, positive⟩, BitVec.getLsbD_ushiftRight,
          BitVec.getLsbD_allOnes, Nat.zero_add, decide_eq_decide]
        omega
      · have past : W ≤ (j - i) * W := Nat.le_mul_of_pos_left W (by omega)
        rw [if_neg (show ¬j = i by omega), if_neg (show ¬(i ≤ j ∧ (j - i) * W < count) by omega)]

theorem elems_fill {count : ℕ} (fits : count ≤ W * N) :
    (fill count : MultiIntBitSet W N).elems = Finset.range count := by
  rw [fill]
  split
  · rename_i nonzero
    ext p
    obtain ⟨q, bit, j, rfl⟩ := exists_add_mul (W := W) p
    rw [mem_elems_add_mul bit, Finset.mem_range]
    by_cases inside : j < N
    · rw [getLsbD_fillLoop _ _ _ (Nat.pos_of_ne_zero nonzero) inside bit, limb_empty, getLsbD_ofNat_zero,
        Nat.sub_zero]
      by_cases started : j * W < count
      · rw [if_pos ⟨Nat.zero_le j, started⟩, decide_eq_true_iff]
        omega
      · rw [if_neg (fun reached => started reached.2)]
        simp only [Bool.false_eq_true, and_false, false_iff, not_lt]
        omega
    · have beyond : W * N ≤ j * W := by
        rw [Nat.mul_comm]
        exact Nat.mul_le_mul_right _ (by omega)
      simp only [inside, false_and, false_iff, not_lt]
      omega
  · rename_i zero
    rw [not_not] at zero
    rw [elems_empty, zero, Finset.range_zero]

end Fill

section Scan

variable [NeZero W] (s : MultiIntBitSet W N) (nonempty : s.elems.Nonempty)
include nonempty

theorem min'_eq {p : ℕ} (inside : p < N) (nonzero : s.limb p ≠ 0) (before : ∀ j < p, s.limb j = 0) :
    s.elems.min' nonempty = countrZero (s.limb p) + p * W := by
  obtain ⟨bit, top, low⟩ := countrZero_spec nonzero
  apply le_antisymm
  · exact Finset.min'_le _ _ ((mem_elems_add_mul bit).mpr ⟨inside, top⟩)
  · apply Finset.le_min'
    intro e member
    obtain ⟨q, bitq, j, rfl⟩ := exists_add_mul (W := W) e
    rw [mem_elems_add_mul bitq] at member
    rcases Nat.lt_trichotomy j p with below | same | above
    · rw [before j below, getLsbD_ofNat_zero] at member
      exact absurd member.2 Bool.false_ne_true
    · subst same
      have above : countrZero (s.limb j) ≤ q := by
        by_contra under
        rw [low q (by omega)] at member
        exact Bool.false_ne_true member.2
      omega
    · have later : (p + 1) * W ≤ j * W := Nat.mul_le_mul_right _ above
      rw [Nat.succ_mul] at later
      omega

theorem max'_eq {p : ℕ} (inside : p < N) (nonzero : s.limb p ≠ 0)
    (after : ∀ j, p < j → j < N → s.limb j = 0) :
    s.elems.max' nonempty = bitWidth (s.limb p) - 1 + p * W := by
  obtain ⟨bit, top, high⟩ := bitWidth_spec nonzero
  apply le_antisymm
  · apply Finset.max'_le
    intro e member
    obtain ⟨q, bitq, j, rfl⟩ := exists_add_mul (W := W) e
    rw [mem_elems_add_mul bitq] at member
    rcases Nat.lt_trichotomy j p with below | same | above
    · have earlier : (j + 1) * W ≤ p * W := Nat.mul_le_mul_right _ below
      rw [Nat.succ_mul] at earlier
      omega
    · subst same
      have below : q ≤ bitWidth (s.limb j) - 1 := by
        by_contra beyond
        rw [high q (by omega)] at member
        exact Bool.false_ne_true member.2
      omega
    · rw [after j above member.1, getLsbD_ofNat_zero] at member
      exact absurd member.2 Bool.false_ne_true
  · exact Finset.le_max' _ _ ((mem_elems_add_mul bit).mpr ⟨inside, top⟩)

theorem firstLoop_eq (p : ℕ) (before : ∀ j < p, s.limb j = 0) : s.firstLoop p = some (s.elems.min' nonempty) := by
  induction p using firstLoop.induct s with
  | case1 p inside zero ih =>
      rw [firstLoop, if_pos inside, if_pos zero]
      apply ih
      intro j below
      by_cases same : j = p
      · rw [same, zero]
      · exact before j (by omega)
  | case2 p inside nonzero =>
      rw [firstLoop, if_pos inside, if_neg nonzero, min'_eq s nonempty inside nonzero before]
  | case3 p outside =>
      -- every limb is below `p`, so the set would be empty
      have empty := (elems_eq_empty_iff s).mpr fun j inside => before j (by omega)
      rw [empty] at nonempty
      exact absurd nonempty Finset.not_nonempty_empty

theorem lastLoop_eq (p : ℕ) (inside : p < N) (after : ∀ j, p < j → j < N → s.limb j = 0) :
    s.lastLoop p = some (s.elems.max' nonempty) := by
  induction p with
  | zero =>
      rw [lastLoop]
      split
      · rename_i zero
        have empty := (elems_eq_empty_iff s).mpr fun j below => by
          by_cases same : j = 0
          · rw [same, zero]
          · exact after j (by omega) below
        rw [empty] at nonempty
        exact absurd nonempty Finset.not_nonempty_empty
      · rename_i nonzero
        rw [max'_eq s nonempty inside nonzero after, Nat.zero_mul, Nat.add_zero]
  | succ p ih =>
      rw [lastLoop]
      split
      · rename_i zero
        apply ih (by omega)
        intro j above below
        by_cases same : j = p + 1
        · rw [same, zero]
        · exact after j (by omega) below
      · rename_i nonzero
        rw [max'_eq s nonempty inside nonzero after]

theorem first_eq_min' : s.first = some (s.elems.min' nonempty) :=
  firstLoop_eq s nonempty 0 fun j below => absurd below (Nat.not_lt_zero j)

theorem last_eq_max' : s.last = some (s.elems.max' nonempty) := by
  have positive : 0 < N := by
    obtain ⟨p, member⟩ := nonempty
    have below := (mem_elems.mp member).1
    by_contra zero
    rw [Nat.eq_zero_of_not_pos zero, Nat.mul_zero] at below
    exact Nat.not_lt_zero p below
  exact lastLoop_eq s nonempty (N - 1) (by omega) fun j above below => absurd below (by omega)

end Scan

section Iterate

/-- The positions of limbs `j` on, limb by limb, each limb's from the bottom. -/
def positionsFrom (s : MultiIntBitSet W N) (j : ℕ) : List ℕ :=
  (List.range' j (N - j)).flatMap fun k => (setBits (s.limb k)).map (· + k * W)

/-- The positions an iterator has still to visit: its limb's bits not visited yet, then the limbs
after it. -/
def Iterator.remaining (s : MultiIntBitSet W N) (it : Iterator W) : List ℕ :=
  if it.idx < N then (setBits it.val).map (· + it.idx * W) ++ s.positionsFrom (it.idx + 1) else []

/-- An iterator inside the array reports the lowest bit it has not visited, and that bit is set. -/
def Iterator.Reports (N : ℕ) (it : Iterator W) : Prop :=
  it.idx ≤ N ∧ (it.idx < N → it.val ≠ 0 ∧ it.pos = countrZero it.val + it.idx * W)

variable (s : MultiIntBitSet W N)

theorem positionsFrom_of_lt {j : ℕ} (inside : j < N) :
    s.positionsFrom j = (setBits (s.limb j)).map (· + j * W) ++ s.positionsFrom (j + 1) := by
  rw [positionsFrom, positionsFrom, show N - j = N - (j + 1) + 1 by omega, List.range'_succ, List.flatMap_cons]

theorem positionsFrom_of_le {j : ℕ} (outside : N ≤ j) : s.positionsFrom j = [] := by
  rw [positionsFrom, Nat.sub_eq_zero_of_le outside]
  rfl

theorem seek_reports {j : ℕ} (start : j ≤ N) (pos : ℕ) (val : BitVec W) : (seek s.val j pos val).Reports N := by
  induction j, val using seek.induct s.val with
  | case1 j val inside nonzero =>
      rw [seek, dif_pos inside, if_pos nonzero]
      exact ⟨inside.le, fun _ => ⟨nonzero, rfl⟩⟩
  | case2 j val inside zero ih =>
      rw [seek, dif_pos inside, if_neg zero]
      exact ih (by omega)
  | case3 j val outside =>
      rw [seek, dif_neg outside]
      exact ⟨start, fun inside => absurd inside outside⟩

theorem remaining_seek (j pos : ℕ) (val : BitVec W) : Iterator.remaining s (seek s.val j pos val) = s.positionsFrom j := by
  induction j, val using seek.induct s.val with
  | case1 j val inside nonzero =>
      rw [seek, dif_pos inside, if_pos nonzero, Iterator.remaining, if_pos inside, positionsFrom_of_lt s inside,
        limb_of_lt s inside]
  | case2 j val inside zero ih =>
      rw [seek, dif_pos inside, if_neg zero, ih, positionsFrom_of_lt s inside, limb_of_lt s inside, not_not.mp zero,
        setBits_zero, List.map_nil, List.nil_append]
  | case3 j val outside =>
      rw [seek, dif_neg outside, Iterator.remaining, if_neg outside, positionsFrom_of_le s (by omega)]

theorem Iterator.next_reports {it : Iterator W} (reports : it.Reports N) (inside : it.idx < N) :
    (it.next s.val).Reports N := by
  simp only [Iterator.next]
  split
  · exact seek_reports s (by omega) _ _
  · rename_i nonzero
    exact ⟨reports.1, fun _ => ⟨nonzero, rfl⟩⟩

theorem Iterator.walk_eq_remaining (it : Iterator W) (reports : it.Reports N) :
    it.walk s.val = it.remaining s := by
  induction it using Iterator.walk.induct s.val with
  | case1 it inside ih =>
      obtain ⟨nonzero, reported⟩ := reports.2 inside
      rw [Iterator.walk, if_pos inside, Iterator.remaining, if_pos inside, ih (Iterator.next_reports s reports inside),
        setBits_eq_cons nonzero, List.map_cons, List.cons_append, reported]
      congr 1
      simp only [Iterator.next]
      split
      · rename_i cleared
        rw [remaining_seek, cleared, setBits_zero, List.map_nil, List.nil_append]
      · rw [Iterator.remaining, if_pos inside]
  | case2 it outside =>
      rw [Iterator.walk, if_neg outside, Iterator.remaining, if_neg outside]

theorem sorted_positionsFrom (j : ℕ) : (s.positionsFrom j).Pairwise (· < ·) := by
  rw [positionsFrom, List.pairwise_flatMap]
  constructor
  · intro k _
    apply List.Pairwise.map _ _ (setBits_sorted _)
    intro a b lower
    omega
  · apply List.Pairwise.imp _ List.pairwise_lt_range'
    intro k k' earlier x member y member'
    obtain ⟨a, bit, rfl⟩ := List.mem_map.mp member
    obtain ⟨b, -, rfl⟩ := List.mem_map.mp member'
    have block : (k + 1) * W ≤ k' * W := Nat.mul_le_mul_right _ earlier
    rw [Nat.succ_mul] at block
    have := (mem_setBits.mp bit).1
    omega

variable [NeZero W]

theorem mem_positionsFrom_zero (p : ℕ) : p ∈ s.positionsFrom 0 ↔ p ∈ s.elems := by
  rw [positionsFrom, List.mem_flatMap]
  simp only [List.mem_range'_1, List.mem_map, mem_setBits]
  constructor
  · rintro ⟨k, ⟨-, inside⟩, q, ⟨bit, set⟩, rfl⟩
    exact (mem_elems_add_mul bit).mpr ⟨by omega, set⟩
  · intro member
    obtain ⟨q, bit, j, rfl⟩ := exists_add_mul (W := W) p
    obtain ⟨inside, set⟩ := (mem_elems_add_mul bit).mp member
    exact ⟨j, ⟨Nat.zero_le j, by omega⟩, q, ⟨bit, set⟩, rfl⟩

theorem walk_begin : (s.begin.walk s.val).Pairwise (· < ·) ∧ ∀ p, p ∈ s.begin.walk s.val ↔ p ∈ s.elems := by
  have whole : s.begin.walk s.val = s.positionsFrom 0 := by
    rw [begin, Iterator.init, Iterator.walk_eq_remaining s _ (seek_reports s (Nat.zero_le N) 0 0), remaining_seek]
  rw [whole]
  exact ⟨sorted_positionsFrom s 0, mem_positionsFrom_zero s⟩

end Iterate

/-- `MultiIntBitSet<I, N>` behaves as the finite set of its positions below `Size()`: each method
is the set operation its name says, and `First` and `Last` find an element of a non-empty set. -/
structure FinsetModel (W N : ℕ) [NeZero W] : Prop where
  eq_iff : ∀ a b : MultiIntBitSet W N, a = b ↔ a.elems = b.elems
  subset_range : ∀ s : MultiIntBitSet W N, s.elems ⊆ Finset.range (size W N)
  empty : (empty : MultiIntBitSet W N).elems = ∅
  singleton : ∀ i < size W N, (singleton i : MultiIntBitSet W N).elems = {i}
  fill : ∀ count ≤ size W N, (fill count : MultiIntBitSet W N).elems = Finset.range count
  set : ∀ (s : MultiIntBitSet W N), ∀ pos < size W N, (s.set pos).elems = insert pos s.elems
  reset : ∀ (s : MultiIntBitSet W N), ∀ pos < size W N, (s.reset pos).elems = s.elems.erase pos
  setTo : ∀ (s : MultiIntBitSet W N), ∀ pos < size W N, ∀ b : Bool,
    (s.setTo pos b).elems = if b then insert pos s.elems else s.elems.erase pos
  get : ∀ (s : MultiIntBitSet W N), ∀ pos < size W N, s.get pos = true ↔ pos ∈ s.elems
  or : ∀ a b : MultiIntBitSet W N, (a.or b).elems = a.elems ∪ b.elems
  and : ∀ a b : MultiIntBitSet W N, (a.and b).elems = a.elems ∩ b.elems
  sub : ∀ a b : MultiIntBitSet W N, (a.sub b).elems = a.elems \ b.elems
  xor : ∀ a b : MultiIntBitSet W N, (a.xor b).elems = symmDiff a.elems b.elems
  assign : ∀ a b : MultiIntBitSet W N, a.orAssign b = a.or b ∧ a.andAssign b = a.and b ∧
    a.subAssign b = a.sub b ∧ a.xorAssign b = a.xor b
  count : ∀ s : MultiIntBitSet W N, s.count = s.elems.card
  none : ∀ s : MultiIntBitSet W N, s.none = true ↔ s.elems = ∅
  any : ∀ s : MultiIntBitSet W N, s.any = true ↔ s.elems.Nonempty
  isSubsetOf : ∀ a b : MultiIntBitSet W N, a.isSubsetOf b = true ↔ a.elems ⊆ b.elems
  isSupersetOf : ∀ a b : MultiIntBitSet W N, a.isSupersetOf b = true ↔ b.elems ⊆ a.elems
  overlaps : ∀ a b : MultiIntBitSet W N, a.overlaps b = true ↔ ¬Disjoint a.elems b.elems
  first : ∀ (s : MultiIntBitSet W N) (nonempty : s.elems.Nonempty), s.first = some (s.elems.min' nonempty)
  last : ∀ (s : MultiIntBitSet W N) (nonempty : s.elems.Nonempty), s.last = some (s.elems.max' nonempty)
  iterate : ∀ s : MultiIntBitSet W N,
    (s.begin.walk s.val).Pairwise (· < ·) ∧ ∀ p, p ∈ s.begin.walk s.val ↔ p ∈ s.elems

theorem finsetModel [NeZero W] (limb : W = 8 ∨ W = 16 ∨ W = 32 ∨ W = 64) : FinsetModel W N where
  eq_iff _ _ := eq_iff_elems_eq
  subset_range := elems_subset_range
  empty := elems_empty
  singleton _ inside := elems_singleton inside
  fill _ fits := elems_fill fits
  set s _ inside := elems_set s inside
  reset s _ inside := elems_reset s inside
  setTo s _ inside := elems_setTo s inside
  get s _ inside := get_iff s inside
  or := elems_or
  and := elems_and
  sub := elems_sub
  xor := elems_xor
  assign := assign_eq
  count := count_eq_card limb
  none := none_iff
  any := any_iff
  isSubsetOf := isSubsetOf_iff
  isSupersetOf := isSupersetOf_iff
  overlaps := overlaps_iff
  first := first_eq_min'
  last := last_eq_max'
  iterate s := walk_begin s

end MultiIntBitSet

/-- Both bitsets behave as finite sets, for every standard unsigned limb type and limb count. -/
theorem bitSet_refines_finset [NeZero W] (limb : W = 8 ∨ W = 16 ∨ W = 32 ∨ W = 64) (N : ℕ) :
    IntBitSet.FinsetModel W ∧ MultiIntBitSet.FinsetModel W N :=
  ⟨IntBitSet.finsetModel limb, MultiIntBitSet.finsetModel limb⟩

theorem bitSet_refines_finset_byte_limbs :
    (8 = 8 ∨ 8 = 16 ∨ 8 = 32 ∨ 8 = 64) ∧ IntBitSet.FinsetModel 8 ∧ MultiIntBitSet.FinsetModel 8 2 :=
  ⟨Or.inl rfl, bitSet_refines_finset (Or.inl rfl) 2⟩

end Freycoin.Util
