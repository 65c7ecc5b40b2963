import Freycoin.Util.BitSet
import Freycoin.Library.FieldSum
import Mathlib.Algebra.Order.BigOperators.Group.Finset
import Mathlib.Algebra.BigOperators.Group.Finset.Piecewise
import Mathlib.Data.Finset.SymmDiff
import Mathlib.Data.Finset.Max
import Mathlib.Tactic.Ring

/-! `IntBitSet` is a finite set of positions below the width of its limb. -/

namespace Freycoin.Util

open FieldSum

variable {W : ℕ}

/-- The first three steps of `PopCount` with its masks: every byte holds its own count. -/
def byteCounts (m1 m2 m4 v : BitVec W) : BitVec W :=
  let v := v - ((v >>> 1) &&& m1)
  let v := (v &&& m2) + ((v >>> 2) &&& m2)
  (v + (v >>> 4)) &&& m4

theorem toNat_byteCounts {n : ℕ} (bytes : W = 8 * n) (m1 m2 m4 : BitVec W)
    (mask1 : m1.toNat = pack 2 (4 * n) fun _ => 1) (mask2 : m2.toNat = pack 4 (2 * n) fun _ => 3)
    (mask4 : m4.toNat = pack 8 n fun _ => 15) (v : BitVec W) :
    (byteCounts m1 m2 m4 v).toNat = pack 8 n (byteCount v.toNat) := by
  subst bytes
  simp only [byteCounts]
  have fits : v.toNat < 2 ^ (2 * (4 * n)) := by
    rw [show 2 * (4 * n) = 8 * n by ring]
    exact v.isLt
  have fitsBytes : v.toNat < 2 ^ (8 * n) := v.isLt
  -- each pair of bits becomes its count
  have oddBits : (v >>> 1 &&& m1) ≤ v := by
    rw [BitVec.le_def, BitVec.toNat_and, BitVec.toNat_ushiftRight]
    exact Nat.and_le_left.trans (Nat.shiftRight_le _ _)
  have pairs : (v - ((v >>> 1) &&& m1)).toNat = pack 2 (2 * (2 * n)) (pairCount v.toNat) := by
    rw [BitVec.toNat_sub_of_le oddBits, BitVec.toNat_and, BitVec.toNat_ushiftRight, mask1,
      show 2 * (2 * n) = 4 * n by ring, sub_pairs fits]
    rfl
  generalize v - ((v >>> 1) &&& m1) = y at pairs ⊢
  -- each nibble the sum of its pairs
  have nibbles : ((y &&& m2) + ((y >>> 2) &&& m2)).toNat = pack 4 (2 * n) (nibbleCount v.toNat) := by
    have sum := add_nibbles (m := 2 * n) (pairCount_le v.toNat)
      (by rw [show 2 * (2 * n) = 4 * n by ring]; exact pairCount_top fitsBytes)
    have below : (pack 4 (2 * n) fun i => pairCount v.toNat (2 * i) + pairCount v.toNat (2 * i + 1)) <
        2 ^ (8 * n) := by
      refine (pack_lt fun i _ => ?_).trans_eq (by rw [show 4 * (2 * n) = 8 * n by ring])
      have := pairCount_le v.toNat (2 * i)
      have := pairCount_le v.toNat (2 * i + 1)
      omega
    rw [BitVec.toNat_add, BitVec.toNat_and, BitVec.toNat_and, BitVec.toNat_ushiftRight, pairs, mask2,
      sum, Nat.mod_eq_of_lt below]
    rfl
  generalize (y &&& m2) + ((y >>> 2) &&& m2) = z at nibbles ⊢
  -- each byte the sum of its nibbles
  obtain ⟨below, sum⟩ := add_bytes (m := n) (nibbleCount_le v.toNat) (nibbleCount_top fitsBytes)
  rw [BitVec.toNat_and, BitVec.toNat_add, BitVec.toNat_ushiftRight, nibbles, mask4,
    Nat.mod_eq_of_lt below, sum]
  rfl

theorem sum_bytes_by_multiply {e : ℕ → ℕ} (small : ∀ k, e k ≤ 8) :
    pack 8 8 e % 2 ^ 64 * (0x0101010101010101 % 2 ^ 64) % 2 ^ 64 / 2 ^ 56 =
      ∑ k ∈ Finset.range 8, e k := by
  have prefixes : ∀ p < 8, ∑ k ∈ Finset.range (p + 1), e k < 2 ^ 8 := fun p lt =>
    calc ∑ k ∈ Finset.range (p + 1), e k ≤ ∑ _k ∈ Finset.range (p + 1), 8 := Finset.sum_le_sum fun k _ => small k
      _ = (p + 1) * 8 := by simp
      _ < 2 ^ 8 := by omega
  have fits : pack 8 8 e < 2 ^ 64 := pack_lt fun k _ => by have := small k; omega
  -- the product is the word of the prefix sums, plus what overflows 64 bits
  have product : pack 8 8 e * 0x0101010101010101 =
      pack 8 8 (fun p => ∑ k ∈ Finset.range (p + 1), e k) + 2 ^ 64 *
        ((e 1 + e 2 + e 3 + e 4 + e 5 + e 6 + e 7) + 2 ^ 8 * (e 2 + e 3 + e 4 + e 5 + e 6 + e 7) +
          2 ^ 16 * (e 3 + e 4 + e 5 + e 6 + e 7) + 2 ^ 24 * (e 4 + e 5 + e 6 + e 7) +
          2 ^ 32 * (e 5 + e 6 + e 7) + 2 ^ 40 * (e 6 + e 7) + 2 ^ 48 * e 7) := by
    simp only [pack_succ, pack_zero, Finset.sum_range_succ, Finset.sum_range_zero]
    ring
  rw [Nat.mod_eq_of_lt fits, show (0x0101010101010101 % 2 ^ 64 : ℕ) = 0x0101010101010101 by rfl, product,
    Nat.add_mul_mod_self_left, Nat.mod_eq_of_lt (pack_lt fun p lt => prefixes p lt),
    show (56 : ℕ) = 8 * 7 by rfl, pack_div_top fun p lt => prefixes p (by omega)]

theorem sum_getLsbD_eq_sum_byteCount {n : ℕ} (bytes : W = 8 * n) (v : BitVec W) :
    ∑ i ∈ Finset.range W, (v.getLsbD i).toNat = ∑ k ∈ Finset.range n, byteCount v.toNat k := by
  rw [sum_byteCount, ← bytes]
  exact Finset.sum_congr rfl fun i _ => by rw [BitVec.testBit_toNat]

theorem popCount_of_le (small : W ≤ 32) (v : BitVec W) :
    popCount v =
      let u := byteCounts (BitVec.ofNat W 0x55555555) (BitVec.ofNat W 0x33333333)
        (BitVec.ofNat W 0x0f0f0f0f) v
      let u := if W > 8 then u + (u >>> 8) else u
      let u := if W > 16 then u + (u >>> 16) else u
      (u &&& BitVec.ofNat W 0x3f).toNat := by
  rw [popCount, if_pos small]
  rfl

theorem popCount_of_gt (large : ¬W ≤ 32) (v : BitVec W) :
    popCount v =
      (((byteCounts (BitVec.ofNat W 0x5555555555555555) (BitVec.ofNat W 0x3333333333333333)
        (BitVec.ofNat W 0x0f0f0f0f0f0f0f0f) v).setWidth 64 * BitVec.ofNat 64 0x0101010101010101) >>> 56).toNat := by
  rw [popCount, if_neg large]
  rfl

theorem and_0x3f {x : ℕ} (small : x < 64) : x &&& 0x3f = x := by
  rw [show (0x3f : ℕ) = 2 ^ 6 - 1 by rfl, Nat.and_two_pow_sub_one_eq_mod, Nat.mod_eq_of_lt small]

theorem popCount_eq_sum (limb : W = 8 ∨ W = 16 ∨ W = 32 ∨ W = 64) (v : BitVec W) :
    popCount v = ∑ i ∈ Finset.range W, (v.getLsbD i).toNat := by
  rcases limb with rfl | rfl | rfl | rfl
  · -- one byte: its count is already in the low bits
    have counts := toNat_byteCounts (n := 1) rfl (BitVec.ofNat 8 0x55555555) (BitVec.ofNat 8 0x33333333)
      (BitVec.ofNat 8 0x0f0f0f0f) (by decide) (by decide) (by decide) v
    have e0 := byteCount_le v.toNat 0
    rw [popCount_of_le (by decide), sum_getLsbD_eq_sum_byteCount (n := 1) rfl]
    dsimp only
    rw [if_neg (show ¬8 > 16 by decide), if_neg (show ¬8 > 8 by decide), BitVec.toNat_and, counts]
    simp only [pack_succ, pack_zero, Finset.sum_range_one, BitVec.toNat_ofNat]
    exact and_0x3f (by omega)
  · -- two bytes, added by one shift
    have counts := toNat_byteCounts (n := 2) rfl (BitVec.ofNat 16 0x55555555) (BitVec.ofNat 16 0x33333333)
      (BitVec.ofNat 16 0x0f0f0f0f) (by decide) (by decide) (by decide) v
    have e0 := byteCount_le v.toNat 0
    have e1 := byteCount_le v.toNat 1
    rw [popCount_of_le (by decide), sum_getLsbD_eq_sum_byteCount (n := 2) rfl]
    dsimp only
    rw [if_neg (show ¬16 > 16 by decide), if_pos (show 16 > 8 by decide)]
    generalize byteCounts _ _ _ v = u at counts ⊢
    simp only [pack_succ, pack_zero, Nat.reduceAdd, Nat.mul_zero, Nat.add_zero] at counts
    simp only [BitVec.toNat_and, BitVec.toNat_add, BitVec.toNat_ushiftRight, counts,
      Nat.shiftRight_eq_div_pow, BitVec.toNat_ofNat, Finset.sum_range_succ, Finset.sum_range_zero]
    rw [show (0x3f % 2 ^ 16 : ℕ) = 2 ^ 6 - 1 by rfl, Nat.and_two_pow_sub_one_eq_mod]
    omega
  · -- four bytes, added by two shifts
    have counts := toNat_byteCounts (n := 4) rfl (BitVec.ofNat 32 0x55555555) (BitVec.ofNat 32 0x33333333)
      (BitVec.ofNat 32 0x0f0f0f0f) (by decide) (by decide) (by decide) v
    have e0 := byteCount_le v.toNat 0
    have e1 := byteCount_le v.toNat 1
    have e2 := byteCount_le v.toNat 2
    have e3 := byteCount_le v.toNat 3
    rw [popCount_of_le (by decide), sum_getLsbD_eq_sum_byteCount (n := 4) rfl]
    dsimp only
    rw [if_pos (show 32 > 16 by decide), if_pos (show 32 > 8 by decide)]
    generalize byteCounts _ _ _ v = u at counts ⊢
    simp only [pack_succ, pack_zero, Nat.reduceAdd, Nat.mul_zero, Nat.add_zero] at counts
    simp only [BitVec.toNat_and, BitVec.toNat_add, BitVec.toNat_ushiftRight, counts,
      Nat.shiftRight_eq_div_pow, BitVec.toNat_ofNat, Finset.sum_range_succ, Finset.sum_range_zero]
    rw [show (0x3f % 2 ^ 32 : ℕ) = 2 ^ 6 - 1 by rfl, Nat.and_two_pow_sub_one_eq_mod]
    generalize byteCount v.toNat 0 = a at *
    generalize byteCount v.toNat 1 = b at *
    generalize byteCount v.toNat 2 = c at *
    generalize byteCount v.toNat 3 = d at *
    -- the first shift adds neighbouring bytes, the second neighbouring halves
    have first : (a + 2 ^ 8 * (b + 2 ^ 8 * (c + 2 ^ 8 * d)) + (a + 2 ^ 8 * (b + 2 ^ 8 * (c + 2 ^ 8 * d))) / 2 ^ 8) %
        2 ^ 32 = (a + b) + 2 ^ 8 * ((b + c) + 2 ^ 8 * ((c + d) + 2 ^ 8 * d)) := by
      omega
    have second : ((a + b) + 2 ^ 8 * ((b + c) + 2 ^ 8 * ((c + d) + 2 ^ 8 * d)) +
        ((a + b) + 2 ^ 8 * ((b + c) + 2 ^ 8 * ((c + d) + 2 ^ 8 * d))) / 2 ^ 16) % 2 ^ 32 =
        (a + b + c + d) + 2 ^ 8 * ((b + c + d) + 2 ^ 8 * ((c + d) + 2 ^ 8 * d)) := by
      have high : ((a + b) + 2 ^ 8 * ((b + c) + 2 ^ 8 * ((c + d) + 2 ^ 8 * d))) / 2 ^ 16 =
          (c + d) + 2 ^ 8 * d := by
        omega
      rw [high, Nat.mod_eq_of_lt (by omega)]
      ring
    rw [first, second]
    omega
  · -- eight bytes, summed into the top byte by the multiplication
    have counts := toNat_byteCounts (n := 8) rfl (BitVec.ofNat 64 0x5555555555555555) (BitVec.ofNat 64 0x3333333333333333)
      (BitVec.ofNat 64 0x0f0f0f0f0f0f0f0f) (by decide) (by decide) (by decide) v
    rw [popCount_of_gt (by decide), sum_getLsbD_eq_sum_byteCount (n := 8) rfl]
    generalize byteCounts _ _ _ v = u at counts ⊢
    rw [BitVec.toNat_ushiftRight, BitVec.toNat_mul, BitVec.toNat_setWidth, counts, BitVec.toNat_ofNat,
      Nat.shiftRight_eq_div_pow]
    exact sum_bytes_by_multiply (byteCount_le v.toNat)

theorem sum_getLsbD_eq_card (v : BitVec W) :
    ∑ i ∈ Finset.range W, (v.getLsbD i).toNat = ((Finset.range W).filter (v.getLsbD ·)).card := by
  rw [Finset.card_filter]
  exact Finset.sum_congr rfl fun i _ => by cases v.getLsbD i <;> rfl

section Limb

@[simp] theorem getLsbD_ofNat_zero (p : ℕ) : (0 : BitVec W).getLsbD p = false := BitVec.getLsbD_zero

theorem eq_zero_iff {x : BitVec W} : x = 0 ↔ ∀ p < W, x.getLsbD p = false := by
  constructor
  · rintro rfl p _
    exact BitVec.getLsbD_zero
  · intro unset
    apply BitVec.eq_of_getLsbD_eq
    intro p below
    rw [unset p below]
    exact BitVec.getLsbD_zero.symm

theorem getLsbD_one_shiftLeft {i : ℕ} (inside : i < W) (p : ℕ) :
    ((1 : BitVec W) <<< i).getLsbD p = decide (p = i) := by
  rw [BitVec.getLsbD_shiftLeft, show (1 : BitVec W) = 1#W from rfl, BitVec.getLsbD_one]
  by_cases same : p = i
  · subst same
    simp [inside, Nat.lt_of_le_of_lt (Nat.zero_le _) inside]
  · rw [decide_eq_false same]
    by_cases below : p < i
    · simp [below]
    · simp only [decide_eq_false below, Bool.not_false, Bool.and_true]
      have : p - i ≠ 0 := by omega
      simp [this]

theorem getLsbD_ofNat_toNat_shiftLeft {i : ℕ} (inside : i < W) (b : Bool) (p : ℕ) :
    (BitVec.ofNat W b.toNat <<< i).getLsbD p = (b && decide (p = i)) := by
  cases b with
  | false =>
      rw [Bool.toNat_false, Bool.false_and, BitVec.getLsbD_shiftLeft, BitVec.getLsbD_ofNat,
        Nat.zero_testBit, Bool.and_false, Bool.and_false]
  | true =>
      rw [Bool.toNat_true, Bool.true_and, show BitVec.ofNat W 1 = (1 : BitVec W) from rfl,
        getLsbD_one_shiftLeft inside]

theorem and_one_ne_zero (y : BitVec W) (wide : 0 < W) : ((y &&& 1) != 0) = y.getLsbD 0 := by
  cases bit : y.getLsbD 0 with
  | false =>
      rw [bne_eq_false_iff_eq, eq_zero_iff]
      intro p below
      rw [BitVec.getLsbD_and, show (1 : BitVec W) = 1#W from rfl, BitVec.getLsbD_one]
      by_cases low : p = 0
      · rw [low, bit, Bool.false_and]
      · rw [decide_eq_false low, Bool.and_false, Bool.and_false]
  | true =>
      rw [bne_iff_ne, ne_eq, eq_zero_iff]
      intro unset
      have := unset 0 wide
      rw [BitVec.getLsbD_and, bit, show (1 : BitVec W) = 1#W from rfl, BitVec.getLsbD_one] at this
      simp [wide] at this

end Limb

namespace IntBitSet

/-- The positions of the one bits. -/
def elems (s : IntBitSet W) : Finset ℕ := (Finset.range W).filter (s.val.getLsbD ·)

@[simp] theorem mem_elems {s : IntBitSet W} {p : ℕ} : p ∈ s.elems ↔ p < W ∧ s.val.getLsbD p = true := by
  rw [elems, Finset.mem_filter, Finset.mem_range]

theorem elems_subset_range (s : IntBitSet W) : s.elems ⊆ Finset.range W := Finset.filter_subset _ _

theorem eq_iff_elems_eq {a b : IntBitSet W} : a = b ↔ a.elems = b.elems := by
  constructor
  · rintro rfl
    rfl
  · intro same
    cases a with | mk a =>
    cases b with | mk b =>
    congr 1
    apply BitVec.eq_of_getLsbD_eq
    intro p below
    have member := congrArg (p ∈ ·) same
    simp only [mem_elems, below, true_and, eq_iff_iff] at member
    exact Bool.eq_iff_iff.mpr member

section Construct

variable {W : ℕ}

theorem elems_empty : (empty : IntBitSet W).elems = ∅ := by
  ext p
  simp [empty]

theorem elems_singleton {i : ℕ} (inside : i < W) : (singleton i : IntBitSet W).elems = {i} := by
  ext p
  rw [mem_elems, singleton, getLsbD_one_shiftLeft inside, Finset.mem_singleton, decide_eq_true_iff]
  constructor
  · exact fun ⟨_, same⟩ => same
  · rintro rfl
    exact ⟨inside, rfl⟩

theorem elems_fill {count : ℕ} (fits : count ≤ W) : (fill count : IntBitSet W).elems = Finset.range count := by
  ext p
  rw [fill]
  split
  · rw [mem_elems, BitVec.getLsbD_ushiftRight, BitVec.getLsbD_allOnes, decide_eq_true_iff, Finset.mem_range]
    omega
  · rename_i zero
    rw [not_not] at zero
    subst zero
    simp [elems_empty]

theorem elems_set (s : IntBitSet W) {pos : ℕ} (inside : pos < W) : (s.set pos).elems = insert pos s.elems := by
  ext p
  rw [mem_elems, set, BitVec.getLsbD_or, getLsbD_one_shiftLeft inside, Finset.mem_insert, mem_elems]
  by_cases same : p = pos
  · subst same
    simp [inside]
  · simp [same]

theorem elems_reset (s : IntBitSet W) {pos : ℕ} (inside : pos < W) : (s.reset pos).elems = s.elems.erase pos := by
  ext p
  rw [mem_elems, reset, BitVec.getLsbD_and, BitVec.getLsbD_not, getLsbD_one_shiftLeft inside,
    Finset.mem_erase, mem_elems]
  by_cases same : p = pos
  · simp [same]
  · by_cases below : p < W <;> simp [same, below]

theorem elems_setTo (s : IntBitSet W) {pos : ℕ} (inside : pos < W) (b : Bool) :
    (s.setTo pos b).elems = if b then insert pos s.elems else s.elems.erase pos := by
  ext p
  rw [mem_elems, setTo, BitVec.getLsbD_or, BitVec.getLsbD_and, BitVec.getLsbD_not,
    getLsbD_one_shiftLeft inside, getLsbD_ofNat_toNat_shiftLeft inside]
  by_cases same : p = pos
  · subst same
    cases b <;> simp [inside]
  · cases b <;> simp [same] <;> tauto

theorem setTo_eq_ite (s : IntBitSet W) {pos : ℕ} (inside : pos < W) (b : Bool) :
    s.setTo pos b = if b then s.set pos else s.reset pos := by
  rw [eq_iff_elems_eq, elems_setTo _ inside]
  cases b with
  | false => rw [if_neg Bool.false_ne_true, if_neg Bool.false_ne_true, elems_reset _ inside]
  | true => rw [if_pos rfl, if_pos rfl, elems_set _ inside]

theorem get_iff (s : IntBitSet W) {pos : ℕ} (inside : pos < W) : s.get pos = true ↔ pos ∈ s.elems := by
  rw [get, and_one_ne_zero _ (Nat.lt_of_le_of_lt (Nat.zero_le _) inside), BitVec.getLsbD_ushiftRight,
    Nat.add_zero, mem_elems]
  exact ⟨fun set => ⟨inside, set⟩, And.right⟩

end Construct

section Combine

variable (a b : IntBitSet W)

theorem elems_or : (a.or b).elems = a.elems ∪ b.elems := by
  ext p
  simp only [or, mem_elems, BitVec.getLsbD_or, Bool.or_eq_true, Finset.mem_union]
  tauto

theorem elems_and : (a.and b).elems = a.elems ∩ b.elems := by
  ext p
  simp only [and, mem_elems, BitVec.getLsbD_and, Bool.and_eq_true, Finset.mem_inter]
  tauto

theorem elems_sub : (a.sub b).elems = a.elems \ b.elems := by
  ext p
  by_cases below : p < W <;> simp [sub, below]

theorem elems_xor : (a.xor b).elems = symmDiff a.elems b.elems := by
  ext p
  rw [Finset.mem_symmDiff, mem_elems, mem_elems, mem_elems, xor, BitVec.getLsbD_xor]
  cases a.val.getLsbD p <;> cases b.val.getLsbD p <;> simp

theorem assign_eq : a.orAssign b = a.or b ∧ a.andAssign b = a.and b ∧ a.subAssign b = a.sub b ∧
    a.xorAssign b = a.xor b := ⟨rfl, rfl, rfl, rfl⟩

theorem count_eq_card (limb : W = 8 ∨ W = 16 ∨ W = 32 ∨ W = 64) : a.count = a.elems.card := by
  rw [count, popCount_eq_sum limb, sum_getLsbD_eq_card]
  rfl

theorem none_iff : a.none = true ↔ a.elems = ∅ := by
  rw [none, beq_iff_eq, eq_zero_iff, Finset.eq_empty_iff_forall_notMem]
  simp only [mem_elems, not_and, Bool.not_eq_true]

theorem any_iff : a.any = true ↔ a.elems.Nonempty := by
  rw [any, Bool.not_eq_true', Bool.eq_false_iff, ne_eq, none_iff, ← ne_eq, Finset.nonempty_iff_ne_empty]

theorem isSubsetOf_iff : a.isSubsetOf b = true ↔ a.elems ⊆ b.elems := by
  rw [isSubsetOf, beq_iff_eq, eq_zero_iff]
  constructor
  · intro outside p member
    rw [mem_elems] at member ⊢
    have := outside p member.1
    rw [BitVec.getLsbD_and, BitVec.getLsbD_not, member.2] at this
    simpa [member.1] using this
  · intro within p below
    rw [BitVec.getLsbD_and, BitVec.getLsbD_not]
    cases bit : a.val.getLsbD p with
    | false => rfl
    | true => simp [(mem_elems.mp (within (mem_elems.mpr ⟨below, bit⟩))).2]

theorem isSupersetOf_iff : a.isSupersetOf b = true ↔ b.elems ⊆ a.elems := by
  rw [← isSubsetOf_iff]
  rfl

theorem overlaps_iff : a.overlaps b = true ↔ ¬Disjoint a.elems b.elems := by
  rw [overlaps, bne_iff_ne, ne_eq, eq_zero_iff, Finset.not_disjoint_iff]
  simp only [BitVec.getLsbD_and, Bool.and_eq_false_imp, not_forall, mem_elems]
  constructor
  · rintro ⟨p, below, set, other⟩
    exact ⟨p, ⟨below, set⟩, below, by simpa using other⟩
  · rintro ⟨p, ⟨below, set⟩, -, other⟩
    exact ⟨p, below, set, by simp [other]⟩

end Combine

section Scan

variable (s : IntBitSet W)

theorem first_eq_min' (nonempty : s.elems.Nonempty) : s.first = s.elems.min' nonempty := by
  have nonzero : s.val ≠ 0 := fun zero => by
    obtain ⟨p, member⟩ := nonempty
    rw [mem_elems, zero, getLsbD_ofNat_zero] at member
    exact Bool.false_ne_true member.2
  obtain ⟨inside, top, low⟩ := StdBit.countrZero_spec nonzero
  rw [first]
  apply le_antisymm
  · apply Finset.le_min'
    intro p member
    rw [mem_elems] at member
    by_contra above
    rw [low p (by omega)] at member
    exact Bool.false_ne_true member.2
  · exact Finset.min'_le _ _ (mem_elems.mpr ⟨inside, top⟩)

theorem last_eq_max' (nonempty : s.elems.Nonempty) : s.last = s.elems.max' nonempty := by
  have nonzero : s.val ≠ 0 := fun zero => by
    obtain ⟨p, member⟩ := nonempty
    rw [mem_elems, zero, getLsbD_ofNat_zero] at member
    exact Bool.false_ne_true member.2
  obtain ⟨inside, top, high⟩ := StdBit.bitWidth_spec nonzero
  rw [last]
  apply le_antisymm
  · exact Finset.le_max' _ _ (mem_elems.mpr ⟨inside, top⟩)
  · apply Finset.max'_le
    intro p member
    rw [mem_elems] at member
    by_contra below
    rw [high p (by omega)] at member
    exact Bool.false_ne_true member.2

/-- What an iterator reports is the lowest bit it has not visited. -/
def Iterator.Reports (it : Iterator W) : Prop := it.val ≠ 0 → it.pos = StdBit.countrZero it.val

theorem Iterator.reports_init (val : BitVec W) : (Iterator.init val).Reports := by
  intro nonzero
  simp only [Iterator.init] at nonzero ⊢
  rw [if_pos nonzero]

theorem Iterator.reports_next {it : Iterator W} : it.next.Reports := by
  intro nonzero
  simp only [Iterator.next] at nonzero ⊢
  rw [if_pos nonzero]

theorem Iterator.walk_eq_setBits (it : Iterator W) (reports : it.Reports) :
    it.walk = StdBit.setBits it.val := by
  induction it using Iterator.walk.induct with
  | case1 it finished =>
      have zero : it.val = 0 := by simpa [Iterator.atEnd] using finished
      rw [Iterator.walk, if_pos finished, StdBit.setBits, eq_comm, List.filter_eq_nil_iff]
      intro p _
      rw [zero, getLsbD_ofNat_zero]
      decide
  | case2 it going ih =>
      have nonzero : it.val ≠ 0 := by simpa [Iterator.atEnd] using going
      rw [Iterator.walk, if_neg going, ih Iterator.reports_next, reports nonzero,
        StdBit.setBits_eq_cons nonzero]
      rfl

theorem walk_begin : s.begin.walk.Pairwise (· < ·) ∧ ∀ p, p ∈ s.begin.walk ↔ p ∈ s.elems := by
  rw [begin, Iterator.walk_eq_setBits _ (Iterator.reports_init s.val), StdBit.setBits]
  refine ⟨List.pairwise_lt_range.filter _, fun p => ?_⟩
  rw [List.mem_filter, List.mem_range, mem_elems]
  rfl

end Scan

/-- `IntBitSet<I>` behaves as the finite set of its positions below `Size()`: each method is the
set operation its name says. -/
structure FinsetModel (W : ℕ) : Prop where
  eq_iff : ∀ a b : IntBitSet W, a = b ↔ a.elems = b.elems
  subset_range : ∀ s : IntBitSet W, s.elems ⊆ Finset.range (size W)
  empty : (empty : IntBitSet W).elems = ∅
  singleton : ∀ i < size W, (singleton i : IntBitSet W).elems = {i}
  fill : ∀ count ≤ size W, (fill count : IntBitSet W).elems = Finset.range count
  set : ∀ (s : IntBitSet W), ∀ pos < size W, (s.set pos).elems = insert pos s.elems
  reset : ∀ (s : IntBitSet W), ∀ pos < size W, (s.reset pos).elems = s.elems.erase pos
  setTo : ∀ (s : IntBitSet W), ∀ pos < size W, ∀ b : Bool,
    (s.setTo pos b).elems = if b then insert pos s.elems else s.elems.erase pos
  get : ∀ (s : IntBitSet W), ∀ pos < size W, s.get pos = true ↔ pos ∈ s.elems
  or : ∀ a b : IntBitSet W, (a.or b).elems = a.elems ∪ b.elems
  and : ∀ a b : IntBitSet W, (a.and b).elems = a.elems ∩ b.elems
  sub : ∀ a b : IntBitSet W, (a.sub b).elems = a.elems \ b.elems
  xor : ∀ a b : IntBitSet W, (a.xor b).elems = symmDiff a.elems b.elems
  assign : ∀ a b : IntBitSet W, a.orAssign b = a.or b ∧ a.andAssign b = a.and b ∧
    a.subAssign b = a.sub b ∧ a.xorAssign b = a.xor b
  count : ∀ s : IntBitSet W, s.count = s.elems.card
  none : ∀ s : IntBitSet W, s.none = true ↔ s.elems = ∅
  any : ∀ s : IntBitSet W, s.any = true ↔ s.elems.Nonempty
  isSubsetOf : ∀ a b : IntBitSet W, a.isSubsetOf b = true ↔ a.elems ⊆ b.elems
  isSupersetOf : ∀ a b : IntBitSet W, a.isSupersetOf b = true ↔ b.elems ⊆ a.elems
  overlaps : ∀ a b : IntBitSet W, a.overlaps b = true ↔ ¬Disjoint a.elems b.elems
  first : ∀ (s : IntBitSet W) (nonempty : s.elems.Nonempty), s.first = s.elems.min' nonempty
  last : ∀ (s : IntBitSet W) (nonempty : s.elems.Nonempty), s.last = s.elems.max' nonempty
  iterate : ∀ s : IntBitSet W, s.begin.walk.Pairwise (· < ·) ∧ ∀ p, p ∈ s.begin.walk ↔ p ∈ s.elems

theorem finsetModel (limb : W = 8 ∨ W = 16 ∨ W = 32 ∨ W = 64) : FinsetModel W where
  eq_iff _ _ := eq_iff_elems_eq
  subset_range := elems_subset_range
  empty := elems_empty
  singleton _ inside := elems_singleton inside
  fill _ fits := elems_fill fits
  set s _ inside := elems_set s inside
  reset s _ inside := elems_reset s inside
  setTo s _ inside := elems_setTo s inside
  get s _ inside := get_iff s inside
  or := elems_or
  and := elems_and
  sub := elems_sub
  xor := elems_xor
  assign := assign_eq
  count s := count_eq_card s limb
  none := none_iff
  any := any_iff
  isSubsetOf := isSubsetOf_iff
  isSupersetOf := isSupersetOf_iff
  overlaps := overlaps_iff
  first := first_eq_min'
  last := last_eq_max'
  iterate := walk_begin

end IntBitSet

end Freycoin.Util
