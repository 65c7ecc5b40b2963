import Mathlib.Algebra.Order.BigOperators.Group.Finset
import Mathlib.Algebra.Order.Field.Rat
import Mathlib.Data.Prod.Lex
import Freycoin.Cluster.FeeFrac
import Freycoin.Library.MachineInt

/-! `FeeFrac` arithmetic as a commutative group, and its order on positive sizes. -/

namespace Freycoin.Cluster

namespace FeeFrac

/-- `FeeFrac()`: the empty feerate. -/
instance : Zero FeeFrac := ⟨⟨0, 0⟩⟩

instance : Neg FeeFrac := ⟨fun a => ⟨-a.fee, -a.size⟩⟩

theorem default_eq_zero : (default : FeeFrac) = 0 := rfl

@[simp] theorem fee_add (a b : FeeFrac) : (a + b).fee = a.fee + b.fee := rfl

@[simp] theorem size_add (a b : FeeFrac) : (a + b).size = a.size + b.size := rfl

@[simp] theorem size_zero : (0 : FeeFrac).size = 0 := rfl

theorem ext_fee_size {a b : FeeFrac} (fee : a.fee = b.fee) (size : a.size = b.size) : a = b := by
  cases a
  cases b
  congr

instance : AddCommGroup FeeFrac where
  add := (· + ·)
  zero := 0
  neg := Neg.neg
  sub := (· - ·)
  add_assoc a b c := ext_fee_size (Int64.add_assoc a.fee b.fee c.fee) (Int32.add_assoc a.size b.size c.size)
  zero_add a := ext_fee_size (Int64.zero_add a.fee) (Int32.zero_add a.size)
  add_zero a := ext_fee_size (Int64.add_zero a.fee) (Int32.add_zero a.size)
  add_comm a b := ext_fee_size (Int64.add_comm a.fee b.fee) (Int32.add_comm a.size b.size)
  neg_add_cancel a := ext_fee_size (Int64.add_left_neg a.fee) (Int32.add_left_neg a.size)
  sub_eq_add_neg a b := ext_fee_size (Int64.sub_eq_add_neg a.fee b.fee) (Int32.sub_eq_add_neg a.size b.size)
  nsmul := nsmulRec
  zsmul := zsmulRec

section Sizes

variable {ι : Type*} [DecidableEq ι] (f : ι → FeeFrac) (U : Finset ι)

theorem toInt_size_sum (positive : ∀ i ∈ U, 0 < (f i).size.toInt)
    (fits : ∑ i ∈ U, (f i).size.toInt < 2 ^ 31) :
    ∀ S ⊆ U, (∑ i ∈ S, f i).size.toInt = ∑ i ∈ S, (f i).size.toInt := by
  intro S
  induction S using Finset.induction_on with
  | empty =>
      intro _
      rfl
  | insert a S fresh ih =>
      intro within
      have rest := ih (fun i member => within (Finset.mem_insert_of_mem member))
      have restNonneg : 0 ≤ ∑ i ∈ S, (f i).size.toInt :=
        Finset.sum_nonneg fun i member => (positive i (within (Finset.mem_insert_of_mem member))).le
      have bounded : ∑ i ∈ insert a S, (f i).size.toInt ≤ ∑ i ∈ U, (f i).size.toInt :=
        Finset.sum_le_sum_of_subset_of_nonneg within fun i member _ => (positive i member).le
      rw [Finset.sum_insert fresh] at bounded
      have first := positive a (within (Finset.mem_insert_self a S))
      rw [Finset.sum_insert fresh, Finset.sum_insert fresh, size_add]
      exact MachineInt.int32_toInt_add_eq rfl rest (by omega) (by omega)

theorem toInt_size_sum_pos (positive : ∀ i ∈ U, 0 < (f i).size.toInt)
    (fits : ∑ i ∈ U, (f i).size.toInt < 2 ^ 31) {S : Finset ι} (within : S ⊆ U) (nonempty : S.Nonempty) :
    0 < (∑ i ∈ S, f i).size.toInt := by
  rw [toInt_size_sum f U positive fits S within]
  exact Finset.sum_pos (fun i member => positive i (within member)) nonempty

end Sizes

section Order

/-- The feerate, then the smaller size: what `operator<=>` orders by. -/
def key (a : FeeFrac) : Lex (ℚ × ℤ) := toLex ((a.fee.toInt : ℚ) / a.size.toInt, -a.size.toInt)

variable {a b : FeeFrac}

theorem ratio_eq_iff (pa : 0 < a.size.toInt) (pb : 0 < b.size.toInt) :
    (a.fee.toInt : ℚ) / a.size.toInt = (b.fee.toInt : ℚ) / b.size.toInt ↔
      a.fee.toInt * b.size.toInt = b.fee.toInt * a.size.toInt := by
  rw [div_eq_div_iff (by positivity) (by positivity)]
  norm_cast

theorem ratio_lt_iff (pa : 0 < a.size.toInt) (pb : 0 < b.size.toInt) :
    (b.fee.toInt : ℚ) / b.size.toInt < (a.fee.toInt : ℚ) / a.size.toInt ↔
      b.fee.toInt * a.size.toInt < a.fee.toInt * b.size.toInt := by
  rw [div_lt_div_iff₀ (by positivity) (by positivity)]
  norm_cast

theorem threeWayCompare_int128_eq_gt (pa : 0 < a.size.toInt) (pb : 0 < b.size.toInt) :
    threeWayCompare int128 a b = .gt ↔ key b < key a := by
  rw [key, key, Prod.Lex.toLex_lt_toLex]
  show (if a.fee.toInt * b.size.toInt = b.fee.toInt * a.size.toInt then compare b.size a.size
    else compare (a.fee.toInt * b.size.toInt) (b.fee.toInt * a.size.toInt)) = .gt ↔ _
  split
  · -- equal feerates: the smaller size is the greater
    rename_i cross
    have same := (ratio_eq_iff pa pb).mpr cross
    rw [MachineInt.int32_compare_toInt, compare_gt_iff_gt, same]
    constructor
    · intro smaller
      exact Or.inr ⟨rfl, by omega⟩
    · rintro (lower | ⟨-, smaller⟩)
      · exact absurd lower (lt_irrefl _)
      · omega
  · rename_i cross
    have differ : (b.fee.toInt : ℚ) / b.size.toInt ≠ (a.fee.toInt : ℚ) / a.size.toInt :=
      fun same => cross ((ratio_eq_iff pa pb).mp same.symm)
    rw [compare_gt_iff_gt, ← ratio_lt_iff pa pb]
    constructor
    · exact Or.inl
    · rintro (lower | ⟨same, -⟩)
      · exact lower
      · exact absurd same differ

end Order

end FeeFrac

end Freycoin.Cluster
