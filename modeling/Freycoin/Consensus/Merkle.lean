import Freycoin.Library.MerkleTree
import Mathlib.Algebra.Free

/-! `ComputeMerkleRoot` and `CheckMerkleRoot` of `consensus/merkle.cpp` and `validation.cpp`.

Hashes are values of a type `H`, `Hash(a, b)` is a function `hash` and `uint256()` a value
`zero`; the `mutated` flag is always returned. -/

namespace Freycoin.Consensus

open MerkleTree

variable {H : Type*} [DecidableEq H] (hash : H → H → H)

/-- The scan for `hashes[pos] == hashes[pos + 1]` over the even `pos`. -/
def pairsEqual : List H → Bool
  | a :: b :: rest => a == b || pairsEqual rest
  | _ => false

/-- `if (hashes.size() & 1) hashes.push_back(hashes.back());` -/
def duplicateLast (hashes : List H) : List H :=
  if hashes.length % 2 = 1 then hashes ++ hashes.getLast?.toList else hashes

/-- `SHA256D64` over the `hashes.size() / 2` pairs, with `hashes.resize(hashes.size() / 2)`. -/
def sha256D64 : List H → List H
  | a :: b :: rest => hash a b :: sha256D64 rest
  | _ => []

omit [DecidableEq H] in
theorem sha256D64_of_even {l : List H} (even : l.length % 2 = 0) :
    sha256D64 hash l = pairUp hash l := by
  induction l using pairUp.induct with
  | case1 => rfl
  | case2 a => simp at even
  | case3 a b rest ih =>
      rw [sha256D64, pairUp, ih (by simp only [List.length_cons] at even; omega)]

omit [DecidableEq H] in
theorem sha256D64_duplicateLast (l : List H) : sha256D64 hash (duplicateLast l) = pairUp hash l := by
  unfold duplicateLast
  split_ifs with odd
  · have nonempty : l ≠ [] := List.ne_nil_of_length_pos (by omega)
    have even : (l ++ l.getLast?.toList).length % 2 = 0 := by
      rw [List.length_append, List.getLast?_eq_some_getLast nonempty, Option.toList_some,
        List.length_singleton]
      omega
    rw [sha256D64_of_even hash even, pairUp_append_getLast odd]
  · exact sha256D64_of_even hash (by omega)

/-- The `while (hashes.size() > 1)` loop of `ComputeMerkleRoot`. -/
def computeMerkleRootLoop (hashes : List H) (mutation : Bool) : List H × Bool :=
  if 1 < hashes.length then
    computeMerkleRootLoop (sha256D64 hash (duplicateLast hashes)) (mutation || pairsEqual hashes)
  else (hashes, mutation)
termination_by hashes.length
decreasing_by
  rw [sha256D64_duplicateLast, length_pairUp]
  omega

/-- `ComputeMerkleRoot(hashes, &mutated)`: the root, `uint256()` for no hashes, and the flag. -/
def computeMerkleRoot (zero : H) (hashes : List H) : H × Bool :=
  ((computeMerkleRootLoop hash hashes false).1.headD zero,
    (computeMerkleRootLoop hash hashes false).2)

/-- `BlockMerkleRoot`: the root over the transaction ids, in block order. -/
def blockMerkleRoot (zero : H) (txids : List H) : H × Bool :=
  computeMerkleRoot hash zero txids

/-- `CheckMerkleRoot`: the reject reason, or success. -/
def checkMerkleRoot (zero hashMerkleRoot : H) (txids : List H) : Except String Unit :=
  if hashMerkleRoot ≠ (blockMerkleRoot hash zero txids).1 then .error "bad-txnmrklroot"
  else if (blockMerkleRoot hash zero txids).2 then .error "bad-txns-duplicate"
  else .ok ()

theorem pairsEqual_iff (l : List H) : pairsEqual l = true ↔ HasEqualPair l := by
  induction l using pairUp.induct with
  | case1 => simp [pairsEqual, HasEqualPair]
  | case2 a => simp [pairsEqual, HasEqualPair]
  | case3 a b rest ih => simp [pairsEqual, HasEqualPair, ih]

variable {hash}

theorem computeMerkleRootLoop_of_two_le {hashes : List H} (long : 1 < hashes.length)
    (mutation : Bool) :
    computeMerkleRootLoop hash hashes mutation =
      computeMerkleRootLoop hash (pairUp hash hashes) (mutation || pairsEqual hashes) := by
  rw [computeMerkleRootLoop, if_pos long, sha256D64_duplicateLast]

theorem computeMerkleRootLoop_of_le_one {hashes : List H} (short : hashes.length ≤ 1)
    (mutation : Bool) : computeMerkleRootLoop hash hashes mutation = (hashes, mutation) := by
  rw [computeMerkleRootLoop, if_neg (by omega)]

omit [DecidableEq H] in
theorem not_hasEqualPair_level_singleton (a : H) (j : ℕ) :
    ¬HasEqualPair (level hash [a] j) := by
  intro equal
  have wide := two_le_length_of_hasEqualPair equal
  rw [length_level, List.length_singleton,
    le_antisymm ((width_le_one_iff j).mpr Nat.one_le_two_pow) (one_le_width j Nat.one_pos)] at wide
  omega

theorem computeMerkleRootLoop_spec (empty : H) :
    ∀ (hashes : List H) (mutation : Bool), hashes ≠ [] →
      (computeMerkleRootLoop hash hashes mutation).1 = [root hash empty hashes] ∧
      ((computeMerkleRootLoop hash hashes mutation).2 = true ↔
        mutation = true ∨ ∃ j, HasEqualPair (level hash hashes j)) := by
  intro hashes
  induction h : hashes.length using Nat.strong_induction_on generalizing hashes with
  | _ n ih => ?_
  intro mutation nonempty
  by_cases long : 1 < hashes.length
  · -- one pass of the loop, then the rest from the level above
    have nonemptyUp : pairUp hash hashes ≠ [] := List.ne_nil_of_length_pos (by simp; omega)
    obtain ⟨rootUp, flagUp⟩ := ih (pairUp hash hashes).length
      (by simp only [length_pairUp]; omega) (pairUp hash hashes) rfl
      (mutation || pairsEqual hashes) nonemptyUp
    rw [computeMerkleRootLoop_of_two_le long, rootUp, flagUp, ← root_of_two_le empty long]
    refine ⟨rfl, ?_⟩
    simp only [Bool.or_eq_true, pairsEqual_iff]
    constructor
    · rintro ((flagged | first) | ⟨j, later⟩)
      · exact Or.inl flagged
      · exact Or.inr ⟨0, first⟩
      · exact Or.inr ⟨j + 1, by rwa [level_succ']⟩
    · rintro (flagged | ⟨j, equal⟩)
      · exact Or.inl (Or.inl flagged)
      · cases j with
        | zero => exact Or.inl (Or.inr equal)
        | succ j => exact Or.inr ⟨j, by rwa [← level_succ']⟩
  · have single : hashes.length = 1 := by
      have := List.length_pos_iff.mpr nonempty
      omega
    obtain ⟨a, rfl⟩ := List.length_eq_one_iff.mp single
    rw [computeMerkleRootLoop_of_le_one (by simp), root_singleton]
    exact ⟨rfl, by simp [not_hasEqualPair_level_singleton]⟩

theorem computeMerkleRoot_nil (zero : H) : computeMerkleRoot hash zero [] = (zero, false) := by
  rw [computeMerkleRoot, computeMerkleRootLoop_of_le_one (by simp)]
  rfl

theorem computeMerkleRoot_singleton (zero a : H) :
    computeMerkleRoot hash zero [a] = (a, false) := by
  rw [computeMerkleRoot, computeMerkleRootLoop_of_le_one (by simp)]
  rfl

theorem computeMerkleRoot_fst (zero : H) {hashes : List H} (nonempty : hashes ≠ []) :
    (computeMerkleRoot hash zero hashes).1 = root hash zero hashes := by
  rw [computeMerkleRoot, (computeMerkleRootLoop_spec zero hashes false nonempty).1]
  rfl

theorem computeMerkleRoot_snd (zero : H) (hashes : List H) :
    (computeMerkleRoot hash zero hashes).2 = true ↔ ∃ j, HasEqualPair (level hash hashes j) := by
  by_cases empty : hashes = []
  · subst empty
    rw [computeMerkleRoot_nil]
    simp only [Bool.false_eq_true, false_iff, not_exists]
    intro j equal
    have wide := two_le_length_of_hasEqualPair equal
    have none : width 0 j = 0 := by
      rw [width, Nat.zero_add]
      exact Nat.div_eq_of_lt (by have := Nat.two_pow_pos j; omega)
    rw [length_level, List.length_nil, none] at wide
    omega
  · rw [computeMerkleRoot, (computeMerkleRootLoop_spec zero hashes false empty).2]
    simp only [Bool.false_eq_true, false_or]

theorem checkMerkleRoot_eq_ok (zero hashMerkleRoot : H) (txids : List H) :
    checkMerkleRoot hash zero hashMerkleRoot txids = .ok () ↔
      hashMerkleRoot = (computeMerkleRoot hash zero txids).1 ∧
        (computeMerkleRoot hash zero txids).2 = false := by
  unfold checkMerkleRoot blockMerkleRoot
  split_ifs with differs flagged
  · simp [differs]
  · simp [flagged]
  · simp_all

variable (hash) in
/-- `ComputeMerkleRoot` computes the reference root, and under an injective hash whose values
are never leaves, its flag catches every root collision between distinct nonempty lists; so
`CheckMerkleRoot` accepts at most one nonempty list of transaction ids for a root. -/
theorem computeMerkleRoot_rejects_every_collision (zero : H)
    (injective : ∀ a b c d, hash a b = hash c d → a = c ∧ b = d) :
    computeMerkleRoot hash zero [] = (zero, false) ∧
      (∀ L : List H, L ≠ [] → (computeMerkleRoot hash zero L).1 = root hash zero L) ∧
      (∀ L L' : List H, L ≠ [] → L' ≠ [] → L ≠ L' → (∀ x ∈ L ++ L', ∀ a b, hash a b ≠ x) →
        (computeMerkleRoot hash zero L).1 = (computeMerkleRoot hash zero L').1 →
        (computeMerkleRoot hash zero L).2 = true ∨ (computeMerkleRoot hash zero L').2 = true) ∧
      (∀ (hashMerkleRoot : H) (L L' : List H), L ≠ [] → L' ≠ [] →
        (∀ x ∈ L ++ L', ∀ a b, hash a b ≠ x) →
        checkMerkleRoot hash zero hashMerkleRoot L = .ok () →
        checkMerkleRoot hash zero hashMerkleRoot L' = .ok () → L = L') := by
  -- the collision argument, once for both the flag and `CheckMerkleRoot`
  have flagged : ∀ L L' : List H, L ≠ [] → L' ≠ [] → L ≠ L' →
      (∀ x ∈ L ++ L', ∀ a b, hash a b ≠ x) →
      (computeMerkleRoot hash zero L).1 = (computeMerkleRoot hash zero L').1 →
      (computeMerkleRoot hash zero L).2 = true ∨ (computeMerkleRoot hash zero L').2 = true := by
    intro L L' nonempty nonempty' distinct leaves same
    rw [computeMerkleRoot_fst zero nonempty, computeMerkleRoot_fst zero nonempty'] at same
    have ranked : ∀ x ∈ L, Rank hash 0 x := fun x member =>
      Rank.leaf (leaves x (List.mem_append_left _ member))
    have ranked' : ∀ x ∈ L', Rank hash 0 x := fun x member =>
      Rank.leaf (leaves x (List.mem_append_right _ member))
    rw [computeMerkleRoot_snd, computeMerkleRoot_snd]
    rcases eq_or_hasEqualPair_of_root_eq injective zero L L' 0 ranked ranked' nonempty nonempty'
        same with same | equal
    · exact absurd same distinct
    · exact equal
  refine ⟨computeMerkleRoot_nil zero, fun L nonempty => computeMerkleRoot_fst zero nonempty,
    flagged, ?_⟩
  intro hashMerkleRoot L L' nonempty nonempty' leaves accepted accepted'
  rw [checkMerkleRoot_eq_ok] at accepted accepted'
  by_contra distinct
  rcases flagged L L' nonempty nonempty' distinct leaves
      (accepted.1.symm.trans accepted'.1) with mutated | mutated
  · rw [accepted.2] at mutated
    exact Bool.false_ne_true mutated
  · rw [accepted'.2] at mutated
    exact Bool.false_ne_true mutated

theorem freeMagma_mul_injective (a b c d : FreeMagma ℕ) (same : a * b = c * d) :
    a = c ∧ b = d := by
  injection same with left right
  exact ⟨left, right⟩

theorem computeMerkleRoot_rejects_free_magma_collisions :
    (∀ a b c d : FreeMagma ℕ, a * b = c * d → a = c ∧ b = d) ∧
      (computeMerkleRoot (· * ·) (FreeMagma.of 0) [] = (FreeMagma.of 0, false) ∧
      (∀ L : List (FreeMagma ℕ), L ≠ [] →
        (computeMerkleRoot (· * ·) (FreeMagma.of 0) L).1 = root (· * ·) (FreeMagma.of 0) L) ∧
      (∀ L L' : List (FreeMagma ℕ), L ≠ [] → L' ≠ [] → L ≠ L' →
        (∀ x ∈ L ++ L', ∀ a b, a * b ≠ x) →
        (computeMerkleRoot (· * ·) (FreeMagma.of 0) L).1 =
          (computeMerkleRoot (· * ·) (FreeMagma.of 0) L').1 →
        (computeMerkleRoot (· * ·) (FreeMagma.of 0) L).2 = true ∨
          (computeMerkleRoot (· * ·) (FreeMagma.of 0) L').2 = true) ∧
      (∀ (hashMerkleRoot : FreeMagma ℕ) (L L' : List (FreeMagma ℕ)), L ≠ [] → L' ≠ [] →
        (∀ x ∈ L ++ L', ∀ a b, a * b ≠ x) →
        checkMerkleRoot (· * ·) (FreeMagma.of 0) hashMerkleRoot L = .ok () →
        checkMerkleRoot (· * ·) (FreeMagma.of 0) hashMerkleRoot L' = .ok () → L = L')) :=
  ⟨freeMagma_mul_injective,
    computeMerkleRoot_rejects_every_collision (· * ·) (FreeMagma.of 0) freeMagma_mul_injective⟩

/-- No transaction ids and the single id `uint256()` have the same root `uint256()`, and
neither call sets `*mutated`: `CheckMerkleRoot` accepts both for that root. -/
theorem computeMerkleRoot_empty_collides :
    ([] : List (FreeMagma ℕ)) ≠ [FreeMagma.of 0] ∧
      (∀ x ∈ ([] : List (FreeMagma ℕ)) ++ [FreeMagma.of 0], ∀ a b : FreeMagma ℕ, a * b ≠ x) ∧
      (computeMerkleRoot (· * ·) (FreeMagma.of 0) []).1 =
        (computeMerkleRoot (· * ·) (FreeMagma.of 0) [FreeMagma.of 0]).1 ∧
      (computeMerkleRoot (· * ·) (FreeMagma.of 0) []).2 = false ∧
      (computeMerkleRoot (· * ·) (FreeMagma.of 0) [FreeMagma.of 0]).2 = false ∧
      checkMerkleRoot (· * ·) (FreeMagma.of 0) (FreeMagma.of 0) [] = .ok () ∧
      checkMerkleRoot (· * ·) (FreeMagma.of 0) (FreeMagma.of 0) [FreeMagma.of 0] = .ok () := by
  have leaf : ∀ x ∈ ([] : List (FreeMagma ℕ)) ++ [FreeMagma.of 0], ∀ a b : FreeMagma ℕ,
      a * b ≠ x := by
    intro x member a b produced
    rw [List.nil_append, List.mem_singleton] at member
    subst member
    cases produced
  rw [checkMerkleRoot_eq_ok, checkMerkleRoot_eq_ok, computeMerkleRoot_nil,
    computeMerkleRoot_singleton]
  exact ⟨(List.cons_ne_nil _ _).symm, leaf, rfl, rfl, rfl, ⟨rfl, rfl⟩, ⟨rfl, rfl⟩⟩

end Freycoin.Consensus
