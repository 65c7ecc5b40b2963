import Mathlib

/-! Merkle trees whose levels pair up neighbours and pair a last odd node with itself. -/

namespace MerkleTree

variable {H : Type*} (hash : H → H → H)

/-- One level up: neighbours are hashed together, a last odd node with itself. -/
def pairUp : List H → List H
  | [] => []
  | [a] => [hash a a]
  | a :: b :: rest => hash a b :: pairUp rest

/-- The number of nodes at height `k` over `n` leaves. -/
def width (n k : ℕ) : ℕ := (n + 2 ^ k - 1) / 2 ^ k

/-- The level at height `k`. -/
def level (leaves : List H) (k : ℕ) : List H := (pairUp hash)^[k] leaves

/-- The root: the last node left by pairing up, `empty` for no leaves. -/
def root (empty : H) : List H → H
  | [] => empty
  | [a] => a
  | a :: b :: rest => root empty (pairUp hash (a :: b :: rest))
termination_by leaves => leaves.length
decreasing_by
  have shorter : ∀ l : List H, (pairUp hash l).length ≤ (l.length + 1) / 2 := by
    intro l
    induction l using pairUp.induct with
    | case1 => simp [pairUp]
    | case2 a => simp [pairUp]
    | case3 a b rest ih => simp only [pairUp, List.length_cons]; omega
  have := shorter rest
  simp only [pairUp, List.length_cons]
  omega

/-- The node at height `k` and index `i`, computed from the top; a right child past the end of
its level is read as the left one. -/
def node (leaves : List H) (empty : H) : ℕ → ℕ → H
  | 0, i => leaves.getD i empty
  | k + 1, i =>
      hash (node leaves empty k (2 * i))
        (node leaves empty k (if 2 * i + 1 < width leaves.length k then 2 * i + 1 else 2 * i))

/-- The index of the node paired with node `i` at height `k`: its neighbour, or itself when it
is the last node of an odd level. -/
def siblingIndex (n k i : ℕ) : ℕ :=
  if i % 2 = 0 then (if i + 1 < width n k then i + 1 else i) else i - 1

/-- The siblings met on the way from leaf `p` up to height `k`. -/
def siblings (leaves : List H) (empty : H) (p k : ℕ) : List H :=
  (List.range k).map fun j => node hash leaves empty j (siblingIndex leaves.length j (p / 2 ^ j))

/-- The siblings met on the way from leaf `p` to the root. -/
def path (leaves : List H) (empty : H) (p : ℕ) : List H :=
  siblings hash leaves empty p (Nat.clog 2 leaves.length)

/-- Climb from `h` at index `index`: a sibling goes right of an even index and left of an odd
one. -/
def foldPath (h : H) (index : ℕ) : List H → H
  | [] => h
  | s :: rest => foldPath (if index % 2 = 0 then hash h s else hash s h) (index / 2) rest

section Levels

variable {hash}

@[simp] theorem length_pairUp (l : List H) : (pairUp hash l).length = (l.length + 1) / 2 := by
  induction l using pairUp.induct with
  | case1 => simp [pairUp]
  | case2 a => simp [pairUp]
  | case3 a b rest ih => simp only [pairUp, List.length_cons, ih]; omega

theorem getD_pairUp (l : List H) (e : H) {m : ℕ} (inside : m < (l.length + 1) / 2) :
    (pairUp hash l).getD m e =
      hash (l.getD (2 * m) e) (l.getD (if 2 * m + 1 < l.length then 2 * m + 1 else 2 * m) e) := by
  induction l using pairUp.induct generalizing m with
  | case1 => simp at inside
  | case2 a =>
      have zero : m = 0 := by simpa using inside
      subst zero
      simp [pairUp]
  | case3 a b rest ih =>
      cases m with
      | zero => simp [pairUp]
      | succ m =>
          have below : m < (rest.length + 1) / 2 := by
            simp only [List.length_cons] at inside
            omega
          have index : 2 * (m + 1) = 2 * m + 1 + 1 := by omega
          have condition : 2 * m + 1 + 1 + 1 < rest.length + 1 + 1 ↔ 2 * m + 1 < rest.length := by
            omega
          rw [pairUp, List.getD_cons_succ, ih below, index]
          simp only [List.length_cons, List.getD_cons_succ, condition]
          split_ifs <;> rfl

theorem width_zero (n : ℕ) : width n 0 = n := by simp [width]

theorem width_succ (n k : ℕ) : width n (k + 1) = (width n k + 1) / 2 := by
  have positive := Nat.two_pow_pos k
  have lifted : (n + 2 ^ k - 1) / 2 ^ k + 1 = (n + 2 ^ k - 1 + 2 ^ k) / 2 ^ k :=
    (Nat.add_div_right _ positive).symm
  rw [width, width, lifted, Nat.div_div_eq_div_mul, Nat.pow_succ]
  congr 1
  omega

theorem width_eq (n k : ℕ) (nonempty : 0 < n) : width n k = (n - 1) / 2 ^ k + 1 := by
  have positive := Nat.two_pow_pos k
  rw [width, show n + 2 ^ k - 1 = n - 1 + 2 ^ k by omega, Nat.add_div_right _ positive]

theorem div_lt_width {n p : ℕ} (k : ℕ) (below : p < n) : p / 2 ^ k < width n k := by
  rw [width_eq n k (by omega)]
  exact Nat.lt_succ_of_le (Nat.div_le_div_right (show p ≤ n - 1 by omega))

theorem width_le_one_iff {n : ℕ} (k : ℕ) : width n k ≤ 1 ↔ n ≤ 2 ^ k := by
  have positive := Nat.two_pow_pos k
  rw [width, Nat.div_le_iff_le_mul_add_pred positive]
  omega

theorem one_le_width {n : ℕ} (k : ℕ) (nonempty : 0 < n) : 1 ≤ width n k := by
  rw [width_eq n k nonempty]
  exact Nat.le_add_left 1 _

theorem width_le_one_iff_clog_le {n : ℕ} (k : ℕ) : width n k ≤ 1 ↔ Nat.clog 2 n ≤ k := by
  rw [width_le_one_iff, Nat.clog_le_iff_le_pow Nat.one_lt_two]

theorem width_clog {n : ℕ} (nonempty : 0 < n) : width n (Nat.clog 2 n) = 1 :=
  le_antisymm ((width_le_one_iff_clog_le _).mpr le_rfl) (one_le_width _ nonempty)

theorem width_of_dvd {n k : ℕ} (divides : 2 ^ k ∣ n) : width n k = n / 2 ^ k := by
  obtain ⟨q, rfl⟩ := divides
  have positive := Nat.two_pow_pos k
  rw [width, Nat.mul_div_cancel_left _ positive]
  apply Nat.div_eq_of_lt_le
  · rw [Nat.mul_comm]
    omega
  · rw [Nat.add_mul, Nat.one_mul, Nat.mul_comm q]
    omega

theorem width_of_not_dvd {n k : ℕ} (rough : ¬2 ^ k ∣ n) : width n k = n / 2 ^ k + 1 := by
  have positive := Nat.two_pow_pos k
  have split := Nat.div_add_mod n (2 ^ k)
  have remainder : 0 < n % 2 ^ k :=
    Nat.pos_of_ne_zero fun zero => rough (Nat.dvd_of_mod_eq_zero zero)
  have small := Nat.mod_lt n positive
  rw [width]
  apply Nat.div_eq_of_lt_le
  · rw [Nat.add_mul, Nat.one_mul, Nat.mul_comm (n / 2 ^ k)]
    omega
  · rw [Nat.add_mul, Nat.add_mul, Nat.one_mul, Nat.mul_comm (n / 2 ^ k)]
    omega

theorem le_width_mul (n k : ℕ) : n ≤ width n k * 2 ^ k := by
  have positive := Nat.two_pow_pos k
  have := Nat.lt_div_mul_add (a := n + 2 ^ k - 1) positive
  rw [width]
  omega

theorem lt_width_iff {n k p : ℕ} : p < width n k ↔ p * 2 ^ k < n := by
  have positive := Nat.two_pow_pos k
  rw [width, Nat.lt_iff_add_one_le, Nat.le_div_iff_mul_le positive, Nat.succ_mul]
  omega

theorem width_mul_le {n k : ℕ} (below : k ≤ Nat.clog 2 n) :
    width n k * 2 ^ k ≤ 2 ^ Nat.clog 2 n := by
  have positive := Nat.two_pow_pos k
  have split : 2 ^ Nat.clog 2 n = 2 ^ k * 2 ^ (Nat.clog 2 n - k) := by
    rw [← Nat.pow_add, Nat.add_sub_cancel' below]
  have fits : n ≤ 2 ^ k * 2 ^ (Nat.clog 2 n - k) := by
    rw [← split]
    exact Nat.le_pow_clog Nat.one_lt_two n
  have narrow : width n k ≤ 2 ^ (Nat.clog 2 n - k) := by
    rw [width, Nat.div_le_iff_le_mul_add_pred positive]
    omega
  rw [split, Nat.mul_comm (2 ^ k)]
  exact Nat.mul_le_mul_right _ narrow

theorem width_mul_div {n k j : ℕ} (odd : width n k % 2 = 1) (above : k < j) :
    width n k * 2 ^ k / 2 ^ j = n / 2 ^ j := by
  have positive := Nat.two_pow_pos k
  have next : width n k * 2 ^ k / 2 ^ (k + 1) = n / 2 ^ (k + 1) := by
    have left : width n k * 2 ^ k / 2 ^ (k + 1) = width n k / 2 := by
      rw [Nat.pow_succ, Nat.mul_comm (2 ^ k) 2, Nat.mul_div_mul_right _ _ positive]
    have right : n / 2 ^ (k + 1) = n / 2 ^ k / 2 := by
      rw [Nat.pow_succ, Nat.div_div_eq_div_mul]
    rw [left, right]
    by_cases divides : 2 ^ k ∣ n
    · rw [width_of_dvd divides]
    · rw [width_of_not_dvd divides] at odd ⊢
      omega
  obtain ⟨d, rfl⟩ : ∃ d, j = k + 1 + d := ⟨j - (k + 1), by omega⟩
  rw [Nat.pow_add, ← Nat.div_div_eq_div_mul, ← Nat.div_div_eq_div_mul, next]

theorem not_dvd_of_width_odd {n k : ℕ} (odd : width n k % 2 = 1) : ¬2 ^ (k + 1) ∣ n := by
  intro divides
  obtain ⟨q, rfl⟩ := divides
  have divides' : 2 ^ k ∣ 2 ^ (k + 1) * q :=
    Nat.dvd_trans (Nat.pow_dvd_pow 2 (Nat.le_succ k)) (Nat.dvd_mul_right _ q)
  rw [width_of_dvd divides', Nat.pow_succ, Nat.mul_assoc,
    Nat.mul_div_cancel_left _ (Nat.two_pow_pos k)] at odd
  omega

@[simp] theorem level_zero (l : List H) : level hash l 0 = l := rfl

theorem level_succ (l : List H) (k : ℕ) :
    level hash l (k + 1) = pairUp hash (level hash l k) :=
  Function.iterate_succ_apply' _ _ _

theorem level_succ' (l : List H) (k : ℕ) :
    level hash l (k + 1) = level hash (pairUp hash l) k :=
  Function.iterate_succ_apply _ _ _

@[simp] theorem length_level (l : List H) (k : ℕ) :
    (level hash l k).length = width l.length k := by
  induction k with
  | zero => simp [width_zero]
  | succ k ih => rw [level_succ, length_pairUp, ih, width_succ]

theorem getD_level (l : List H) (empty : H) (k : ℕ) {i : ℕ} (inside : i < width l.length k) :
    (level hash l k).getD i empty = node hash l empty k i := by
  induction k generalizing i with
  | zero => rfl
  | succ k ih =>
      rw [width_succ] at inside
      have left : 2 * i < width l.length k := by omega
      rw [level_succ, getD_pairUp _ _ (by rw [length_level]; exact inside), length_level, node,
        ih left]
      split_ifs with right
      · rw [ih right]
      · rw [ih left]

theorem root_of_two_le (empty : H) {l : List H} (long : 2 ≤ l.length) :
    root hash empty l = root hash empty (pairUp hash l) := by
  match l, long with
  | a :: b :: rest, _ => rw [root]

theorem root_singleton (empty a : H) : root hash empty [a] = a := by
  rw [root]

theorem root_eq_node (empty : H) {l : List H} (nonempty : l ≠ []) :
    root hash empty l = node hash l empty (Nat.clog 2 l.length) 0 := by
  have positive : 0 < l.length := List.length_pos_iff.mpr nonempty
  -- below the top every level has two nodes or more, so `root` pairs it up
  have climb : ∀ k ≤ Nat.clog 2 l.length, root hash empty l = root hash empty (level hash l k) := by
    intro k
    induction k with
    | zero => intro _; rfl
    | succ k ih =>
        intro below
        have wide : 2 ≤ (level hash l k).length := by
          rw [length_level]
          have := (width_le_one_iff_clog_le (n := l.length) k).not.mpr (by omega)
          omega
        rw [ih (by omega), root_of_two_le empty wide, level_succ]
  have single : (level hash l (Nat.clog 2 l.length)).length = 1 := by
    rw [length_level, width_clog positive]
  obtain ⟨top, topEq⟩ := List.length_eq_one_iff.mp single
  have read : (level hash l (Nat.clog 2 l.length)).getD 0 empty =
      node hash l empty (Nat.clog 2 l.length) 0 :=
    getD_level l empty _ (by rw [width_clog positive]; omega)
  rw [climb _ le_rfl, topEq, root_singleton]
  rw [topEq] at read
  exact read

end Levels

section Paths

variable {hash}

theorem node_succ_div_two (leaves : List H) (empty : H) (k : ℕ) {i : ℕ}
    (inside : i < width leaves.length k) :
    node hash leaves empty (k + 1) (i / 2) =
      if i % 2 = 0 then
        hash (node hash leaves empty k i)
          (node hash leaves empty k (siblingIndex leaves.length k i))
      else
        hash (node hash leaves empty k (siblingIndex leaves.length k i))
          (node hash leaves empty k i) := by
  rcases Nat.mod_two_eq_zero_or_one i with even | odd
  · rw [node, show 2 * (i / 2) = i by omega, siblingIndex, if_pos even, if_pos even]
  · have pair : 2 * (i / 2) + 1 = i := by omega
    rw [node, pair, if_pos inside, show 2 * (i / 2) = i - 1 by omega, siblingIndex,
      if_neg (by omega), if_neg (by omega)]

theorem foldPath_range' (leaves : List H) (empty : H) {p : ℕ} (below : p < leaves.length)
    (K j : ℕ) :
    foldPath hash (node hash leaves empty j (p / 2 ^ j)) (p / 2 ^ j)
        ((List.range' j K).map fun k =>
          node hash leaves empty k (siblingIndex leaves.length k (p / 2 ^ k))) =
      node hash leaves empty (j + K) (p / 2 ^ (j + K)) := by
  induction K generalizing j with
  | zero => simp [foldPath]
  | succ K ih =>
      have up : p / 2 ^ j / 2 = p / 2 ^ (j + 1) := by
        rw [Nat.div_div_eq_div_mul, Nat.pow_succ]
      rw [List.range'_succ, List.map_cons, foldPath,
        ← node_succ_div_two leaves empty j (div_lt_width j below), up, ih (j + 1),
        Nat.add_right_comm, Nat.add_assoc]

theorem foldPath_path (empty : H) (leaves : List H) {p : ℕ} (below : p < leaves.length) :
    foldPath hash (leaves.getD p empty) p (path hash leaves empty p) =
      root hash empty leaves := by
  have nonempty : leaves ≠ [] := List.ne_nil_of_length_pos (by omega)
  have top : p / 2 ^ Nat.clog 2 leaves.length = 0 :=
    Nat.div_eq_of_lt (lt_of_lt_of_le below (Nat.le_pow_clog Nat.one_lt_two _))
  have climbed : foldPath hash (node hash leaves empty 0 (p / 2 ^ 0)) (p / 2 ^ 0)
      ((List.range' 0 (Nat.clog 2 leaves.length)).map fun k =>
        node hash leaves empty k (siblingIndex leaves.length k (p / 2 ^ k))) =
      node hash leaves empty (0 + Nat.clog 2 leaves.length) (p / 2 ^ (0 + Nat.clog 2 leaves.length)) :=
    foldPath_range' leaves empty below _ 0
  simp only [Nat.pow_zero, Nat.div_one, Nat.zero_add, top] at climbed
  rw [root_eq_node empty nonempty, path, siblings, List.range_eq_range', ← climbed]
  rfl

@[simp] theorem length_path (leaves : List H) (empty : H) (p : ℕ) :
    (path hash leaves empty p).length = Nat.clog 2 leaves.length := by
  simp [path, siblings]

theorem siblings_zero (leaves : List H) (empty : H) (p : ℕ) :
    siblings hash leaves empty p 0 = [] := rfl

theorem siblings_succ (leaves : List H) (empty : H) (p k : ℕ) :
    siblings hash leaves empty p (k + 1) =
      siblings hash leaves empty p k ++
        [node hash leaves empty k (siblingIndex leaves.length k (p / 2 ^ k))] := by
  rw [siblings, siblings, List.range_succ, List.map_append, List.map_singleton]

end Paths

section Collisions

/-- `x` is a node at height `k` over leaves that the hash never produces. -/
inductive Rank : ℕ → H → Prop
  | leaf {x : H} : (∀ a b, hash a b ≠ x) → Rank 0 x
  | node {k : ℕ} {a b : H} : Rank k a → Rank k b → Rank (k + 1) (hash a b)

/-- Some pair `l[2i], l[2i+1]` that the next level hashes together is a pair of equal nodes. -/
def HasEqualPair : List H → Prop
  | a :: b :: rest => a = b ∨ HasEqualPair rest
  | _ => False

variable {hash}
variable (injective : ∀ a b c d, hash a b = hash c d → a = c ∧ b = d)
include injective

theorem rank_hash_inv {k : ℕ} {a b : H} (ranked : Rank hash k (hash a b)) :
    ∃ j, k = j + 1 ∧ Rank hash j a ∧ Rank hash j b := by
  generalize produced : hash a b = x at ranked
  cases ranked with
  | leaf notHash => exact absurd produced (notHash a b)
  | node left right =>
      obtain ⟨rfl, rfl⟩ := injective _ _ _ _ produced
      exact ⟨_, rfl, left, right⟩

theorem rank_unique {j k : ℕ} {x : H} (hj : Rank hash j x) (hk : Rank hash k x) : j = k := by
  induction hj generalizing k with
  | leaf notHash =>
      cases hk with
      | leaf _ => rfl
      | node _ _ => exact absurd rfl (notHash _ _)
  | node left _ ih _ =>
      obtain ⟨j, rfl, left', _⟩ := rank_hash_inv injective hk
      rw [ih left']

omit injective in
theorem rank_pairUp {k : ℕ} {l : List H} (ranked : ∀ x ∈ l, Rank hash k x) :
    ∀ x ∈ pairUp hash l, Rank hash (k + 1) x := by
  induction l using pairUp.induct with
  | case1 => simp [pairUp]
  | case2 a =>
      have ha := ranked a (by simp)
      simpa [pairUp] using Rank.node ha ha
  | case3 a b rest ih =>
      intro x member
      simp only [pairUp, List.mem_cons] at member
      rcases member with rfl | member
      · exact Rank.node (ranked a (by simp)) (ranked b (by simp))
      · exact ih (fun y hy => ranked y (by simp [hy])) x member

omit injective in
theorem rank_level {k : ℕ} {l : List H} (ranked : ∀ x ∈ l, Rank hash k x) (j : ℕ) :
    ∀ x ∈ level hash l j, Rank hash (k + j) x := by
  induction j with
  | zero => simpa using ranked
  | succ j ih =>
      rw [level_succ]
      exact rank_pairUp ih

omit injective in
theorem rank_root (empty : H) {k : ℕ} {l : List H} (ranked : ∀ x ∈ l, Rank hash k x)
    (nonempty : l ≠ []) : Rank hash (k + Nat.clog 2 l.length) (root hash empty l) := by
  have positive : 0 < l.length := List.length_pos_iff.mpr nonempty
  have inside : 0 < (level hash l (Nat.clog 2 l.length)).length := by
    rw [length_level, width_clog positive]
    omega
  rw [root_eq_node empty nonempty, ← getD_level l empty _ (by rw [width_clog positive]; omega),
    List.getD_eq_getElem _ _ inside]
  exact rank_level ranked _ _ (List.getElem_mem inside)

omit injective in
theorem two_le_length_of_hasEqualPair {l : List H} (equal : HasEqualPair l) : 2 ≤ l.length := by
  match l, equal with
  | _ :: _ :: _, _ => simp

theorem eq_or_hasEqualPair_of_pairUp_eq {l l' : List H} (same : pairUp hash l = pairUp hash l') :
    l = l' ∨ HasEqualPair l ∨ HasEqualPair l' := by
  have nil_of_pairUp : ∀ r : List H, pairUp hash r = [] → r = [] := by
    intro r empty
    have lengths := congrArg List.length empty
    rw [length_pairUp, List.length_nil] at lengths
    exact List.eq_nil_of_length_eq_zero (by omega)
  -- the lists are taken apart two nodes at a time, as `pairUp` does
  induction l using pairUp.induct generalizing l' with
  | case1 =>
      rcases l' with _ | ⟨c, _ | ⟨d, rest'⟩⟩
      · exact Or.inl rfl
      all_goals simp [pairUp] at same
  | case2 a =>
      rcases l' with _ | ⟨c, _ | ⟨d, rest'⟩⟩
      · simp [pairUp] at same
      · simp only [pairUp, List.cons.injEq, and_true] at same
        rw [(injective _ _ _ _ same).1]
        exact Or.inl rfl
      · simp only [pairUp, List.cons.injEq] at same
        obtain ⟨⟨rfl, rfl⟩, tail⟩ := And.imp_left (injective _ _ _ _) same
        rw [nil_of_pairUp rest' tail.symm]
        exact Or.inr (Or.inr (Or.inl rfl))
  | case3 a b rest ih =>
      rcases l' with _ | ⟨c, _ | ⟨d, rest'⟩⟩
      · simp [pairUp] at same
      · simp only [pairUp, List.cons.injEq] at same
        obtain ⟨⟨rfl, rfl⟩, tail⟩ := And.imp_left (injective _ _ _ _) same
        rw [nil_of_pairUp rest tail]
        exact Or.inr (Or.inl (Or.inl rfl))
      · simp only [pairUp, List.cons.injEq] at same
        obtain ⟨⟨rfl, rfl⟩, tail⟩ := And.imp_left (injective _ _ _ _) same
        rcases ih tail with rfl | equal | equal
        · exact Or.inl rfl
        · exact Or.inr (Or.inl (Or.inr equal))
        · exact Or.inr (Or.inr (Or.inr equal))

theorem eq_or_hasEqualPair_of_root_eq (empty : H) :
    ∀ (l l' : List H) (k : ℕ), (∀ x ∈ l, Rank hash k x) → (∀ x ∈ l', Rank hash k x) →
      l ≠ [] → l' ≠ [] → root hash empty l = root hash empty l' →
      l = l' ∨ (∃ j, HasEqualPair (level hash l j)) ∨ (∃ j, HasEqualPair (level hash l' j)) := by
  intro l
  -- strong induction on the total length: both lists are paired up together
  induction h : l.length using Nat.strong_induction_on generalizing l with
  | _ total ih => ?_
  intro l' k ranked ranked' nonempty nonempty' same
  have rootRank := rank_root empty ranked nonempty
  have rootRank' := rank_root empty ranked' nonempty'
  rw [same] at rootRank
  have heights := rank_unique injective rootRank rootRank'
  have lengths : Nat.clog 2 l.length = Nat.clog 2 l'.length := by omega
  by_cases short : l.length ≤ 1
  · -- one leaf each: the roots are the leaves
    have single : l.length = 1 := by have := List.length_pos_iff.mpr nonempty; omega
    have single' : l'.length = 1 := by
      rw [single, Nat.clog_one_right] at lengths
      have := List.length_pos_iff.mpr nonempty'
      by_contra other
      have := Nat.clog_pos Nat.one_lt_two (show 1 < l'.length by omega)
      omega
    obtain ⟨a, rfl⟩ := List.length_eq_one_iff.mp single
    obtain ⟨a', rfl⟩ := List.length_eq_one_iff.mp single'
    rw [root_singleton, root_singleton] at same
    exact Or.inl (same ▸ rfl)
  · have long : 2 ≤ l.length := by omega
    have long' : 2 ≤ l'.length := by
      by_contra short'
      have single' : l'.length = 1 := by have := List.length_pos_iff.mpr nonempty'; omega
      rw [single', Nat.clog_one_right] at lengths
      have := Nat.clog_pos Nat.one_lt_two (show 1 < l.length by omega)
      omega
    rw [root_of_two_le empty long, root_of_two_le empty long'] at same
    have nonemptyUp : pairUp hash l ≠ [] := List.ne_nil_of_length_pos (by simp; omega)
    have nonemptyUp' : pairUp hash l' ≠ [] := List.ne_nil_of_length_pos (by simp; omega)
    have shorter : (pairUp hash l).length < total := by simp only [length_pairUp]; omega
    rcases ih _ shorter (pairUp hash l) rfl (pairUp hash l') (k + 1) (rank_pairUp ranked)
        (rank_pairUp ranked') nonemptyUp nonemptyUp' same with
      parents | ⟨j, equal⟩ | ⟨j, equal⟩
    · rcases eq_or_hasEqualPair_of_pairUp_eq injective parents with rfl | equal | equal
      · exact Or.inl rfl
      · exact Or.inr (Or.inl ⟨0, equal⟩)
      · exact Or.inr (Or.inr ⟨0, equal⟩)
    · exact Or.inr (Or.inl ⟨j + 1, by rwa [level_succ']⟩)
    · exact Or.inr (Or.inr ⟨j + 1, by rwa [level_succ']⟩)

end Collisions

section Duplication

variable {hash}

theorem pairUp_append_getLast {l : List H} (odd : l.length % 2 = 1) :
    pairUp hash (l ++ l.getLast?.toList) = pairUp hash l := by
  induction l using pairUp.induct with
  | case1 => simp at odd
  | case2 a => simp [pairUp]
  | case3 a b rest ih =>
      have oddRest : rest.length % 2 = 1 := by simp only [List.length_cons] at odd; omega
      have nonempty : rest ≠ [] := List.ne_nil_of_length_pos (by omega)
      have last : (a :: b :: rest).getLast? = rest.getLast? := by
        rw [List.getLast?_cons_cons, List.getLast?_cons, List.getLast?_eq_some_getLast nonempty]
        rfl
      rw [last, List.cons_append, List.cons_append, pairUp, pairUp, ih oddRest]

end Duplication

end MerkleTree
