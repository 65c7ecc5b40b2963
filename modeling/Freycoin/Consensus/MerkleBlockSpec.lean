import Freycoin.Consensus.MerkleBlock
import Freycoin.Consensus.Merkle
import Mathlib.Data.Nat.Bitwise
import Mathlib.Tactic.IntervalCases
import Mathlib.Tactic.Ring

/-! What `CPartialMerkleTree` is for: serialized and read back, the tree built over a list of
txids and a mask gives, through `ExtractMatches`, the block's Merkle root, the matched txids in
block order and their positions. -/

namespace Freycoin.Consensus

open MerkleTree

section Bits

theorem toNat_toUInt8_shiftLeft (b : Bool) {k : ℕ} (small : k < 8) :
    (b.toUInt8 <<< UInt8.ofNat k).toNat = b.toNat * 2 ^ k := by
  cases b <;> interval_cases k <;> decide

theorem bne_and_shiftLeft (x : UInt8) {k : ℕ} (small : k < 8) :
    (x &&& 1 <<< UInt8.ofNat k != 0) = x.toNat.testBit k := by
  have single : ((1 : UInt8) <<< UInt8.ofNat k).toNat = 2 ^ k := by
    interval_cases k <;> decide
  have masked : (x &&& 1 <<< UInt8.ofNat k).toNat = (x.toNat.testBit k).toNat * 2 ^ k := by
    rw [UInt8.toNat_and, single, Nat.and_two_pow]
  have cleared : x &&& 1 <<< UInt8.ofNat k = 0 ↔ x.toNat.testBit k = false := by
    rw [← UInt8.toNat_inj, masked, UInt8.toNat_zero]
    cases x.toNat.testBit k <;> simp
  rw [Bool.eq_iff_iff, bne_iff_ne, ne_eq, cleared, Bool.not_eq_false]

theorem getD_modify {α : Type*} (l : List α) (i : ℕ) (f : α → α) {j : ℕ} (d : α)
    (inside : j < l.length) :
    (l.modify i f).getD j d = if i = j then f (l.getD j d) else l.getD j d := by
  rw [List.getD_eq_getElem?_getD, List.getElem?_modify, List.getElem?_eq_getElem inside,
    List.getD_eq_getElem?_getD, List.getElem?_eq_getElem inside]
  rfl

theorem testBit_orBit_loop (bits : List Bool) : ∀ m ≤ bits.length,
    ((List.range m).foldl (orBit bits) (List.replicate ((bits.length + 7) / 8) 0)).length =
        (bits.length + 7) / 8 ∧
      ∀ j r, r < 8 →
        (((List.range m).foldl (orBit bits) (List.replicate ((bits.length + 7) / 8) 0)).getD j 0).toNat.testBit r =
          (decide (8 * j + r < m) && bits.getD (8 * j + r) false) := by
  intro m
  induction m with
  | zero =>
      intro _
      refine ⟨by simp, fun j r _ => ?_⟩
      -- no bit has been passed, and the buffer is zeroed
      simp
  | succ m ih =>
      intro passed
      obtain ⟨length, bitsSoFar⟩ := ih (by omega)
      rw [List.range_succ, List.foldl_append, List.foldl_cons, List.foldl_nil, orBit]
      refine ⟨by rw [List.length_modify, length], fun j r small => ?_⟩
      by_cases inside : j < (bits.length + 7) / 8
      · rw [getD_modify _ _ _ _ (by rw [length]; exact inside)]
        by_cases here : m / 8 = j
        · -- the pass ORs bit `m` into bit `m % 8` of this byte
          rw [if_pos here, UInt8.toNat_or, Nat.testBit_or, bitsSoFar j r small,
            toNat_toUInt8_shiftLeft _ (Nat.mod_lt m (by norm_num)), Nat.testBit_mul_two_pow]
          by_cases same : m % 8 = r
          · have last : 8 * j + r = m := by omega
            rw [last, same]
            cases bits.getD m false <;> simp
          · -- another bit of the byte: the pass leaves it
            have noBit : (decide (m % 8 ≤ r) && (bits.getD m false).toNat.testBit (r - m % 8)) = false := by
              by_cases below : m % 8 ≤ r
              · rw [decide_eq_true below, Bool.true_and]
                apply Nat.testBit_lt_two_pow
                exact lt_of_le_of_lt (Bool.toNat_le _) (Nat.one_lt_two_pow (by omega))
              · rw [decide_eq_false below, Bool.false_and]
            rw [noBit, Bool.or_false]
            congr 1
            simp only [decide_eq_decide]
            omega
        · rw [if_neg here, bitsSoFar j r small]
          have other : 8 * j + r ≠ m := by omega
          congr 1
          simp only [decide_eq_decide]
          omega
      · have outside : ((List.range m).foldl (orBit bits)
            (List.replicate ((bits.length + 7) / 8) 0)).length ≤ j := by omega
        rw [List.getD_eq_default _ _ (by rw [List.length_modify]; exact outside)]
        have past : bits.length ≤ 8 * j + r := by omega
        simp
        omega

theorem testBit_bitsToBytes (bits : List Bool) (j : ℕ) {r : ℕ} (small : r < 8) :
    ((bitsToBytes bits).getD j 0).toNat.testBit r = bits.getD (8 * j + r) false := by
  rw [bitsToBytes, (testBit_orBit_loop bits bits.length le_rfl).2 j r small]
  by_cases inside : 8 * j + r < bits.length
  · rw [decide_eq_true inside, Bool.true_and]
  · rw [decide_eq_false inside, Bool.false_and, List.getD_eq_default _ _ (by omega)]

theorem length_bitsToBytes (bits : List Bool) : (bitsToBytes bits).length = (bits.length + 7) / 8 :=
  (testBit_orBit_loop bits bits.length le_rfl).1

theorem bytesToBits_bitsToBytes (bits : List Bool) :
    bytesToBits (bitsToBytes bits) =
      bits ++ List.replicate ((bits.length + 7) / 8 * 8 - bits.length) false := by
  have whole : bits.length ≤ (bits.length + 7) / 8 * 8 := by omega
  apply List.ext_getElem
  · rw [bytesToBits, List.length_map, List.length_range, length_bitsToBytes, List.length_append,
      List.length_replicate]
    omega
  · intro p inside _
    simp only [bytesToBits, List.getElem_map, List.getElem_range]
    rw [bne_and_shiftLeft _ (Nat.mod_lt p (by norm_num)),
      testBit_bitsToBytes _ _ (Nat.mod_lt p (by norm_num)), Nat.div_add_mod]
    by_cases early : p < bits.length
    · rw [List.getElem_append_left early, List.getD_eq_getElem _ _ early]
    · rw [List.getElem_append_right (by omega), List.getElem_replicate,
        List.getD_eq_default _ _ (by omega)]

end Bits

section Leaves

/-- The matched positions among the leaves under a node, in increasing order. -/
def matchedIndices (nTransactions : ℕ) (vMatch : List Bool) (height pos : ℕ) : List ℕ :=
  (List.range' (pos * 2 ^ height) (min ((pos + 1) * 2 ^ height) nTransactions - pos * 2 ^ height)).filter
    fun p => vMatch.getD p false

theorem parentOfMatch_eq_false_iff (nTransactions : ℕ) (vMatch : List Bool) (height pos : ℕ) :
    parentOfMatch nTransactions vMatch height pos = false ↔
      matchedIndices nTransactions vMatch height pos = [] := by
  rw [parentOfMatch, matchedIndices, List.any_eq_false, List.filter_eq_nil_iff, Nat.shiftLeft_eq,
    Nat.shiftLeft_eq]

theorem range'_min_append {a b c n : ℕ} (ab : a ≤ b) (bc : b ≤ c) :
    List.range' a (min b n - a) ++ List.range' b (min c n - b) = List.range' a (min c n - a) := by
  by_cases inside : b ≤ n
  · have split : List.range' a (b - a) ++ List.range' (a + 1 * (b - a)) (min c n - b) =
        List.range' a (b - a + (min c n - b)) := List.range'_append
    rw [show a + 1 * (b - a) = b by omega, show b - a + (min c n - b) = min c n - a by omega] at split
    rw [min_eq_left inside, split]
  · rw [min_eq_right (by omega), min_eq_right (by omega : n ≤ c),
      Nat.sub_eq_zero_of_le (show n ≤ b by omega), List.range'_zero, List.append_nil]

theorem matchedIndices_succ (nTransactions : ℕ) (vMatch : List Bool) (height pos : ℕ) :
    matchedIndices nTransactions vMatch (height + 1) pos =
      matchedIndices nTransactions vMatch height (pos * 2) ++
        matchedIndices nTransactions vMatch height (pos * 2 + 1) := by
  have start : pos * 2 ^ (height + 1) = pos * 2 * 2 ^ height := by ring
  have stop : (pos + 1) * 2 ^ (height + 1) = (pos * 2 + 1 + 1) * 2 ^ height := by ring
  rw [matchedIndices, matchedIndices, matchedIndices, ← List.filter_append, start, stop,
    range'_min_append (Nat.mul_le_mul_right _ (by omega)) (Nat.mul_le_mul_right _ (by omega))]

theorem matchedIndices_of_width_le {nTransactions height pos : ℕ} (vMatch : List Bool)
    (outside : width nTransactions height ≤ pos) : matchedIndices nTransactions vMatch height pos = [] := by
  have empty : nTransactions ≤ pos * 2 ^ height :=
    (le_width_mul nTransactions height).trans (Nat.mul_le_mul_right _ outside)
  rw [matchedIndices, Nat.sub_eq_zero_of_le (by omega), List.range'_zero, List.filter_nil]

theorem matchedIndices_zero {nTransactions pos : ℕ} (vMatch : List Bool) (below : pos < nTransactions) :
    matchedIndices nTransactions vMatch 0 pos = if vMatch.getD pos false then [pos] else [] := by
  rw [matchedIndices, pow_zero, Nat.mul_one, Nat.mul_one, min_eq_left (by omega),
    Nat.add_sub_cancel_left, List.range'_one, List.filter_cons, List.filter_nil]

theorem matchedIndices_top {nTransactions height : ℕ} (vMatch : List Bool)
    (tall : nTransactions ≤ 2 ^ height) :
    matchedIndices nTransactions vMatch height 0 = (List.range nTransactions).filter fun p => vMatch.getD p false := by
  rw [matchedIndices, Nat.zero_mul, Nat.zero_add, Nat.one_mul, min_eq_right tall, Nat.sub_zero,
    List.range_eq_range']

end Leaves

section Build

variable {H : Type*} (hash : H → H → H) (zero : H) (vTxid : List H) (vMatch : List Bool)

theorem calcHash_eq_node : ∀ height pos,
    calcHash hash zero vTxid.length vTxid height pos = node hash vTxid zero height pos := by
  intro height
  induction height with
  | zero => intro pos; rfl
  | succ height ih =>
      intro pos
      simp only [calcHash, node, calcTreeWidth_eq, ih, Nat.mul_comm pos 2]
      split <;> rfl

theorem treeHeightLoop_eq (nTransactions : ℕ) : ∀ gap nHeight, nHeight + gap = Nat.clog 2 nTransactions →
    treeHeightLoop nTransactions nHeight = Nat.clog 2 nTransactions := by
  intro gap
  induction gap with
  | zero =>
      intro nHeight top
      have narrow := (width_le_one_iff_clog_le (n := nTransactions) nHeight).mpr (by omega)
      rw [treeHeightLoop, if_neg (by rw [calcTreeWidth_eq]; omega)]
      omega
  | succ gap ih =>
      intro nHeight below
      have wide := (width_le_one_iff_clog_le (n := nTransactions) nHeight).not.mpr (by omega)
      rw [treeHeightLoop, if_pos (by rw [calcTreeWidth_eq]; omega), ih (nHeight + 1) (by omega)]

theorem treeHeight_eq (nTransactions : ℕ) : treeHeight nTransactions = Nat.clog 2 nTransactions :=
  treeHeightLoop_eq nTransactions _ 0 (Nat.zero_add _)

theorem parentOfMatch_zero {pos : ℕ} (below : pos < vTxid.length) :
    parentOfMatch vTxid.length vMatch 0 pos = vMatch.getD pos false := by
  cases matched : vMatch.getD pos false
  · rw [parentOfMatch_eq_false_iff, matchedIndices_zero vMatch below, matched]
    rfl
  · rw [← Bool.not_eq_false, parentOfMatch_eq_false_iff, matchedIndices_zero vMatch below, matched]
    simp

theorem traverseAndBuild_of_not_parent {height pos : ℕ}
    (notParent : parentOfMatch vTxid.length vMatch (height + 1) pos = false) :
    traverseAndBuild hash zero vTxid.length vTxid vMatch (height + 1) pos =
      ([false], [node hash vTxid zero (height + 1) pos]) := by
  rw [traverseAndBuild, if_pos notParent, calcHash_eq_node]

theorem traverseAndBuild_of_parent {height pos : ℕ}
    (parent : parentOfMatch vTxid.length vMatch (height + 1) pos = true) :
    traverseAndBuild hash zero vTxid.length vTxid vMatch (height + 1) pos =
      (true :: ((traverseAndBuild hash zero vTxid.length vTxid vMatch height (pos * 2)).1 ++
          (if pos * 2 + 1 < width vTxid.length height then
            traverseAndBuild hash zero vTxid.length vTxid vMatch height (pos * 2 + 1) else ([], [])).1),
        (traverseAndBuild hash zero vTxid.length vTxid vMatch height (pos * 2)).2 ++
          (if pos * 2 + 1 < width vTxid.length height then
            traverseAndBuild hash zero vTxid.length vTxid vMatch height (pos * 2 + 1) else ([], [])).2) := by
  rw [traverseAndBuild, if_neg (by rw [parent]; decide), calcTreeWidth_eq]

theorem length_hashes_le_bits : ∀ height pos,
    (traverseAndBuild hash zero vTxid.length vTxid vMatch height pos).2.length ≤
      (traverseAndBuild hash zero vTxid.length vTxid vMatch height pos).1.length := by
  intro height
  induction height with
  | zero => intro pos; simp [traverseAndBuild]
  | succ height ih =>
      intro pos
      rw [traverseAndBuild]
      split
      · simp
      · have left := ih (pos * 2)
        split
        · have right := ih (pos * 2 + 1)
          simp only [List.length_cons, List.length_append]
          omega
        · simp only [List.length_cons, List.length_append, List.length_nil]
          omega

theorem length_hashes_le_leaves : ∀ height pos, pos < width vTxid.length height →
    (traverseAndBuild hash zero vTxid.length vTxid vMatch height pos).2.length ≤
      min ((pos + 1) * 2 ^ height) vTxid.length - pos * 2 ^ height := by
  intro height
  induction height with
  | zero =>
      intro pos inside
      rw [width_zero] at inside
      simp [traverseAndBuild]
      omega
  | succ height ih =>
      intro pos inside
      have first := lt_width_iff.mp inside
      have start : pos * 2 ^ (height + 1) = pos * 2 * 2 ^ height := by ring
      have middle : (pos * 2 + 1) * 2 ^ height = pos * 2 * 2 ^ height + 2 ^ height := by ring
      have stop : (pos + 1) * 2 ^ (height + 1) = pos * 2 * 2 ^ height + 2 ^ height + 2 ^ height := by ring
      rw [traverseAndBuild, start, stop]
      rw [start] at first
      split
      · simp only [List.length_singleton]
        have : 0 < 2 ^ height := Nat.two_pow_pos height
        omega
      · have left := ih (pos * 2) (lt_width_iff.mpr (by omega))
        rw [middle] at left
        split
        · rename_i present
          rw [calcTreeWidth_eq] at present
          have right := ih (pos * 2 + 1) present
          rw [middle, show (pos * 2 + 1 + 1) * 2 ^ height =
            pos * 2 * 2 ^ height + 2 ^ height + 2 ^ height by ring] at right
          dsimp only
          rw [List.length_append]
          omega
        · dsimp only
          rw [List.append_nil]
          omega

end Build

section Extract

variable {H : Type*} [DecidableEq H] (hash : H → H → H) (zero : H) (vTxid : List H)
  (vMatch : List Bool)

theorem getD_append_cons {α : Type*} (before : List α) (x : α) (rest : List α) (d : α) :
    (before ++ x :: rest).getD before.length d = x := by
  rw [List.getD_append_right _ _ _ _ le_rfl, Nat.sub_self, List.getD_cons_zero]

omit [DecidableEq H] in
theorem useHash_eq (tree : CPartialMerkleTree H) {height pos : ℕ} {fParentOfMatch : Bool}
    {s : ExtractState H} {before after : List H} {stored : H}
    (hashes : tree.vHash = before ++ stored :: after) (used : s.nHashUsed = before.length) :
    useHash zero tree height pos fParentOfMatch s =
      (stored, if height = 0 ∧ fParentOfMatch = true then
        { s with
          nHashUsed := s.nHashUsed + 1
          vMatch := s.vMatch ++ [stored]
          vnIndex := s.vnIndex ++ [pos] }
        else { s with nHashUsed := s.nHashUsed + 1 }) := by
  have inside : ¬s.nHashUsed ≥ tree.vHash.length := by
    rw [hashes, used, List.length_append, List.length_cons]
    omega
  rw [useHash, if_neg inside]
  simp only [hashes, used, getD_append_cons]
  split <;> rfl

theorem traverseAndExtract_traverseAndBuild (tree : CPartialMerkleTree H)
    (count : tree.nTransactions = vTxid.length)
    (distinct : ∀ k i, 2 * i + 1 < width vTxid.length k →
      node hash vTxid zero k (2 * i) ≠ node hash vTxid zero k (2 * i + 1)) :
    ∀ height pos (s : ExtractState H) (before after : List Bool) (hashesBefore hashesAfter : List H),
      pos < width vTxid.length height →
      tree.vBits = before ++ (traverseAndBuild hash zero vTxid.length vTxid vMatch height pos).1 ++ after →
      tree.vHash = hashesBefore ++ (traverseAndBuild hash zero vTxid.length vTxid vMatch height pos).2 ++
        hashesAfter →
      s.nBitsUsed = before.length → s.nHashUsed = hashesBefore.length →
      traverseAndExtract hash zero tree height pos s =
        (node hash vTxid zero height pos,
          { s with
            nBitsUsed := s.nBitsUsed + (traverseAndBuild hash zero vTxid.length vTxid vMatch height pos).1.length
            nHashUsed := s.nHashUsed + (traverseAndBuild hash zero vTxid.length vTxid vMatch height pos).2.length
            vMatch := s.vMatch ++ (matchedIndices vTxid.length vMatch height pos).map (vTxid.getD · zero)
            vnIndex := s.vnIndex ++ matchedIndices vTxid.length vMatch height pos }) := by
  intro height
  induction height with
  | zero =>
      intro pos s before after hashesBefore hashesAfter inside bits hashes bitsUsed hashesUsed
      rw [width_zero] at inside
      -- a leaf: its flag is whether it is matched, and it stores its txid
      simp only [traverseAndBuild, calcHash, parentOfMatch_zero vTxid vMatch inside] at bits hashes ⊢
      rw [List.append_assoc, List.singleton_append] at bits
      rw [List.append_assoc, List.singleton_append] at hashes
      have bit : tree.vBits.getD s.nBitsUsed false = vMatch.getD pos false := by
        rw [bits, bitsUsed, getD_append_cons]
      rw [traverseAndExtract, if_neg (by rw [bits, bitsUsed]; simp)]
      dsimp only
      rw [bit, useHash_eq zero tree (s := { s with nBitsUsed := s.nBitsUsed + 1 }) hashes hashesUsed,
        matchedIndices_zero vMatch inside]
      cases vMatch.getD pos false <;> simp [node]
  | succ height ih =>
      intro pos s before after hashesBefore hashesAfter inside bits hashes bitsUsed hashesUsed
      cases parent : parentOfMatch vTxid.length vMatch (height + 1) pos
      · -- nothing matched below: the flag is false and the node stores its hash
        rw [traverseAndBuild_of_not_parent hash zero vTxid vMatch parent] at bits hashes ⊢
        rw [List.append_assoc, List.singleton_append] at bits hashes
        have bit : tree.vBits.getD s.nBitsUsed false = false := by
          rw [bits, bitsUsed, getD_append_cons]
        rw [traverseAndExtract, if_neg (by rw [bits, bitsUsed]; simp)]
        dsimp only
        rw [bit, if_pos rfl, useHash_eq zero tree (s := { s with nBitsUsed := s.nBitsUsed + 1 }) hashes
          hashesUsed, (parentOfMatch_eq_false_iff _ _ _ _).mp parent]
        simp
      -- a match below: the flag is true, then what the left child and the right one store
      have leftInside : pos * 2 < width vTxid.length height := by
        rw [width_succ] at inside
        omega
      rw [traverseAndBuild_of_parent hash zero vTxid vMatch parent] at bits hashes ⊢
      rw [List.append_assoc, List.cons_append] at bits
      have bit : tree.vBits.getD s.nBitsUsed false = true := by
        rw [bits, bitsUsed, getD_append_cons]
      rw [traverseAndExtract, if_neg (by rw [bits, bitsUsed]; simp)]
      dsimp only
      rw [bit, if_neg (by decide), calcTreeWidth_eq, count]
      by_cases present : pos * 2 + 1 < width vTxid.length height
      · rw [if_pos present] at bits hashes ⊢
        rw [ih (pos * 2) { s with nBitsUsed := s.nBitsUsed + 1 } (before ++ [true])
          ((traverseAndBuild hash zero vTxid.length vTxid vMatch height (pos * 2 + 1)).1 ++ after)
          hashesBefore ((traverseAndBuild hash zero vTxid.length vTxid vMatch height (pos * 2 + 1)).2 ++ hashesAfter)
          leftInside (by rw [bits]; simp) (by rw [hashes]; simp) (by simp [bitsUsed]) hashesUsed]
        dsimp only
        rw [if_pos present, ih (pos * 2 + 1) _
          (before ++ true :: (traverseAndBuild hash zero vTxid.length vTxid vMatch height (pos * 2)).1) after
          (hashesBefore ++ (traverseAndBuild hash zero vTxid.length vTxid vMatch height (pos * 2)).2)
          hashesAfter present]
        · -- two different children, so no `fBad`
          have apart : node hash vTxid zero height (pos * 2 + 1) ≠ node hash vTxid zero height (pos * 2) := by
            rw [Nat.mul_comm pos 2]
            exact (distinct height pos (by omega)).symm
          rw [if_neg apart, node, if_pos (by omega), Nat.mul_comm 2 pos, matchedIndices_succ]
          simp only [List.length_cons, List.length_append, List.map_append, List.append_assoc,
            ExtractState.mk.injEq, Prod.mk.injEq, true_and, and_true]
          omega
        · rw [bits]
          simp
        · rw [hashes]
          simp
        · simp [bitsUsed]
          omega
        · simp [hashesUsed]
      · -- no right child: the left one is hashed with itself
        rw [if_neg present] at bits hashes ⊢
        rw [ih (pos * 2) { s with nBitsUsed := s.nBitsUsed + 1 } (before ++ [true]) after hashesBefore
          hashesAfter leftInside (by rw [bits]; simp) (by rw [hashes]; simp) (by simp [bitsUsed]) hashesUsed]
        have outside : width vTxid.length height ≤ pos * 2 + 1 := by omega
        have noRight : ¬2 * pos + 1 < width vTxid.length height := by omega
        dsimp only
        rw [if_neg present, node, if_neg noRight, Nat.mul_comm 2 pos, matchedIndices_succ,
          matchedIndices_of_width_le vMatch outside]
        simp only [List.length_cons, List.append_nil, ExtractState.mk.injEq, Prod.mk.injEq, true_and,
          and_true]
        omega

theorem extractMatches_unserialize_ofTxids (nonempty : vTxid ≠ [])
    (few : vTxid.length ≤ maxBlockWeight / minTransactionWeight)
    (distinct : ∀ k i, 2 * i + 1 < width vTxid.length k →
      node hash vTxid zero k (2 * i) ≠ node hash vTxid zero k (2 * i + 1))
    (vnIndex : List ℕ) :
    extractMatches hash zero
        (CPartialMerkleTree.unserialize (CPartialMerkleTree.ofTxids hash zero vTxid vMatch).serialize)
        vnIndex =
      (node hash vTxid zero (Nat.clog 2 vTxid.length) 0,
        { nBitsUsed := (traverseAndBuild hash zero vTxid.length vTxid vMatch (Nat.clog 2 vTxid.length) 0).1.length
          nHashUsed := (traverseAndBuild hash zero vTxid.length vTxid vMatch (Nat.clog 2 vTxid.length) 0).2.length
          vMatch := (matchedIndices vTxid.length vMatch (Nat.clog 2 vTxid.length) 0).map (vTxid.getD · zero)
          vnIndex := vnIndex ++ matchedIndices vTxid.length vMatch (Nat.clog 2 vTxid.length) 0
          fBad := false }) := by
  have positive : 0 < vTxid.length := List.length_pos_iff.mpr nonempty
  have top : 0 < width vTxid.length (Nat.clog 2 vTxid.length) :=
    one_le_width _ positive
  have fewHashes := length_hashes_le_leaves hash zero vTxid vMatch _ 0 top
  have moreBits := length_hashes_le_bits hash zero vTxid vMatch (Nat.clog 2 vTxid.length) 0
  rw [Nat.zero_mul, Nat.zero_add, Nat.one_mul, Nat.sub_zero] at fewHashes
  simp only [CPartialMerkleTree.ofTxids, CPartialMerkleTree.serialize, CPartialMerkleTree.unserialize,
    bytesToBits_bitsToBytes, treeHeight_eq]
  -- the traversal from the root, the bits followed by the padding of their last byte
  rw [extractMatches]
  dsimp only
  rw [if_neg (by omega), if_neg (by omega), if_neg (by simp; omega), if_neg (by simp; omega),
    treeHeight_eq, traverseAndExtract_traverseAndBuild hash zero vTxid vMatch _ rfl distinct _ 0 _ []
      (List.replicate (((traverseAndBuild hash zero vTxid.length vTxid vMatch (Nat.clog 2 vTxid.length) 0).1.length
        + 7) / 8 * 8 - (traverseAndBuild hash zero vTxid.length vTxid vMatch (Nat.clog 2 vTxid.length) 0).1.length)
        false) [] [] top (by simp) (by simp) rfl rfl]
  dsimp only
  rw [if_neg Bool.false_ne_true, if_neg (by simp; omega), if_neg (by simp)]
  simp

end Extract

/-- Partial Merkle trees round-trip: the tree over a non-empty list of txids, small enough for
`ExtractMatches`, in which no two siblings have one hash, serialized and read back, gives the
block's Merkle root and the matched txids in block order, and appends their positions to what the
caller's `vnIndex` held. -/
theorem partialMerkleTree_round_trip {H : Type*} [DecidableEq H] (hash : H → H → H) (zero : H)
    (T : List H) (M : List Bool) (nonempty : T ≠ [])
    (few : T.length ≤ maxBlockWeight / minTransactionWeight)
    (distinct : ∀ k i, 2 * i + 1 < width T.length k →
      node hash T zero k (2 * i) ≠ node hash T zero k (2 * i + 1)) (vnIndex : List ℕ) :
    ∃ after : ExtractState H,
      extractMatches hash zero (CPartialMerkleTree.unserialize (CPartialMerkleTree.ofTxids hash zero T M).serialize)
          vnIndex = ((computeMerkleRoot hash zero T).1, after) ∧
        after.vMatch = ((List.range T.length).filter fun i => M.getD i false).map (T.getD · zero) ∧
        after.vnIndex = vnIndex ++ (List.range T.length).filter fun i => M.getD i false := by
  have all := matchedIndices_top M (Nat.le_pow_clog Nat.one_lt_two T.length)
  rw [extractMatches_unserialize_ofTxids hash zero T M nonempty few distinct vnIndex,
    computeMerkleRoot_fst zero nonempty, root_eq_node zero nonempty, all]
  exact ⟨_, rfl, rfl, rfl⟩

theorem partialMerkleTree_round_trip_on_five :
    ∃ after : ExtractState ℕ,
      extractMatches (fun a b => 7 * a + 13 * b + 1) 0
          (CPartialMerkleTree.unserialize (CPartialMerkleTree.ofTxids (fun a b => 7 * a + 13 * b + 1) 0
            [11, 22, 33, 44, 55] [false, true, false, false, true]).serialize) [] =
        ((computeMerkleRoot (fun a b => 7 * a + 13 * b + 1) 0 [11, 22, 33, 44, 55]).1, after) ∧
      after.vMatch = ((List.range 5).filter fun i => [false, true, false, false, true].getD i false).map
        ([11, 22, 33, 44, 55].getD · 0) ∧
      after.vnIndex = [] ++ (List.range 5).filter fun i => [false, true, false, false, true].getD i false := by
  refine partialMerkleTree_round_trip _ 0 [11, 22, 33, 44, 55] [false, true, false, false, true] (by simp)
    (by norm_num [maxBlockWeight, minTransactionWeight, witnessScaleFactor]) ?_ []
  -- the tree over five leaves has height three; below it every level has distinct siblings
  intro k i inside
  change 2 * i + 1 < width 5 k at inside
  have low : k < 3 := by
    by_contra high
    have narrow := (width_le_one_iff (n := 5) k).mpr
      (le_trans (by norm_num) (Nat.pow_le_pow_right (by norm_num) (not_lt.mp high)))
    omega
  interval_cases k
  · have few : i < 2 := by
      change 2 * i + 1 < 5 at inside
      omega
    interval_cases i <;> decide
  · have few : i < 1 := by
      change 2 * i + 1 < 3 at inside
      omega
    interval_cases i
    decide
  · change 2 * i + 1 < 2 at inside
    have first : i = 0 := by omega
    subst first
    decide

/-- `ExtractMatches` only appends to `vnIndex`: a caller that passes a non-empty vector gets
back more than the positions of the matches. -/
theorem extractMatches_keeps_caller_indices :
    (extractMatches (fun a b => 7 * a + 13 * b + 1) 0
        (CPartialMerkleTree.unserialize (CPartialMerkleTree.ofTxids (fun a b => 7 * a + 13 * b + 1) 0
          [11, 22] [true, false]).serialize) [7]).2.vnIndex = [7, 0] ∧
      [7, 0] ≠ (List.range 2).filter fun i => [true, false].getD i false := by
  decide +kernel

end Freycoin.Consensus
