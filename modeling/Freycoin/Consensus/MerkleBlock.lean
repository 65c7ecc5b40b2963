import Freycoin.Library.MerkleTree

/-! `CPartialMerkleTree` of `merkleblock.cpp`: the part of a block's Merkle tree that proves
which of its transactions a filter matched.

Hashes are values of a type `H`, `Hash(left, right)` is `hash` and `uint256()` is `zero`; the
`unsigned int` counts are natural numbers. What the traversals push or update through their
reference arguments is returned. -/

namespace Freycoin.Consensus

def maxBlockWeight : ℕ := 2000000

def witnessScaleFactor : ℕ := 4

/-- 60 is the lower bound for the size of a valid serialized `CTransaction`. -/
def minTransactionWeight : ℕ := witnessScaleFactor * 60

/-- One pass of the loop of `BitsToBytes`: `ret[p / 8] |= bits[p] << (p % 8)`. -/
def orBit (bits : List Bool) (ret : List UInt8) (p : ℕ) : List UInt8 :=
  ret.modify (p / 8) (· ||| (bits.getD p false).toUInt8 <<< UInt8.ofNat (p % 8))

/-- `BitsToBytes`: the bits ORed, one at a time, into a zeroed buffer of whole bytes. -/
def bitsToBytes (bits : List Bool) : List UInt8 :=
  (List.range bits.length).foldl (orBit bits) (List.replicate ((bits.length + 7) / 8) 0)

/-- `BytesToBits`: `ret[p] = (bytes[p / 8] & (1 << (p % 8))) != 0`, eight bits a byte. -/
def bytesToBits (bytes : List UInt8) : List Bool :=
  (List.range (bytes.length * 8)).map fun p => bytes.getD (p / 8) 0 &&& 1 <<< UInt8.ofNat (p % 8) != 0

structure CPartialMerkleTree (H : Type*) where
  nTransactions : ℕ
  vBits : List Bool
  vHash : List H
  fBad : Bool

/-- The number of nodes at a height of the tree over `nTransactions` leaves. -/
def calcTreeWidth (nTransactions height : ℕ) : ℕ := (nTransactions + (1 <<< height) - 1) >>> height

theorem calcTreeWidth_eq (nTransactions height : ℕ) :
    calcTreeWidth nTransactions height = MerkleTree.width nTransactions height := by
  rw [calcTreeWidth, MerkleTree.width, Nat.shiftLeft_eq, Nat.one_mul, Nat.shiftRight_eq_div_pow]

/-- `while (CalcTreeWidth(nHeight) > 1) nHeight++`. -/
def treeHeightLoop (nTransactions nHeight : ℕ) : ℕ :=
  if calcTreeWidth nTransactions nHeight > 1 then treeHeightLoop nTransactions (nHeight + 1)
  else nHeight
termination_by nTransactions - nHeight
decreasing_by
  -- a width above one means more leaves than `2 ^ nHeight`, so more than `nHeight`
  rename_i wide
  rw [calcTreeWidth_eq] at wide
  have many : 2 ^ nHeight < nTransactions :=
    Nat.lt_of_not_le fun few => absurd ((MerkleTree.width_le_one_iff nHeight).mpr few) (by omega)
  have := Nat.lt_two_pow_self (n := nHeight)
  omega

def treeHeight (nTransactions : ℕ) : ℕ := treeHeightLoop nTransactions 0

section Build

variable {H : Type*} (hash : H → H → H) (zero : H)

/-- `CalcHash`: the hash of a node, the txid itself at height 0; a right child past the end of
its level is a copy of the left one. -/
def calcHash (nTransactions : ℕ) (vTxid : List H) : ℕ → ℕ → H
  | 0, pos => vTxid.getD pos zero
  | height + 1, pos =>
    let left := calcHash nTransactions vTxid height (pos * 2)
    let right :=
      if pos * 2 + 1 < calcTreeWidth nTransactions height then
        calcHash nTransactions vTxid height (pos * 2 + 1)
      else left
    hash left right

/-- Whether a node is the parent of at least one matched txid: the loop over
`pos << height ≤ p < (pos + 1) << height` while `p < nTransactions`. -/
def parentOfMatch (nTransactions : ℕ) (vMatch : List Bool) (height pos : ℕ) : Bool :=
  (List.range' (pos <<< height) (min ((pos + 1) <<< height) nTransactions - pos <<< height)).any
    fun p => vMatch.getD p false

/-- `TraverseAndBuild`: the flag bits and hashes it pushes, depth first. A node with nothing
matched below, or a leaf, stores its hash; any other node descends. -/
def traverseAndBuild (nTransactions : ℕ) (vTxid : List H) (vMatch : List Bool) :
    ℕ → ℕ → List Bool × List H
  | 0, pos =>
    ([parentOfMatch nTransactions vMatch 0 pos], [calcHash hash zero nTransactions vTxid 0 pos])
  | height + 1, pos =>
    if parentOfMatch nTransactions vMatch (height + 1) pos = false then
      ([false], [calcHash hash zero nTransactions vTxid (height + 1) pos])
    else
      let left := traverseAndBuild nTransactions vTxid vMatch height (pos * 2)
      let right :=
        if pos * 2 + 1 < calcTreeWidth nTransactions height then
          traverseAndBuild nTransactions vTxid vMatch height (pos * 2 + 1)
        else ([], [])
      (true :: (left.1 ++ right.1), left.2 ++ right.2)

/-- The constructor from a list of txids and the mask that selects some of them. -/
def CPartialMerkleTree.ofTxids (vTxid : List H) (vMatch : List Bool) : CPartialMerkleTree H :=
  let built := traverseAndBuild hash zero vTxid.length vTxid vMatch (treeHeight vTxid.length) 0
  ⟨vTxid.length, built.1, built.2, false⟩

end Build

namespace CPartialMerkleTree

variable {H : Type*}

/-- What `SERIALIZE_METHODS` writes: `nTransactions`, `vHash` and the bytes of `vBits`. -/
def serialize (tree : CPartialMerkleTree H) : ℕ × List H × List UInt8 :=
  (tree.nTransactions, tree.vHash, bitsToBytes tree.vBits)

/-- What `SERIALIZE_METHODS` reads back: the bits of the bytes, and `fBad` cleared. -/
def unserialize : ℕ × List H × List UInt8 → CPartialMerkleTree H
  | (nTransactions, vHash, bytes) => ⟨nTransactions, bytesToBits bytes, vHash, false⟩

end CPartialMerkleTree

/-- The state `TraverseAndExtract` updates: the bits and hashes used, the two output vectors
and `fBad`. -/
structure ExtractState (H : Type*) where
  nBitsUsed : ℕ
  nHashUsed : ℕ
  vMatch : List H
  vnIndex : List ℕ
  fBad : Bool

section Extract

variable {H : Type*} [DecidableEq H] (hash : H → H → H) (zero : H)

/-- The branch of `TraverseAndExtract` that uses the next stored hash, at height 0 or with
nothing matched below; a matched leaf is recorded with its position. -/
def useHash (tree : CPartialMerkleTree H) (height pos : ℕ) (fParentOfMatch : Bool)
    (s : ExtractState H) : H × ExtractState H :=
  if s.nHashUsed ≥ tree.vHash.length then (zero, { s with fBad := true })
  else
    let stored := tree.vHash.getD s.nHashUsed zero
    let s := { s with nHashUsed := s.nHashUsed + 1 }
    if height = 0 ∧ fParentOfMatch = true then
      (stored, { s with vMatch := s.vMatch ++ [stored], vnIndex := s.vnIndex ++ [pos] })
    else (stored, s)

/-- `TraverseAndExtract`: the hash of the node, consuming the bits and hashes that
`TraverseAndBuild` produced; two identical children set `fBad`. -/
def traverseAndExtract (tree : CPartialMerkleTree H) : ℕ → ℕ → ExtractState H → H × ExtractState H
  | height, pos, s =>
    if s.nBitsUsed ≥ tree.vBits.length then (zero, { s with fBad := true })
    else
      let fParentOfMatch := tree.vBits.getD s.nBitsUsed false
      let s := { s with nBitsUsed := s.nBitsUsed + 1 }
      match height with
      | 0 => useHash zero tree 0 pos fParentOfMatch s
      | height + 1 =>
        if fParentOfMatch = false then useHash zero tree (height + 1) pos fParentOfMatch s
        else
          let left := traverseAndExtract tree height (pos * 2) s
          if pos * 2 + 1 < calcTreeWidth tree.nTransactions height then
            let right := traverseAndExtract tree height (pos * 2 + 1) left.2
            (hash left.1 right.1, if right.1 = left.1 then { right.2 with fBad := true } else right.2)
          else (hash left.1 left.1, left.2)

/-- `ExtractMatches(vMatch, vnIndex)`: the Merkle root, or `uint256()` on failure, and the state
after it. `vMatch` is cleared first; `vnIndex` is not. -/
def extractMatches (tree : CPartialMerkleTree H) (vnIndex : List ℕ) : H × ExtractState H :=
  let start : ExtractState H := ⟨0, 0, [], vnIndex, tree.fBad⟩
  if tree.nTransactions = 0 then (zero, start)
  else if tree.nTransactions > maxBlockWeight / minTransactionWeight then (zero, start)
  else if tree.vHash.length > tree.nTransactions then (zero, start)
  else if tree.vBits.length < tree.vHash.length then (zero, start)
  else
    let r := traverseAndExtract hash zero tree (treeHeight tree.nTransactions) 0 start
    if r.2.fBad then (zero, r.2)
    -- all bits consumed, up to the padding of the bytes they were serialized in
    else if (r.2.nBitsUsed + 7) / 8 ≠ (tree.vBits.length + 7) / 8 then (zero, r.2)
    else if r.2.nHashUsed ≠ tree.vHash.length then (zero, r.2)
    else r

end Extract

end Freycoin.Consensus
