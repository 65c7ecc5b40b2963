import Freycoin.Consensus.Merkle

/-! `MerkleComputation` of `consensus/merkle.cpp`: the constant-space root and path calculator.

`count` is a `uint32_t`, added modulo `2 ^ 32`; a shift by `level ≥ 32` is undefined behaviour,
returned as `none`. The three output pointers only decide what is written, so all three results
are returned. -/

namespace Freycoin.Consensus

variable {H : Type*} [DecidableEq H] (hash : H → H → H)

/-- The variables of `MerkleComputation`. -/
structure MerkleState (H : Type*) where
  count : ℕ
  inner : ℕ → H
  matchlevel : ℤ
  mutated : Bool
  path : List H
  level : ℕ
  h : H
  matchh : Bool

/-- `for (; !(count & (1 << level)); level++) body` and `while (!(count & (1 << level)))
{ body; level++; }`: run `body` and go one level up until bit `level` of `count` is set. -/
def whileBitClear (body : MerkleState H → MerkleState H) (s : MerkleState H) :
    Option (MerkleState H) :=
  if s.level < 32 then
    if s.count.testBit s.level then some s
    else whileBitClear body { body s with level := s.level + 1 }
  else none
termination_by 32 - s.level

/-- `if (matchh) path->push_back(inner[level]); else if (matchlevel == level)
{ path->push_back(h); matchh = true; }` -/
def recordSibling (s : MerkleState H) : MerkleState H :=
  if s.matchh then { s with path := s.path ++ [s.inner s.level] }
  else if s.matchlevel = s.level then { s with path := s.path ++ [s.h], matchh := true }
  else s

/-- The body of the carry loop of the leaf phase: the path, `mutated |= (inner[level] == h)`,
`h = Hash(inner[level], h)`. -/
def leafStep (s : MerkleState H) : MerkleState H :=
  let s := recordSibling s
  { s with mutated := s.mutated || s.inner s.level == s.h, h := hash (s.inner s.level) s.h }

/-- The body of the carry loop of the sweep: the path and `h = Hash(inner[level], h)`. -/
def sweepStep (s : MerkleState H) : MerkleState H :=
  let s := recordSibling s
  { s with h := hash (s.inner s.level) s.h }

/-- One pass of `while (count < leaves.size())`: read the leaf, carry it up, store it. -/
def processLeaf (leafPos : ℕ) (s : MerkleState H) (leaf : H) : Option (MerkleState H) :=
  (whileBitClear (leafStep hash)
      { s with
        h := leaf
        matchh := (s.count == leafPos)
        count := (s.count + 1) % 2 ^ 32
        level := 0 }).map fun t =>
    { t with
      inner := Function.update t.inner t.level t.h
      matchlevel := if t.matchh then t.level else t.matchlevel }

/-- The leaf phase over the leaves in order; `leaves[count]` is the next one. -/
def processLeaves (leafPos : ℕ) : MerkleState H → List H → Option (MerkleState H)
  | s, [] => some s
  | s, leaf :: rest => (processLeaf hash leafPos s leaf).bind fun t => processLeaves leafPos t rest

omit [DecidableEq H] in
theorem whileBitClear_level (body : MerkleState H → MerkleState H) :
    ∀ (s r : MerkleState H), whileBitClear body s = some r → s.level ≤ r.level := by
  intro s
  induction h : 32 - s.level using Nat.strong_induction_on generalizing s with
  | _ k ih => ?_
  intro r finished
  rw [whileBitClear] at finished
  split_ifs at finished with inside set
  · cases finished
    exact le_rfl
  · have further := ih (32 - (s.level + 1)) (by omega) { body s with level := s.level + 1 } rfl r
      finished
    simp only at further
    omega

/-- The sweep `while (count != (1 << level))` along the right edge: `h` is paired with
itself, `count` is raised as if its twin had been there, and the result is carried up. -/
def sweep (s : MerkleState H) : Option (MerkleState H) :=
  if s.level < 32 then
    if s.count = 2 ^ s.level then some s
    else
      match _carried : whileBitClear (sweepStep hash)
          { (if s.matchh then { s with path := s.path ++ [s.h] } else s) with
            h := hash s.h s.h
            count := (s.count + 2 ^ s.level) % 2 ^ 32
            level := s.level + 1 } with
      | none => none
      | some t => sweep t
  else none
termination_by 32 - s.level
decreasing_by
  have := whileBitClear_level _ _ _ _carried
  simp only at this
  omega

/-- `MerkleComputation(leaves, &root, &mutated, leaf_pos, &path)`: the root, `mutated` and
the path of leaf `leafPos`. -/
def merkleComputation (zero : H) (leaves : List H) (leafPos : ℕ) :
    Option (H × Bool × List H) :=
  if leaves.length = 0 then some (zero, false, [])
  else
    (processLeaves hash leafPos ⟨0, fun _ => zero, -1, false, [], 0, zero, false⟩ leaves).bind
      fun s => (whileBitClear id { s with level := 0 }).bind
        fun s => (sweep hash { s with h := s.inner s.level, matchh := s.matchlevel = s.level }).map
          fun s => (s.h, s.mutated, s.path)

/-- `ComputeMerklePath(leaves, position)`. -/
def computeMerklePath (zero : H) (leaves : List H) (position : ℕ) : Option (List H) :=
  (merkleComputation hash zero leaves position).map fun result => result.2.2

/-- `TransactionMerklePath(block, position)`, over the block's transaction ids. -/
def transactionMerklePath (zero : H) (txids : List H) (position : ℕ) : Option (List H) :=
  computeMerklePath hash zero txids position

/-- `ComputeMerkleRootFromPath` of the merkle fuzz test: fold the path from the leaf at
`position`; `none` where it throws `std::out_of_range`. -/
def computeMerkleRootFromPath (zero : H) (txids : List H) (position : ℕ) (merklePath : List H) :
    Option H :=
  if txids.length ≤ position then none
  else some (MerkleTree.foldPath hash (txids.getD position zero) position merklePath)

end Freycoin.Consensus
