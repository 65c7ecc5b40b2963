import Freycoin.Cluster.DepGraph

/-! `PostLinearize` of `cluster_linearize.h`.

The vector `entries` is one function of the index per field, so that `entries[i].f = v` is
`Function.update` of `f` at `i`; the entry of transaction `t` is `entries[t + 1]`. -/

namespace Freycoin.Cluster

namespace PostLinearize

/-- The vector of `TxEntry`, by field: `prev_tx`, and for tail transactions `first_tx`,
`prev_group`, `group`, `deps` and `feerate`. -/
structure Entries where
  prevTx : ℕ → ℕ
  firstTx : ℕ → ℕ
  prevGroup : ℕ → ℕ
  group : ℕ → Finset ℕ
  deps : ℕ → Finset ℕ
  feerate : ℕ → FeeFrac

/-- The vector as constructed, every entry value-initialized. -/
def Entries.init : Entries := ⟨fun _ => 0, fun _ => 0, fun _ => 0, fun _ => ∅, fun _ => ∅, fun _ => default⟩

/-- `SENTINEL`, the index of the sentinel in `entries`. -/
def sentinel : ℕ := 0

/-- `NO_PREV_TX`, the `prev_tx` of the first transaction of a group. -/
def noPrevTx : ℕ := 0

variable {P : Type} (arith : FeeFrac.Arith P) (depgraph : DepGraph)

/-- The start of the body of the `for` loop: a new group holding just `idx`, inserted at the back
of the groups list. In even passes the meanings of parent and child, and of high and low feerate,
are swapped: the deps are the descendants, and the fee is negated. -/
def newGroup (rev : Bool) (entries : Entries) (idx : ℕ) : Entries :=
  let curGroup := idx + 1
  let feerate := depgraph.feeRate idx
  let entries := { entries with
    group := Function.update entries.group curGroup {idx}
    deps := Function.update entries.deps curGroup
      (if rev then depgraph.descendants idx else depgraph.ancestors idx)
    feerate := Function.update entries.feerate curGroup
      (if rev then ⟨-feerate.fee, feerate.size⟩ else feerate)
    prevTx := Function.update entries.prevTx curGroup noPrevTx
    firstTx := Function.update entries.firstTx curGroup curGroup
    prevGroup := Function.update entries.prevGroup curGroup (entries.prevGroup sentinel) }
  { entries with prevGroup := Function.update entries.prevGroup sentinel curGroup }

/-- The merge branch of the cycle: `prev_group` is merged into `cur_group`. Returns the entries
and the new `prev_group`; every statement reads the entries as the ones before it left them. -/
def mergeGroups (entries : Entries) (curGroup prevGroup : ℕ) : Entries × ℕ :=
  let entries := { entries with
    group := Function.update entries.group curGroup (entries.group curGroup ∪ entries.group prevGroup) }
  let entries := { entries with
    deps := Function.update entries.deps curGroup (entries.deps curGroup ∪ entries.deps prevGroup) }
  let entries := { entries with
    feerate := Function.update entries.feerate curGroup (entries.feerate curGroup + entries.feerate prevGroup) }
  -- Make the first of the current group point to the tail of the previous group.
  let entries := { entries with
    prevTx := Function.update entries.prevTx (entries.firstTx curGroup) prevGroup }
  -- The first of the previous group becomes the first of the newly-merged group.
  let entries := { entries with
    firstTx := Function.update entries.firstTx curGroup (entries.firstTx prevGroup) }
  -- The previous group becomes whatever group was before the former one.
  let prevGroup := entries.prevGroup prevGroup
  ({ entries with prevGroup := Function.update entries.prevGroup curGroup prevGroup }, prevGroup)

/-- The swap branch: with `PP, P, C, N` the old preprev, prev, cur and next groups, the layout
becomes `PP, C, P, N`. -/
def swapGroups (entries : Entries) (curGroup nextGroup prevGroup : ℕ) : Entries :=
  let preprevGroup := entries.prevGroup prevGroup
  let prevGroups := Function.update entries.prevGroup nextGroup prevGroup
  let prevGroups := Function.update prevGroups prevGroup curGroup
  { entries with prevGroup := Function.update prevGroups curGroup preprevGroup }

/-- The merge/swap cycle, for at most `fuel` passes: while the current group has a higher feerate
than the one before it, it absorbs that group if it depends on it, and swaps with it otherwise.
`curGroup`, `nextGroup` and `prevGroup` are the tails of three consecutive groups. -/
def mergeOrSwap : ℕ → Entries → ℕ → ℕ → ℕ → Entries
  | 0, entries, _, _, _ => entries
  | fuel + 1, entries, curGroup, nextGroup, prevGroup =>
    if FeeFrac.higherFeerate arith (entries.feerate curGroup) (entries.feerate prevGroup) then
      if (entries.deps curGroup ∩ entries.group prevGroup).Nonempty then
        let merged := mergeGroups entries curGroup prevGroup
        mergeOrSwap fuel merged.1 curGroup nextGroup merged.2
      else
        mergeOrSwap fuel (swapGroups entries curGroup nextGroup prevGroup) curGroup prevGroup
          (entries.prevGroup prevGroup)
    else entries

/-- The `do ... while` loop over the transactions of a group, from its tail back: even passes
write them from the front of the linearization, odd passes from the back. Returns the
linearization and `done`. -/
def writeGroup (entries : Entries) (rev : Bool) (len : ℕ) : ℕ → List ℕ → ℕ → ℕ → List ℕ × ℕ
  | 0, linearization, done, _ => (linearization, done)
  | fuel + 1, linearization, done, curTx =>
    let linearization :=
      if rev then linearization.set done (curTx - 1) else linearization.set (len - (done + 1)) (curTx - 1)
    let curTx' := entries.prevTx curTx
    if curTx' ≠ noPrevTx then writeGroup entries rev len fuel linearization (done + 1) curTx'
    else (linearization, done + 1)

/-- The loop over the groups, from the last back to the sentinel, for at most `fuel` groups. -/
def writeGroups (entries : Entries) (rev : Bool) (len : ℕ) : ℕ → List ℕ → ℕ → ℕ → List ℕ
  | 0, linearization, _, _ => linearization
  | fuel + 1, linearization, done, curGroup =>
    if curGroup ≠ sentinel then
      let written := writeGroup entries rev len len linearization done curGroup
      writeGroups entries rev len fuel written.1 written.2 (entries.prevGroup curGroup)
    else linearization

/-- One pass over the linearization: the new linearization and the entries it leaves. -/
def pass (rev : Bool) (linearization : List ℕ) (entries : Entries) : List ℕ × Entries :=
  let len := linearization.length
  -- Construct a sentinel group, identifying the start of the list.
  let entries := { entries with prevGroup := Function.update entries.prevGroup sentinel sentinel }
  let entries := (List.range len).foldl (fun entries i =>
      let idx := linearization.getD (if rev then len - 1 - i else i) 0
      let entries := newGroup depgraph rev entries idx
      -- the `i` groups before the new one bound the merges and swaps
      mergeOrSwap arith (i + 1) entries (idx + 1) sentinel (entries.prevGroup (idx + 1)))
    entries
  (writeGroups entries rev len (len + 1) linearization 0 (entries.prevGroup sentinel), entries)

/-- `PostLinearize(depgraph, linearization)`: a backward pass, then a forward one, on one vector of
entries. -/
def postLinearize (linearization : List ℕ) : List ℕ :=
  let backward := pass arith depgraph true linearization Entries.init
  (pass arith depgraph false backward.1 backward.2).1

end PostLinearize

end Freycoin.Cluster
