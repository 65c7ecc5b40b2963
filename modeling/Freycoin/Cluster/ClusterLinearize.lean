import Freycoin.Cluster.DepGraph

/-! `FixLinearization` of `cluster_linearize.h`.

The counter `j` is only `Assume`d positive: at `j = 0` the next read would leave the span, and
the model stops there with `none`. -/

namespace Freycoin.Cluster

/-- The `while (place_before.Any())` loop: `j`, how far from the back `elem` goes, and the
linearization with the passed elements shifted forward. -/
def moveForward (len : ℕ) : List ℕ → Finset ℕ → ℕ → Option (ℕ × List ℕ)
  -- `Assume(j > 0)` fails
  | linearization, placeBefore, 0 => if placeBefore.Nonempty then none else some (0, linearization)
  | linearization, placeBefore, j + 1 =>
    if placeBefore.Nonempty then
      let toSwap := linearization.getD (len - 1 - j) 0
      moveForward len (linearization.set (len - 1 - (j + 1)) toSwap) (placeBefore.erase toSwap) j
    else some (j + 1, linearization)

/-- The loop over `i`, the distance from the back, with `remaining` passes left and the set
`done` of the elements processed so far. -/
def fixLinearizationLoop (depgraph : DepGraph) (len : ℕ) :
    ℕ → ℕ → List ℕ → Finset ℕ → Option (List ℕ)
  | 0, _, linearization, _ => some linearization
  | remaining + 1, i, linearization, done =>
    let elem := linearization.getD (len - 1 - i) 0
    match moveForward len linearization (done ∩ depgraph.ancestors elem) i with
    | none => none
    | some (j, linearization) =>
      fixLinearizationLoop depgraph len remaining (i + 1) (linearization.set (len - 1 - j) elem)
        (insert elem done)

/-- `FixLinearization(depgraph, linearization)`: the linearization it leaves, or `none` where an
`Assume` fails. -/
def fixLinearization (depgraph : DepGraph) (linearization : List ℕ) : Option (List ℕ) :=
  fixLinearizationLoop depgraph linearization.length linearization.length 0 linearization ∅

end Freycoin.Cluster
