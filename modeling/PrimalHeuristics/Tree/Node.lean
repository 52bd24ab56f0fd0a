import PrimalHeuristics.Problem
import PrimalHeuristics.SubProblem
import PrimalHeuristics.Tree.Decision

/-!
# Nodes of the search tree

A `Node` is what a heuristic sees of the search tree: the bounds that hold there, the solution of
the relaxation, and solutions that came up on the way.

* `Node.root`: the node with the bounds of the problem;
* `Node.child`: the node after one more decision.
-/

namespace PrimalHeuristics

/-- A node of the search tree. -/
structure Node (α : Type) where
  depth : Nat
  path : Path α
  box : Box α
  /-- The solution of the relaxation. -/
  solution : Array α
  /-- The objective of the relaxation. -/
  objective : α
  /-- A feasible solution that the relaxation came across, with its objective. -/
  solverSolution : Option (α × Array α)
  /-- A solution that the user supplied. -/
  hotstart : Option (Array α)

namespace Node

variable {α : Type} [Scalar α]

/-- The root, with the bounds of the problem. -/
def root (p : Problem α) (solution : Array α) (objective : α) : Node α where
  depth := 0
  path := []
  box := ⟨p.lower, p.upper⟩
  solution := solution
  objective := objective
  solverSolution := none
  hotstart := none

def isRoot (n : Node α) : Bool :=
  n.depth == 0

/-- The bounds after a decision: the tighter one of the old bound and the new one. -/
def restrictBox (b : Box α) (d : Decision α) : Checked (Box α) := do
  match d.direction with
  | .down =>
    let u ← Checked.read b.upper d.column
    return ⟨b.lower, b.upper.setIfInBounds d.column (Scalar.min u d.bound)⟩
  | .up =>
    let l ← Checked.read b.lower d.column
    return ⟨b.lower.setIfInBounds d.column (Scalar.max l d.bound), b.upper⟩

/-- The node after one more decision; a supplied solution is kept. -/
def child (n : Node α) (d : Decision α) (solution : Array α) (objective : α) :
    Checked (Node α) := do
  let box ← restrictBox n.box d
  return {
    depth := n.depth + 1
    path := n.path ++ [d]
    box := box
    solution := solution
    objective := objective
    solverSolution := none
    hotstart := n.hotstart }

end Node

end PrimalHeuristics
