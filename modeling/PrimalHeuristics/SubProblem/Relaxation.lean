import PrimalHeuristics.SubProblem

/-!
# Bounding the nodes of a sub-problem

A relaxation bounds a node that is given by a box. It may tighten the box, and it may keep a state
from call to call.

* `NodeBound`: no point of the node is feasible, or a lower bound of the cost with a point;
* `SubProblem.cheapestCorner`: the point of a box of least cost, if rows are left out;
* `Relaxation.midpoint`, `Relaxation.scripted`: relaxations with a known answer;
* `Relaxation.traced`: a relaxation that also records its calls.
-/

namespace PrimalHeuristics

variable {α : Type}

/-- The outcome of bounding a node. -/
inductive NodeBound (α : Type) where
  | infeasible
  /-- The objective includes the cost of the fixed columns. -/
  | bounded (objective : α) (solution : Array α)
  deriving DecidableEq

/-- A way to bound nodes, with a state of type `σ`. -/
structure Relaxation (α σ : Type) [Scalar α] where
  solve : SubProblem α → Box α → σ → Except (Failure α) (NodeBound α × Box α) × σ

namespace SubProblem

variable [Scalar α]

/-- The cheapest entry for a column of a box, and whether the cost has a least value there: if the
cheaper side has no bound, the other bound stands in, and zero if there is none either. -/
def cheapestEntryAt (k : SubColumn α) (b : Box α) (j : Nat) : Checked (α × Bool) := do
  let preferred ← Checked.read (if 0 ≤ k.objective then b.lower else b.upper) j
  if Scalar.isBound preferred then
    return (preferred, true)
  else
    let other ← Checked.read (if 0 ≤ k.objective then b.upper else b.lower) j
    return (if Scalar.isBound other then other else 0, k.objective == 0)

/-- The point of a box of least cost. The bound is minus infinity if the cost has no limit. -/
def cheapestCorner (s : SubProblem α) (b : Box α) : Checked (NodeBound α) := do
  let entries ← s.columns.toList.zipIdx.mapM fun (k, j) => cheapestEntryAt k b j
  let solution := (entries.map (·.1)).toArray
  let objective := if entries.all (·.2) then s.objectiveValue solution else -Scalar.infinity
  return .bounded objective solution

end SubProblem

namespace Relaxation

variable [Scalar α]

/-- A call of a relaxation. -/
structure Call (α : Type) where
  /-- The box that was handed in. -/
  box : Box α
  /-- The bound, or none if the call failed. -/
  answer : Option (NodeBound α)

/-- The same relaxation, recording its calls with the latest first. -/
def traced {σ : Type} (r : Relaxation α σ) : Relaxation α (σ × List (Call α)) where
  solve s b t :=
    let (answer, state) := r.solve s b t.1
    (answer, state, ⟨b, answer.toOption.map (·.1)⟩ :: t.2)

/-- Answers from a list: bounds, or the text of an error; no bound once the list is used up. -/
def scripted : Relaxation α (List (Except String (NodeBound α))) where
  solve _ b replies :=
    match replies with
    | [] => (.ok (.infeasible, b), [])
    | .ok bound :: rest => (.ok (bound, b), rest)
    | .error text :: rest => (.error (.error (.relaxation text)), rest)

/-- The middle of the box, with the bound of its cheapest corner. -/
def midpoint : Relaxation α Unit where
  solve s b state :=
    let answer : Except (Failure α) (NodeBound α × Box α) := do
      match ← (s.cheapestCorner b : Checked (NodeBound α)) with
      | .infeasible => return (.infeasible, b)
      | .bounded objective _ =>
        let middle := Array.zipWith (fun l u => (l + u) / Scalar.ofNat 2) b.lower b.upper
        return (.bounded objective middle, b)
    (answer, state)

end Relaxation

end PrimalHeuristics
