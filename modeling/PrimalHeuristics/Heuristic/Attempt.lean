import PrimalHeuristics.Heuristic.Core
import PrimalHeuristics.SubProblem.Search

/-!
# Attempts at a solution

An `Attempt` ends with a candidate or without one, and on the way it may solve a sub-problem and
send messages. A candidate counts only if it is feasible at the node and better than the best
solution so far. A `Trial` is the whole of what one run of a heuristic leaves behind.

* `Settings.subSolve`: searches a sub-problem, and reports on it;
* `Attempt.complete`: the free columns of a point are chosen by a sub-problem;
* `Box.nearest`: the point of a box from which a candidate is made;
* `improvement`: the objective of a candidate that counts.
-/

namespace PrimalHeuristics

variable {α : Type}

/-- The end of an attempt. -/
structure Attempt (α : Type) where
  candidate : Except (Failure α) (Option (Array α))
  subSolveNodes : Nat := 0
  messages : List (Message α) := []

/-- What a run of a heuristic leaves behind, with its own part of type `κ`. -/
structure Trial (α κ : Type) where
  /-- A solution that counts, with its objective. -/
  answer : Except (Failure α) (Option (α × Array α))
  core : Core α
  own : κ
  messages : List (Message α) := []

namespace Attempt

/-- An attempt that ends without a candidate. -/
def nothing : Attempt α :=
  { candidate := .ok none }

/-- An attempt that cannot go on. -/
def failed (e : Failure α) : Attempt α :=
  { candidate := .error e }

end Attempt

variable [Scalar α]

/-- The point of a box with `n` columns that is nearest to a vector. -/
def Box.nearest (b : Box α) (n : Nat) (x : Array α) : Checked (Array α) :=
  (Array.range n).mapM fun c => do
    Scalar.clamp (← Checked.read x c) (← Checked.read b.lower c) (← Checked.read b.upper c)

/-- The objective of a candidate that is feasible within a box, unless it is as large as the
best. -/
def improvement (p : Problem α) (b : Box α) (best : α) (x : Array α) : Checked (Option α) := do
  if ← p.isFeasible x b.lower b.upper then
    return if best ≤ p.objectiveValue x then none else some (p.objectiveValue x)
  else
    return none

/-- Searches a sub-problem with the relaxation that the settings name. -/
def Settings.subSolve (s : Settings α) (sub : SubProblem α) (cap : Nat) (cutoff : α)
    (label : String) : Except (Failure α) (SearchResult α × SubSolveReport α) := do
  let r ← s.subSolver.relaxation sub
  let result ← (Search.run sub r cap cutoff ()).1
  return (result, {
    label := s.name ++ " " ++ label
    columns := sub.numCols
    rows := sub.numRows
    nodes := result.nodes
    status := result.status.code
    objective := result.solution.map fun _ => result.objective
    seconds := none })

/-- What the search of a sub-problem finds, if the sub-problem is not refused. -/
theorem Settings.subSolve_of_run {sub : SubProblem α} (hnone : sub.freeContinuousColumn = none)
    {cap : Nat} {cutoff : α} {r : SearchResult α}
    (hr : Search.run sub (.activity Relaxation.defaultPasses) cap cutoff () = (.ok r, ()))
    (s : Settings α) (label : String) :
    ∃ report, s.subSolve sub cap cutoff label = .ok (r, report) := by
  unfold subSolve SubSolver.relaxation
  rw [hnone]
  refine ⟨_, Checked.bind_eq_ok.2 ⟨_, rfl, Checked.bind_eq_ok.2 ⟨r, ?_, rfl⟩⟩⟩
  rw [hr]

namespace Attempt

/-- A candidate whose free columns are chosen by a sub-problem and whose others are those of `x`.
There is none if a row without a free column is violated, if the sub-problem is too large, which is
told by `tooLarge`, or if its search finds nothing below the cutoff. -/
def complete (s : Settings α) (p : Problem α) (b : Box α) (x : Array α) (free : Array Bool)
    (cutoff : α) (label : String) (tooLarge : SubProblem α → List (Message α)) : Attempt α :=
  match SubProblem.restrict p x free b with
  | .error e => failed (.error e)
  | .ok none => nothing
  | .ok (some sub) =>
    if sub.isWithinFraction s.fractionSmall then
      match s.subSolve sub s.numberNodes.toNat cutoff label with
      | .error e => failed e
      | .ok (result, report) =>
        { candidate :=
            match result.solution with
            | none => .ok none
            | some y => Failure.ofChecked ((sub.expand x y).map some)
          subSolveNodes := result.nodes
          messages := [.subSolve report] }
    else
      { nothing with messages := tooLarge sub }

/-- The candidate with its objective, if it counts. -/
def settle (a : Attempt α) (p : Problem α) (b : Box α) (best : α) :
    Except (Failure α) (Option (α × Array α)) := do
  match ← a.candidate with
  | none => return none
  | some x => return (← improvement p b best x).map (·, x)

end Attempt

end PrimalHeuristics
