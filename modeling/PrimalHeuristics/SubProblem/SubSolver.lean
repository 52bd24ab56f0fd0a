import PrimalHeuristics.SubProblem.Propagation

/-!
# Ways to solve sub-problems

A `SubSolver` names the relaxation by which the nodes of a sub-problem are bounded. One that handles
integer columns only refuses a sub-problem in which a continuous column is left a choice.
-/

namespace PrimalHeuristics

/-- The relaxation by which sub-problems are solved. -/
inductive SubSolver where
  /-- Propagation of row activities, and the cheapest corner. -/
  | activityBounds
  deriving DecidableEq, Repr

namespace SubSolver

/-- The sub-solver may be given continuous columns that are left a choice. -/
def handlesContinuous : SubSolver → Bool
  | activityBounds => false

variable {α : Type} [Scalar α]

/-- The relaxation for a sub-problem. -/
def relaxation (k : SubSolver) (s : SubProblem α) : Except (Error α) (Relaxation α Unit) :=
  match k, s.freeContinuousColumn with
  | activityBounds, some c => .error (.continuousColumn c)
  | activityBounds, none => .ok (.activity Relaxation.defaultPasses)

end SubSolver

end PrimalHeuristics
