import PrimalHeuristics.Message
import PrimalHeuristics.Tree.Node

/-!
# The model of a search

A `Model` is what the heuristics see of the search around them: the problem, the node that is being
processed, and the incumbent. They only read it; all they may change is the incumbent, by proposing
a solution. Messages are kept in the order in which they were sent.

* `Model.ofProblem`: a search that starts;
* `Model.propose`: a feasible solution that is strictly better becomes the incumbent.
-/

namespace PrimalHeuristics

/-- The best solution so far; without any the objective is infinite and the solution empty. -/
structure Incumbent (α : Type) where
  objective : α
  solution : Array α

/-- The state of a search, as heuristics see it. -/
structure Model (α : Type) [Scalar α] where
  problem : Problem α
  node : Node α
  incumbent : Incumbent α
  messages : Array (Message α)

namespace Model

variable {α : Type} [Scalar α]

/-- Sends a message. -/
def send (m : Model α) (message : Message α) : Model α :=
  { m with messages := m.messages.push message }

/-- Sends messages one after another. -/
def sendAll (m : Model α) (l : List (Message α)) : Model α :=
  l.foldl send m

/-- Processes another node. -/
def setNode (m : Model α) (n : Node α) : Model α :=
  { m with node := n }

/-- No solution yet. -/
def noIncumbent : Incumbent α :=
  ⟨Scalar.infinity, #[]⟩

/-- The point within the bounds that is nearest to zero. -/
def origin (p : Problem α) : Checked (Array α) :=
  p.columns.mapM fun k => Scalar.clamp 0 k.lower k.upper

/-- The search of a problem, at a root whose point is the nearest one to zero. -/
def ofProblem (p : Problem α) : Checked (Model α) := do
  let start ← origin p
  return {
    problem := p
    node := .root p start (-Scalar.infinity)
    incumbent := noIncumbent
    messages := #[] }

/-- The search goes on with another problem, from its root; what was known is forgotten. -/
def replaceProblem (m : Model α) (p : Problem α) : Model α where
  problem := p
  node := .root p (Array.replicate p.numCols 0) (-Scalar.infinity)
  incumbent := noIncumbent
  messages := m.messages

/-- A solution with its objective is offered by a source. It is accepted if it keeps the bounds of
the problem and all rows, and its objective is not as large as the one of the incumbent. -/
def propose (m : Model α) (objective : α) (solution : Array α) (source : String) :
    Checked (Bool × Model α) := do
  if ← m.problem.isFeasible solution m.problem.lower m.problem.upper then
    if m.incumbent.objective ≤ objective then return (false, m)
    else
      return (true, { m with incumbent := ⟨objective, solution⟩ }.send (.newBest objective source))
  else
    return (false, m.send (.log (.rejected source)))

end Model

end PrimalHeuristics
