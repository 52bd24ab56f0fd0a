import PrimalHeuristics.SubProblem.Relaxation
import PrimalHeuristics.SubProblem.Branching
import PrimalHeuristics.SubProblem.Queue

/-!
# Bounded branch and bound

`Search.run` searches the points of a sub-problem for one of low cost, bounding nodes with a
relaxation. It takes at most as many nodes as its cap allows, and it is after solutions strictly
below a cutoff.

Each node that is taken counts. It is dropped if its bound, or the one of the relaxation, comes
within the tolerance of the best value so far. If the point of the relaxation is feasible in the box
that the relaxation leaves, it becomes the incumbent; otherwise the node is split, and the child
that is preferred gets the later number. A child without a point between its bounds is left out.

The search is finished if no open node has a bound that is better than the best value.

* `Search.step`: what becomes of one node;
* `Search.loop`: nodes one after another, up to a number of them;
* `Search.run`: the result, with the final state of the relaxation.
-/

namespace PrimalHeuristics

variable {α : Type}

/-- How a search ended. -/
inductive SearchStatus where
  | noSolutionUnfinished
  | solutionUnfinished
  | noSolutionFinished
  | solutionFinished
  deriving DecidableEq, Repr

namespace SearchStatus

def ofParts (finished hasSolution : Bool) : SearchStatus :=
  match finished, hasSolution with
  | false, false => .noSolutionUnfinished
  | false, true => .solutionUnfinished
  | true, false => .noSolutionFinished
  | true, true => .solutionFinished

/-- The number by which a status is reported. -/
def code : SearchStatus → Nat
  | .noSolutionUnfinished => 0
  | .solutionUnfinished => 1
  | .noSolutionFinished => 2
  | .solutionFinished => 3

def isFinished : SearchStatus → Bool
  | .noSolutionFinished | .solutionFinished => true
  | _ => false

def hasSolution : SearchStatus → Bool
  | .solutionUnfinished | .solutionFinished => true
  | _ => false

@[simp] theorem isFinished_ofParts (f h : Bool) : (ofParts f h).isFinished = f := by
  cases f <;> cases h <;> rfl

@[simp] theorem hasSolution_ofParts (f h : Bool) : (ofParts f h).hasSolution = h := by
  cases f <;> cases h <;> rfl

end SearchStatus

/-- The result of a search. -/
structure SearchResult (α : Type) where
  status : SearchStatus
  /-- The best solution, as a vector of the sub-problem. -/
  solution : Option (Array α)
  /-- The cost of the solution, or the cutoff if there is none. -/
  objective : α
  /-- The number of nodes that were taken. -/
  nodes : Nat

/-- The state of a search between two nodes. -/
structure Search (α : Type) where
  queue : NodeQueue α
  incumbent : Option (Array α)
  /-- The cost of the incumbent, or the cutoff if there is none. -/
  value : α
  nodes : Nat
  nextId : Nat

namespace Search

variable [Scalar α]

/-- The search before its first node. -/
def start (s : SubProblem α) (cutoff : α) : Search α where
  queue := NodeQueue.empty.push ⟨0, 0, -Scalar.infinity, s.box⟩
  incumbent := none
  value := cutoff
  nodes := 0
  nextId := 1

/-- The bound does not promise anything better than the best value. -/
def isPruned (t : Search α) (bound : α) : Bool :=
  t.value - Scalar.objTol ≤ bound

/-- Adds a child, unless its column has no value left. -/
def addChild (t : Search α) (column : Nat) (child : OpenNode α) : Checked (Search α) := do
  let lower ← Checked.read child.box.lower column
  let upper ← Checked.read child.box.upper column
  if upper + Scalar.feasTol < lower then return t
  else
    return { t with
      queue := t.queue.push { child with id := t.nextId }
      nextId := t.nextId + 1 }

/-- Splits a node; the child that is searched first comes second. -/
def split (t : Search α) (n : OpenNode α) (objective : α) (b : Box α) (branch : Branch α) :
    Checked (Search α) := do
  let child (box : Box α) : OpenNode α := ⟨0, n.depth + 1, objective, box⟩
  let down := child ⟨b.lower, b.upper.setIfInBounds branch.column branch.downUpper⟩
  let up := child ⟨b.lower.setIfInBounds branch.column branch.upLower, b.upper⟩
  if branch.upFirst then (← t.addChild branch.column down).addChild branch.column up
  else (← t.addChild branch.column up).addChild branch.column down

/-- What becomes of a node that the relaxation bounded. -/
def absorb (t : Search α) (s : SubProblem α) (n : OpenNode α) (bound : NodeBound α) (b : Box α) :
    Checked (Search α) := do
  match bound with
  | .infeasible => return t
  | .bounded objective x =>
    if t.isPruned objective then return t
    else if ← s.isFeasible x b then
      return { t with
        value := s.objectiveValue x
        incumbent := some x
        queue := t.queue.nowHasBound }
    else
      match ← Branch.choose s x b with
      | none => return t
      | some branch => t.split n objective b branch

/-- One node: it counts, and is bounded unless its own bound is of no use. -/
def step {σ : Type} (s : SubProblem α) (r : Relaxation α σ) (t : Search α) (n : OpenNode α)
    (state : σ) : Except (Failure α) (Search α) × σ :=
  let t := { t with nodes := t.nodes + 1 }
  if t.isPruned n.bound then (.ok t, state)
  else
    match r.solve s n.box state with
    | (.error e, state) => (.error e, state)
    | (.ok (bound, b), state) => (Failure.ofChecked (t.absorb s n bound b), state)

/-- Takes nodes as long as there are any, at most so many. -/
def loop {σ : Type} (s : SubProblem α) (r : Relaxation α σ) :
    Nat → Search α → σ → Except (Failure α) (Search α) × σ
  | 0, t, state => (.ok t, state)
  | cap + 1, t, state =>
    match t.queue.pop with
    | none => (.ok t, state)
    | some (n, queue) =>
      match step s r { t with queue } n state with
      | (.error e, state) => (.error e, state)
      | (.ok t, state) => loop s r cap t state

/-- No open node promises anything better than the best value. -/
def isFinished (t : Search α) : Bool :=
  match t.queue.lowestBy (·.bound) with
  | none => true
  | some lowest => t.isPruned lowest

/-- The result of a search that ends in a state. -/
def result (t : Search α) : SearchResult α where
  status := .ofParts t.isFinished t.incumbent.isSome
  solution := t.incumbent
  objective := t.value
  nodes := t.nodes

/-- The result for a sub-problem without columns: the fixed columns alone. -/
def fixedResult (s : SubProblem α) (cutoff : α) : SearchResult α :=
  if s.offset < cutoff then ⟨.solutionFinished, some #[], s.offset, 0⟩
  else ⟨.noSolutionFinished, none, cutoff, 0⟩

/-- Searches a sub-problem, taking at most `cap` nodes, for solutions below the cutoff. -/
def run {σ : Type} (s : SubProblem α) (r : Relaxation α σ) (cap : Nat) (cutoff : α) (state : σ) :
    Except (Failure α) (SearchResult α) × σ :=
  if s.numCols = 0 then (.ok (fixedResult s cutoff), state)
  else
    match loop s r cap (start s cutoff) state with
    | (.error e, state) => (.error e, state)
    | (.ok t, state) => (.ok t.result, state)

end Search

end PrimalHeuristics
