import PrimalHeuristics.Heuristic.Attempt
import PrimalHeuristics.Heuristic.Locks
import PrimalHeuristics.Heuristic.Repair

/-!
# Rounding the relaxation

The integer columns of the solution of the relaxation are rounded one after another. A direction is
the more desirable the fewer rows lock it, the cheaper it makes the column, and by a random term
that depends on the seed and on the position of the node. The point is then repaired, and what the
repair leaves violated is handed to a sub-problem of the integer columns of those rows.

* `Weights.score`: the desirability of a direction;
* `Rounding.point`: the point that is rounded;
* `Rounding.attempt`: repair, and the sub-problem;
* `Rounding.trial`: a run, with the locks and the phase that it leaves.
-/

namespace PrimalHeuristics

/-- How far a rounding has come. -/
inductive RoundingPhase where
  | idle
  | locksComputed
  | solutionAttempted
  | repaired
  | abandoned
  deriving DecidableEq, Repr

/-- The constants by which a direction is scored. -/
structure Weights (α : Type) where
  /-- The scale of the random term that is added to the number of locks. -/
  lockJitter : α
  /-- How much the cost favours a direction. -/
  objectiveWeight : α

/-- The part of a rounding heuristic that is its own. -/
structure Rounding (α : Type) where
  weights : Weights α
  /-- The locks of the problem, once they are computed. -/
  locks : Option Locks
  phase : RoundingPhase

variable {α : Type} [Scalar α]

namespace Weights

def standard : Weights α :=
  ⟨Scalar.decimal 5 1, Scalar.decimal 5 1⟩

/-- The weight of a change of cost. -/
def ofChange (w : Weights α) (change : α) : α :=
  if change < 0 then 1 + w.objectiveWeight
  else if 0 < change then 1 - w.objectiveWeight
  else 1

/-- The desirability of a direction. -/
def score (w : Weights α) (locks : Nat) (change random : α) : α :=
  w.ofChange change / (1 + Scalar.ofNat locks + w.lockJitter * random)

end Weights

namespace Rounding

/-- A heuristic that knows nothing of a problem. -/
def fresh : Rounding α :=
  ⟨.standard, none, .idle⟩

/-- The problem has changed. -/
def reset (r : Rounding α) : Rounding α :=
  { r with locks := none, phase := .idle }

/-! ### The rounded point -/

/-- The whole number to which a value that is not integral is rounded, by two random numbers. -/
def chooseWhole (w : Weights α) (l : LockCount) (cost value random₁ random₂ : α) : α :=
  let down := w.score l.down (cost * (Scalar.floor value - value)) random₁
  let up := w.score l.up (cost * (Scalar.ceil value - value)) random₂
  if down < up then Scalar.ceil value
  else if up < down then Scalar.floor value
  else if 0 < l.equal then Scalar.round value
  else Scalar.floor value

/-- Rounds an integer column. A value that is not integral takes two numbers from the stream, and
its whole number is brought between the bounds. -/
def roundColumn (w : Weights α) (t : Locks) (p : Problem α) (b : Box α) (s : Array α × Stream)
    (c : Nat) : Checked (Array α × Stream) := do
  let value ← Checked.read s.1 c
  if Scalar.isIntegral value then
    return (s.1.setIfInBounds c (Scalar.round value), s.2)
  else
    let (random₁, stream) := s.2.uniform α
    let (random₂, stream) := stream.uniform α
    let whole := chooseWhole w (t.get c) (p.cost c) value random₁ random₂
    let whole ← Scalar.clamp whole (Scalar.ceil (← Checked.read b.lower c))
      (Scalar.floor (← Checked.read b.upper c))
    return (s.1.setIfInBounds c whole, stream)

/-- The solution of the relaxation with all integer columns rounded. -/
def point (w : Weights α) (t : Locks) (p : Problem α) (n : Node α) (seed : UInt64) :
    Checked (Array α) := do
  let x ← n.box.nearest p.numCols n.solution
  let (x, _) ← p.integerColumns.foldlM (roundColumn w t p n.box) (x, Core.nodeStream seed n.path)
  return x

/-! ### What is violated -/

/-- The columns that are free to repair rows: those of the rows that a sub-problem can handle. -/
def freeFlags (k : SubSolver) (p : Problem α) (rows : List Nat) : Array Bool :=
  rows.foldl (fun free r =>
    (p.matrix.row r).foldl (fun free e =>
      free.setIfInBounds e.1 (p.isInteger e.1 || k.handlesContinuous)) free)
    (Array.replicate p.numCols false)

/-- A rounded point is repaired, by a sub-problem if need be. -/
def attempt (s : Settings α) (p : Problem α) (b : Box α) (best : α) (x : Array α) : Attempt α :=
  match repair p b x with
  | .error f => .failed (.fault f)
  | .ok (x, []) => { candidate := .ok (some x) }
  | .ok (x, rows) =>
    .complete s p b x (freeFlags s.subSolver p rows) best "repair" fun sub =>
      [.log (.repairTooLarge s.name sub.size s.fractionSmall)]

/-! ### Runs -/

/-- The heuristic with the locks of the problem; locks of another problem are an error. -/
def ensureLocks (r : Rounding α) (p : Problem α) : Except (Error α) (Rounding α) :=
  match r.locks with
  | none => .ok { r with locks := some (.byColumn p), phase := .locksComputed }
  | some t => if t.size = p.numCols then .ok r else .error (.staleModel t.size p.numCols)

/-- The heuristic after a run with a result. -/
def conclude (r : Rounding α) : Except (Failure α) (Option (α × Array α)) → Rounding α
  | .error _ => { r with phase := .solutionAttempted }
  | .ok none => { r with phase := .abandoned }
  | .ok (some _) => { r with phase := .repaired }

/-- A run. -/
def trial (r : Rounding α) (c : Core α) (p : Problem α) (n : Node α) (best : α) :
    Trial α (Rounding α) :=
  match r.ensureLocks p with
  | .error e => { answer := .error (.error e), core := c, own := r }
  | .ok r =>
    match p.emptyIntegerDomain n.box.lower n.box.upper with
    | .error f => { answer := .error (.fault f), core := c, own := r }
    | .ok (some _) => { answer := .ok none, core := c, own := r.conclude (.ok none) }
    | .ok none =>
      match point r.weights (r.locks.getD #[]) p n c.settings.seed with
      | .error f => { answer := .error (.fault f), core := c, own := r }
      | .ok x =>
        let a := attempt c.settings p n.box best x
        let answer := a.settle p n.box best
        { answer
          core := c.addSubSolveNodes a.subSolveNodes
          own := r.conclude answer
          messages := a.messages }

end Rounding

end PrimalHeuristics
