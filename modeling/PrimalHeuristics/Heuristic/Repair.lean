import PrimalHeuristics.SubProblem

/-!
# Repairing a point

A point that violates some rows is repaired by moving columns. For each violated row the columns of
the row are tried in turn: a column is moved by what the row still needs, within its bounds, and
integer columns by whole steps. A move is made only if it helps the row and makes no other row worse
by more than the tolerance. Sweeps over the violated rows move the continuous columns first, and
then the integer ones.

* `Repair.moveColumn`: one column of a violated row;
* `Repair.sweep`: all rows that are violated at its start;
* `repair`: the point that is left, and the rows that it still violates.
-/

namespace PrimalHeuristics

/-- A point with the activities of all rows, and whether the current sweep moved it. -/
structure Repair (α : Type) where
  point : Array α
  activities : Array α
  moved : Bool

namespace Repair

variable {α : Type} [Scalar α]

/-- The change of activity that a row needs, if it is violated. -/
def need (b : RowBounds α) (activity : α) : Option α :=
  if activity < b.lower - Scalar.feasTol then some (b.lower - activity)
  else if b.upper + Scalar.feasTol < activity then some (b.upper - activity)
  else none

/-- The bounds of a column, whole for an integer column. -/
def range (integer : Bool) (lower upper : α) : α × α :=
  if integer then (Scalar.ceil lower, Scalar.floor upper) else (lower, upper)

/-- The step of a column with coefficient `a` that gives a row what it needs, whole for an integer
column. -/
def step (integer : Bool) (need a : α) : α :=
  let s := need / a
  if integer then Scalar.sign s * Scalar.ceil (Scalar.abs s - Scalar.intTol) else s

/-- Moving column `c` by `delta` helps row `r` and makes no other row worse. -/
def isAcceptable (p : Problem α) (activities : Array α) (r c : Nat) (delta : α) : Bool :=
  (p.matrix.column c).all fun (s, v) =>
    let before := (p.boundsOf s).violation (activities.getD s 0)
    let after := (p.boundsOf s).violation (activities.getD s 0 + v * delta)
    if s = r then after < before - Scalar.feasTol else after ≤ before + Scalar.feasTol

/-- Moves a column. -/
def shift (p : Problem α) (t : Repair α) (c : Nat) (delta : α) : Repair α where
  point := t.point.modify c (· + delta)
  activities := (p.matrix.column c).foldl (fun y e => y.modify e.1 (· + e.2 * delta)) t.activities
  moved := true

/-- One column of a row, if it is of the kind that is moved now and the row is still violated. -/
def moveColumn (p : Problem α) (b : Box α) (integers : Bool) (r : Nat) (t : Repair α)
    (e : Nat × α) : Checked (Repair α) := do
  if p.isInteger e.1 != integers then
    return t
  else
    match need (p.boundsOf r) (t.activities.getD r 0) with
    | none => return t
    | some n =>
      let l := range integers (← Checked.read b.lower e.1) (← Checked.read b.upper e.1)
      if l.2 < l.1 then
        return t
      else
        let v ← Checked.read t.point e.1
        let delta := (← Scalar.clamp (v + step integers n e.2) l.1 l.2) - v
        if Scalar.abs delta ≤ Scalar.feasTol then return t
        else if isAcceptable p t.activities r e.1 delta then return t.shift p e.1 delta
        else return t

/-- All columns of a row, in order. -/
def moveRow (p : Problem α) (b : Box α) (integers : Bool) (t : Repair α) (r : Nat) :
    Checked (Repair α) :=
  (p.matrix.row r).foldlM (moveColumn p b integers r) t

/-- One sweep over rows. -/
def sweep (p : Problem α) (b : Box α) (integers : Bool) (rows : List Nat) (t : Repair α) :
    Checked (Repair α) :=
  rows.foldlM (moveRow p b integers) { t with moved := false }

/-- Sweeps until no row is violated or nothing moves, at most so many. -/
def sweeps (p : Problem α) (b : Box α) (integers : Bool) : Nat → Repair α → Checked (Repair α)
  | 0, t => .ok t
  | n + 1, t =>
    match p.violatedRows t.activities with
    | [] => .ok t
    | rows =>
      match sweep p b integers rows t with
      | .error f => .error f
      | .ok t => if t.moved then sweeps p b integers n t else .ok t

/-- The most sweeps with columns of one kind. -/
def maxSweeps : Nat := 20

end Repair

variable {α : Type} [Scalar α]

/-- The point after all sweeps, and the rows that it still violates. -/
def repair (p : Problem α) (b : Box α) (x : Array α) : Checked (Array α × List Nat) := do
  let t : Repair α := ⟨x, ← p.matrix.activities x, false⟩
  let t ← Repair.sweeps p b false Repair.maxSweeps t
  let t ← Repair.sweeps p b true Repair.maxSweeps t
  return (t.point, p.violatedRows t.activities)

end PrimalHeuristics
