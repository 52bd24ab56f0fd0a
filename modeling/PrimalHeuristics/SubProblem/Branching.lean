import PrimalHeuristics.SubProblem

/-!
# Choosing a branch

A node whose point is not feasible is split at an integer column: one child keeps the values up to a
whole number, the other the values from the next one on.

* the integer column that is furthest from a whole number is split around its value;
* if all are whole, a column of the first violated row is moved by one, in the direction that brings
  the activity of the row back; of several the last one with the greatest coefficient.
-/

namespace PrimalHeuristics

variable {α : Type} [Scalar α]

/-- A split of a node at a column. -/
structure Branch (α : Type) where
  column : Nat
  /-- The upper bound of the child that goes down. -/
  downUpper : α
  /-- The lower bound of the child that goes up. -/
  upLower : α
  /-- The child that goes up is searched first. -/
  upFirst : Bool
  deriving DecidableEq

namespace Branch

/-- The fractional part of a column that can be split between its bounds, with its value. -/
def fractional? (s : SubProblem α) (x : Array α) (b : Box α) (j : Nat) :
    Checked (Option (Nat × α × α)) := do
  if s.isInteger j then
    if (← Checked.read b.lower j) < (← Checked.read b.upper j) then
      let v ← Checked.read x j
      let f := v - Scalar.floor v
      if Scalar.intTol < f ∧ f < 1 - Scalar.intTol then return some (j, v, f) else return none
    else return none
  else return none

/-- A split of the integer column that is furthest from a whole number. -/
def ofFraction? (s : SubProblem α) (x : Array α) (b : Box α) : Checked (Option (Branch α)) := do
  let candidates ← (List.range s.numCols).filterMapM (fractional? s x b)
  return (Scalar.firstLeast (fun (_, _, f) => Scalar.abs (f - Scalar.decimal 5 1)) candidates).map
    fun (j, v, f) => ⟨j, Scalar.floor v, Scalar.ceil v, Scalar.decimal 5 1 ≤ f⟩

/-- The direction in which a column with coefficient `a` moves the activity as wanted. -/
def goesUp (increase : Bool) (a : α) : Bool :=
  decide (0 < a) == increase

/-- The column can be moved in the wanted direction. -/
def canMove (s : SubProblem α) (x : Array α) (b : Box α) (increase : Bool) (e : Nat × α) :
    Checked Bool := do
  if s.isInteger e.1 then
    let v ← Checked.read x e.1
    if goesUp increase e.2 then
      return v < (← Checked.read b.upper e.1) - Scalar.intTol
    else
      return (← Checked.read b.lower e.1) + Scalar.intTol < v
  else return false

/-- A split that moves a column of the first violated row by one. -/
def ofViolation? (s : SubProblem α) (x : Array α) (b : Box α) : Checked (Option (Branch α)) := do
  let activities ← s.matrix.activities x
  match (List.range s.numRows).find? fun r =>
      Scalar.feasTol < (s.boundsOf r).violation (activities.getD r 0) with
  | none => return none
  | some r =>
    let increase : Bool := activities.getD r 0 < (s.boundsOf r).lower
    let candidates ← (s.matrix.row r).filterM (canMove s x b increase)
    match Scalar.lastGreatest (fun e => Scalar.abs e.2) candidates with
    | none => return none
    | some (j, a) =>
      let v := Scalar.round (← Checked.read x j)
      if goesUp increase a then return some ⟨j, v, v + 1, true⟩
      else return some ⟨j, v - 1, v, false⟩

/-- The split of a node at its point. -/
def choose (s : SubProblem α) (x : Array α) (b : Box α) : Checked (Option (Branch α)) := do
  match ← ofFraction? s x b with
  | some branch => return some branch
  | none => ofViolation? s x b

end Branch

end PrimalHeuristics
