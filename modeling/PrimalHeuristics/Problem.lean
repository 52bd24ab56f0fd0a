import PrimalHeuristics.Bounds
import PrimalHeuristics.Matrix

/-!
# Mixed integer problems

A `Problem` asks for a vector `x` of least cost that keeps the bounds of all columns and rows, with
whole numbers in its integer columns. Rows bound the entries of `A x`. Special ordered sets are
kept, but no rule of this library enforces them.

* `Problem.isFeasible`: a vector keeps given column bounds, integrality and all rows;
* `Problem.objectiveValue`: its cost;
* `Problem.emptyIntegerDomain`: an integer column whose bounds hold no whole number.
-/

namespace PrimalHeuristics

/-- A column of a problem. -/
structure Column (α : Type) where
  objective : α
  lower : α
  upper : α
  integer : Bool
  /-- Columns of low priority value are decided first. -/
  priority : Int

/-- A mixed integer problem. -/
structure Problem (α : Type) [Scalar α] where
  columns : Array (Column α)
  rowBounds : Array (RowBounds α)
  matrix : Matrix α
  /-- The special ordered sets, by their members. -/
  sosSets : List (List Nat)
  numCols_matrix : matrix.numCols = columns.size
  numRows_matrix : matrix.numRows = rowBounds.size

namespace Problem

variable {α : Type} [Scalar α]

def numCols (p : Problem α) : Nat :=
  p.columns.size

def numRows (p : Problem α) : Nat :=
  p.rowBounds.size

/-- The lower bounds of all columns. -/
def lower (p : Problem α) : Array α :=
  p.columns.map (·.lower)

/-- The upper bounds of all columns. -/
def upper (p : Problem α) : Array α :=
  p.columns.map (·.upper)

@[simp] theorem size_lower (p : Problem α) : p.lower.size = p.numCols := by
  simp [lower, numCols]

@[simp] theorem size_upper (p : Problem α) : p.upper.size = p.numCols := by
  simp [upper, numCols]

/-- The column has to hold a whole number. -/
def isInteger (p : Problem α) (c : Nat) : Bool :=
  p.columns[c]?.any (·.integer)

/-- The integer columns, in order. -/
def integerColumns (p : Problem α) : List Nat :=
  (List.range p.numCols).filter p.isInteger

def numIntegers (p : Problem α) : Nat :=
  p.integerColumns.length

/-- The cost of a column, per unit. -/
def cost (p : Problem α) (c : Nat) : α :=
  (p.columns[c]?.map (·.objective)).getD 0

/-- The bounds of a row. -/
def boundsOf (p : Problem α) (r : Nat) : RowBounds α :=
  p.rowBounds.getD r ⟨0, 0⟩

/-- The column holds zero or one. -/
def isBinary (p : Problem α) (c : Nat) : Bool :=
  p.columns[c]?.any fun k => k.integer && (0 : α) ≤ k.lower && k.upper ≤ (1 : α)

/-- The cost of a vector. -/
def objectiveValue (p : Problem α) (x : Array α) : α :=
  Scalar.sum (List.zipWith (fun k v => k.objective * v) p.columns.toList x.toList)

/-- The rows whose activity lies outside of their bounds by more than the tolerance. -/
def violatedRows (p : Problem α) (activities : Array α) : List Nat :=
  (List.range p.numRows).filter fun r =>
    Scalar.feasTol < (p.boundsOf r).violation (activities.getD r 0)

/-- The first integer column whose bounds hold no whole number. -/
def emptyIntegerDomain (p : Problem α) (lower upper : Array α) : Checked (Option Nat) :=
  p.integerColumns.findM? fun c => do
    let l ← Checked.read lower c
    let u ← Checked.read upper c
    return Scalar.floor u + Scalar.intTol < Scalar.ceil l

/-- The vector keeps the given column bounds, integrality and all rows. -/
def isFeasible (p : Problem α) (x lower upper : Array α) : Checked Bool := do
  if x.size ≠ p.numCols then
    return false
  else if ← (List.range p.numCols).allM fun c => withinBounds (p.isInteger c) x lower upper c then
    return (p.violatedRows (← p.matrix.activities x)).isEmpty
  else
    return false

end Problem

end PrimalHeuristics
