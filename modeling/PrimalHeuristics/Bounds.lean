import PrimalHeuristics.Scalar

/-!
# Bounds of rows and columns

* `RowBounds.violation`: the amount by which an activity lies outside of the bounds of its row;
* `withinBounds`: a column keeps its bounds and its integrality, each up to its tolerance.
-/

namespace PrimalHeuristics

variable {α : Type} [Scalar α]

/-- The bounds between which the activity of a row has to lie. -/
structure RowBounds (α : Type) where
  lower : α
  upper : α

/-- The amount by which an activity lies outside, and zero inside. -/
def RowBounds.violation (b : RowBounds α) (activity : α) : α :=
  if activity < b.lower then b.lower - activity
  else if b.upper < activity then activity - b.upper
  else 0

/-- The entry of a column lies within its bounds and is integral if it has to be. The upper bound is
only read if the lower one is kept. -/
def withinBounds (integer : Bool) (x lower upper : Array α) (c : Nat) : Checked Bool := do
  let v ← Checked.read x c
  let l ← Checked.read lower c
  if l - Scalar.feasTol ≤ v then
    let u ← Checked.read upper c
    return v ≤ u + Scalar.feasTol && (!integer || Scalar.isIntegral v)
  else
    return false

end PrimalHeuristics
