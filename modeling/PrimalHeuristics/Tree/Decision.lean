import PrimalHeuristics.Scalar

/-!
# Branching decisions

A decision on the way from the root of the search tree to a node restricts a column from above or
from below. Positions of the tree are lists of decisions, from the root on.

* `Decision.words`: the three words by which a decision enters a digest;
* `Path.matching`: the number of positions at which two paths agree;
* `Path.isFarFrom`: less than a share of the longer path agrees.
-/

namespace PrimalHeuristics

/-- The side to which a decision restricts its column. -/
inductive Direction where
  | down
  | up
  deriving DecidableEq, Repr

/-- A column restricted to values at most (down) or at least (up) a bound. -/
structure Decision (α : Type) where
  column : Nat
  direction : Direction
  bound : α
  deriving Repr

namespace Decision

variable {α : Type} [Scalar α]

/-- The same restriction; bounds are compared as numbers. -/
def same (d e : Decision α) : Bool :=
  d.column == e.column && d.direction == e.direction && d.bound == e.bound

/-- The words of a decision: column, direction and bound. -/
def words (d : Decision α) : List UInt64 :=
  [d.column.toUInt64, if d.direction = .up then 1 else 0, Scalar.word d.bound]

end Decision

/-- The decisions that lead from the root to a node. -/
abbrev Path (α : Type) := List (Decision α)

namespace Path

variable {α : Type} [Scalar α]

/-- The words of all decisions, in order. -/
def words (p : Path α) : List UInt64 :=
  p.flatMap Decision.words

/-- The same decisions at the same positions. -/
def same : Path α → Path α → Bool
  | [], [] => true
  | d :: p, e :: q => d.same e && same p q
  | _, _ => false

/-- The number of positions at which two paths make the same decision. -/
def matching (p q : Path α) : Nat :=
  (p.zip q).countP fun (d, e) => d.same e

/-- The paths differ, and less than a share of the longer one agrees; positions beyond the end of
the shorter one count as different. -/
def isFarFrom (p q : Path α) (share : α) : Bool :=
  let longest := Nat.max p.length q.length
  let agreeing := matching p q
  agreeing != longest && (Scalar.ofNat agreeing / Scalar.ofNat longest : α) < share

end Path

/-- The nodes at which a heuristic has run, in order. -/
abbrev History (α : Type) := List (Path α)

namespace History

variable {α : Type} [Scalar α]

/-- Every stored node is far from a candidate. -/
def allFar (h : History α) (candidate : Path α) (share : α) : Bool :=
  h.all fun p => Path.isFarFrom p candidate share

end History

end PrimalHeuristics
