import PrimalHeuristics.Problem

/-!
# Locks

A row locks a column in a direction if moving the column that way may drive the activity of the row
out of its bounds. A row with bounds on both sides locks both directions, and one with a single
bound the direction of that bound. Counts of locks stop at `lockLimit`.

* `Locks.byColumn`: the counts of all columns, read off the columns of the matrix;
* `Locks.byRow`: the same counts, collected row by row.
-/

namespace PrimalHeuristics

/-- The greatest count of locks. -/
def lockLimit : Nat := 65535

/-- The numbers of rows that lock a column downwards and upwards, and of equations. -/
structure LockCount where
  down : Nat
  up : Nat
  equal : Nat
  deriving DecidableEq, Repr

namespace LockCount

def zero : LockCount :=
  ⟨0, 0, 0⟩

/-- One more, up to the limit, if a condition holds. -/
def bump (n : Nat) (holds : Bool) : Nat :=
  Nat.min lockLimit (n + holds.toNat)

variable {α : Type} [Scalar α]

/-- A row with bounds `b` locks a column with coefficient `a` downwards. -/
def locksDown (a : α) (b : RowBounds α) : Bool :=
  match Scalar.isBound b.lower, Scalar.isBound b.upper with
  | true, true => true
  | false, true => a < 0
  | true, false => (0 : α) < a
  | false, false => false

/-- A row with bounds `b` locks a column with coefficient `a` upwards. -/
def locksUp (a : α) (b : RowBounds α) : Bool :=
  match Scalar.isBound b.lower, Scalar.isBound b.upper with
  | true, true => true
  | false, true => (0 : α) < a
  | true, false => a < 0
  | false, false => false

/-- Counts the locks of one more row. -/
def addRow (l : LockCount) (a : α) (b : RowBounds α) : LockCount where
  down := bump l.down (locksDown a b)
  up := bump l.up (locksUp a b)
  equal := bump l.equal (b.lower == b.upper)

end LockCount

/-- The locks of all columns. -/
abbrev Locks := Array LockCount

namespace Locks

variable {α : Type} [Scalar α]

/-- The locks of a column. -/
def ofColumn (p : Problem α) (c : Nat) : LockCount :=
  (p.matrix.column c).foldl (fun l e => l.addRow e.2 (p.boundsOf e.1)) .zero

/-- The locks of all columns, column by column. -/
def byColumn (p : Problem α) : Locks :=
  (Array.range p.numCols).map (ofColumn p)

/-- Counts the locks of a row. -/
def addRow (p : Problem α) (t : Locks) (r : Nat) : Locks :=
  (p.matrix.row r).foldl (fun t e => t.modify e.1 (·.addRow e.2 (p.boundsOf r))) t

/-- The locks of all columns, row by row. -/
def byRow (p : Problem α) : Locks :=
  (List.range p.numRows).foldl (addRow p) (Array.replicate p.numCols .zero)

@[simp] theorem size_byColumn (p : Problem α) : (byColumn p).size = p.numCols := by
  simp [byColumn]

/-- The locks of a column in a table. -/
def get (t : Locks) (c : Nat) : LockCount :=
  t.getD c .zero

end Locks

end PrimalHeuristics
