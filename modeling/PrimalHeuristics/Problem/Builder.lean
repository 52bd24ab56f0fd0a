import PrimalHeuristics.Problem

/-!
# Building problems

A `Builder` collects columns, rows and special ordered sets. A row may name only the columns that
are there when it is added; a refused step leaves the builder as it was.
-/

namespace PrimalHeuristics

/-- The priority of a column unless set otherwise. -/
def defaultPriority : Int := 1000

/-- A problem under construction. -/
structure Builder (α : Type) where
  columns : Array (Column α) := #[]
  rowBounds : Array (RowBounds α) := #[]
  entries : Array (Entry α) := #[]
  sosSets : Array (List Nat) := #[]

namespace Builder

variable {α : Type}

/-- Adds a column; its index is the number of columns before it. -/
def addColumn (b : Builder α) (objective lower upper : α) (integer : Bool) : Builder α :=
  { b with columns := b.columns.push ⟨objective, lower, upper, integer, defaultPriority⟩ }

/-- Adds a column that holds zero or one. -/
def addBinary [Scalar α] (b : Builder α) (objective : α) : Builder α :=
  b.addColumn objective 0 1 true

/-- Sets the priority of a column. -/
def setPriority (b : Builder α) (c : Nat) (priority : Int) : Except (Error α) (Builder α) :=
  if c < b.columns.size then
    .ok { b with columns := b.columns.modify c fun k => { k with priority } }
  else
    .error (.entryOutOfRange 0 c)

/-- Adds a row; its index is the number of rows before it. -/
def addRow (b : Builder α) (lower upper : α) (entries : List (Nat × α)) :
    Except (Error α) (Builder α) :=
  let r := b.rowBounds.size
  match entries.find? fun e => b.columns.size ≤ e.1 with
  | some e => .error (.entryOutOfRange r e.1)
  | none => .ok { b with
      rowBounds := b.rowBounds.push ⟨lower, upper⟩
      entries := b.entries ++ (entries.map fun e => ⟨r, e.1, e.2⟩).toArray }

/-- Adds a special ordered set. -/
def addSos (b : Builder α) (members : List Nat) : Builder α :=
  { b with sosSets := b.sosSets.push members }

/-- The problem of all steps. -/
def build [Scalar α] (b : Builder α) : Except (Error α) (Problem α) :=
  match h : Matrix.ofEntries? b.rowBounds.size b.columns.size b.entries.toList with
  | .error e => .error e
  | .ok matrix => .ok {
      columns := b.columns
      rowBounds := b.rowBounds
      matrix := matrix
      sosSets := b.sosSets.toList
      numCols_matrix := (Matrix.size_of_ofEntries? h).2
      numRows_matrix := (Matrix.size_of_ofEntries? h).1 }

end Builder

end PrimalHeuristics
