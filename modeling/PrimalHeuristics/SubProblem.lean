import PrimalHeuristics.Problem

/-!
# Restricting a problem to some of its columns

`SubProblem.restrict` keeps the free columns of a problem and fixes all others at given values. What
the fixed columns contribute to a row is taken off its bounds, and their cost becomes an offset. A
row without a free column is checked at once: if it is violated, no choice of the free columns helps
and there is no sub-problem; otherwise the row is dropped.

* `SubProblem.restrict`: the sub-problem, or `none` if a row without a free column is violated;
* `SubProblem.expand`: a vector of the problem from one of the sub-problem.
-/

namespace PrimalHeuristics

/-- A column that a sub-problem keeps, with its index in the problem. -/
structure SubColumn (α : Type) where
  origin : Nat
  objective : α
  lower : α
  upper : α
  integer : Bool

/-- A row that a sub-problem keeps, with its index in the problem. -/
structure SubRow (α : Type) where
  origin : Nat
  bounds : RowBounds α

/-- The free columns of a problem whose other columns are fixed. -/
structure SubProblem (α : Type) [Scalar α] where
  columns : Array (SubColumn α)
  rows : Array (SubRow α)
  matrix : Matrix α
  /-- The cost of the fixed columns. -/
  offset : α
  /-- The number of rows and columns of the problem. -/
  originalSize : Nat
  numCols_matrix : matrix.numCols = columns.size
  numRows_matrix : matrix.numRows = rows.size
  /-- Rows without a free column are checked at once, and dropped. -/
  rows_nonempty : ∀ l ∈ matrix.rows, l ≠ []

/-- Lower and upper bounds of the columns. -/
structure Box (α : Type) where
  lower : Array α
  upper : Array α

namespace SubProblem

variable {α : Type}

/-! ### Free columns -/

/-- The column is kept. -/
def isFree (free : Array Bool) (c : Nat) : Bool :=
  free.getD c false

/-- The index that a free column gets: the number of free columns before it. -/
def rank (free : Array Bool) (c : Nat) : Nat :=
  (List.range c).countP (isFree free)

theorem rank_succ (free : Array Bool) (c : Nat) :
    rank free (c + 1) = rank free c + if isFree free c then 1 else 0 := by
  simp [rank, List.range_succ, List.countP_append, List.countP_cons]

theorem rank_mono (free : Array Bool) {c d : Nat} (h : c ≤ d) : rank free c ≤ rank free d := by
  induction h with
  | refl => exact Nat.le_refl _
  | step _ ih => rw [rank_succ]; omega

theorem rank_lt_rank {free : Array Bool} {c d : Nat} (hc : isFree free c = true) (h : c < d) :
    rank free c < rank free d := by
  have := rank_mono free (Nat.succ_le_of_lt h)
  rw [Nat.succ_eq_add_one, rank_succ, if_pos hc] at this
  omega

/-- The free columns among the first `n`, in order. -/
def freeColumns (free : Array Bool) (n : Nat) : List Nat :=
  (List.range n).filter (isFree free)

theorem length_freeColumns (free : Array Bool) (n : Nat) :
    (freeColumns free n).length = rank free n := by
  simp [freeColumns, rank, List.countP_eq_length_filter]

/-- The free entries of a row, under their new indices. -/
def freeEntries (free : Array Bool) (l : Line α) : Line α :=
  l.filterMap fun e => if isFree free e.1 then some (rank free e.1, e.2) else none

theorem ordered_freeEntries {free : Array Bool} {n : Nat} {l : Line α} (h : l.Ordered n) :
    (freeEntries free l).Ordered (rank free n) := by
  constructor
  · refine List.pairwise_filterMap.2 (h.1.imp ?_)
    intro a b hab a' ha b' hb
    split at ha
    · split at hb
      · rename_i hfa _
        cases ha; cases hb
        exact rank_lt_rank hfa hab
      · cases hb
    · cases ha
  · intro a ha
    obtain ⟨e, he, hea⟩ := List.mem_filterMap.1 ha
    split at hea
    · rename_i hf
      cases hea
      exact rank_lt_rank hf (h.2 e he)
    · cases hea

theorem noZeros_freeEntries [Scalar α] {free : Array Bool} {l : Line α} (h : l.NoZeros) :
    (freeEntries free l).NoZeros := by
  intro a ha
  obtain ⟨e, he, hea⟩ := List.mem_filterMap.1 ha
  split at hea
  · cases hea
    exact h e he
  · cases hea

variable [Scalar α]

/-! ### Sizes -/

def numCols (s : SubProblem α) : Nat :=
  s.columns.size

def numRows (s : SubProblem α) : Nat :=
  s.rows.size

/-- The number of rows and columns. -/
def size (s : SubProblem α) : Nat :=
  s.numCols + s.numRows

/-- The bounds of all columns. -/
def box (s : SubProblem α) : Box α :=
  ⟨s.columns.map (·.lower), s.columns.map (·.upper)⟩

/-- The column has to hold a whole number. -/
def isInteger (s : SubProblem α) (j : Nat) : Bool :=
  s.columns[j]?.any (·.integer)

/-- The bounds of a row. -/
def boundsOf (s : SubProblem α) (r : Nat) : RowBounds α :=
  (s.rows[r]?.map (·.bounds)).getD ⟨0, 0⟩

/-- The sub-problem has at most a fraction of the rows and columns of its problem. -/
def isWithinFraction (s : SubProblem α) (fraction : α) : Bool :=
  Scalar.ofNat s.size ≤ fraction * Scalar.ofNat s.originalSize

/-- The first continuous column whose bounds leave a choice, by its index in the problem. -/
def freeContinuousColumn (s : SubProblem α) : Option Nat :=
  (s.columns.find? fun k => !k.integer && k.lower < k.upper).map (·.origin)

/-! ### Restriction -/

/-- What the fixed columns contribute to a row. -/
def fixedActivity (free : Array Bool) (values : Array α) (l : Line α) : α :=
  l.foldl (fun s e => if isFree free e.1 then s else s + e.2 * values.getD e.1 0) 0

/-- A bound of a row without what the fixed columns contribute; no bound stays none. -/
def shiftBound (bound fixed : α) : α :=
  if Scalar.isBound bound then bound - fixed else bound

/-- The bounds of a row without what the fixed columns contribute. -/
def shiftBounds (b : RowBounds α) (fixed : α) : RowBounds α :=
  ⟨shiftBound b.lower fixed, shiftBound b.upper fixed⟩

/-- The row has no free column, and the fixed ones violate it. -/
def isBlocked (p : Problem α) (free : Array Bool) (values : Array α) (r : Nat) : Bool :=
  (freeEntries free (p.matrix.row r)).isEmpty &&
    Scalar.feasTol < (p.boundsOf r).violation (fixedActivity free values (p.matrix.row r))

/-- The rows with a free column, in order. -/
def keptRows (p : Problem α) (free : Array Bool) : List Nat :=
  (List.range p.numRows).filter fun r => !(freeEntries free (p.matrix.row r)).isEmpty

/-- The rows of the free columns. -/
def freeRows (p : Problem α) (free : Array Bool) : List (Line α) :=
  (keptRows p free).map fun r => freeEntries free (p.matrix.row r)

/-- The matrix of the free columns, from the entries of the rows that are kept. -/
def freeMatrix? (p : Problem α) (free : Array Bool) : Except (Error α) (Matrix α) :=
  Matrix.ofEntries? (keptRows p free).length (rank free p.numCols)
    (Matrix.entriesOf (freeRows p free))

theorem ordered_freeRows (p : Problem α) (free : Array Bool) :
    ∀ l ∈ freeRows p free, l.Ordered (rank free p.numCols) := by
  intro l hl
  obtain ⟨r, -, rfl⟩ := List.mem_map.1 hl
  have h := p.matrix.ordered_row r
  rw [p.numCols_matrix] at h
  exact ordered_freeEntries h

theorem noZeros_freeRows (p : Problem α) (free : Array Bool) :
    ∀ l ∈ freeRows p free, l.NoZeros := by
  intro l hl
  obtain ⟨r, -, rfl⟩ := List.mem_map.1 hl
  exact noZeros_freeEntries (p.matrix.noZeros_row r)

theorem freeRows_ne_nil (p : Problem α) (free : Array Bool) : ∀ l ∈ freeRows p free, l ≠ [] := by
  intro l hl
  obtain ⟨r, hr, rfl⟩ := List.mem_map.1 hl
  simpa using (List.mem_filter.1 hr).2

/-- No entry of the free columns lies outside of their matrix. -/
theorem freeMatrix?_eq (p : Problem α) (free : Array Bool) :
    freeMatrix? p free = .ok (Matrix.ofRows (rank free p.numCols) (freeRows p free).toArray
      (by simpa using ordered_freeRows p free) (by simpa using noZeros_freeRows p free)) := by
  have h := Matrix.ofEntries?_entriesOf (ordered_freeRows p free) (noZeros_freeRows p free)
  rwa [show (freeRows p free).length = (keptRows p free).length by simp [freeRows]] at h

theorem rows_of_freeMatrix? {p : Problem α} {free : Array Bool} {m : Matrix α}
    (h : freeMatrix? p free = .ok m) :
    m.numCols = rank free p.numCols ∧ m.rows = (freeRows p free).toArray := by
  rw [freeMatrix?_eq] at h
  cases h
  exact ⟨rfl, rfl⟩

/-- The sub-problem of the free columns with their matrix, for vectors of the right lengths. -/
def ofFree (p : Problem α) (values : Array α) (free : Array Bool) (b : Box α) (m : Matrix α)
    (h : freeMatrix? p free = .ok m) : SubProblem α where
  columns := ((freeColumns free p.numCols).map fun c =>
    { origin := c
      objective := p.cost c
      lower := b.lower.getD c 0
      upper := b.upper.getD c 0
      integer := p.isInteger c }).toArray
  rows := ((keptRows p free).map fun r =>
    { origin := r
      bounds := shiftBounds (p.boundsOf r)
        (fixedActivity free values (p.matrix.row r)) }).toArray
  matrix := m
  offset := Scalar.sum <| ((List.range p.numCols).filter fun c => !isFree free c).map fun c =>
    p.cost c * values.getD c 0
  originalSize := p.numCols + p.numRows
  numCols_matrix := by simp [rows_of_freeMatrix? h, length_freeColumns]
  numRows_matrix := by simp [Matrix.numRows, rows_of_freeMatrix? h, freeRows]
  rows_nonempty := by simpa [rows_of_freeMatrix? h] using freeRows_ne_nil p free

/-- The first vector that does not have one entry for each column. -/
def checkLengths (n : Nat) : List (VectorRole × Nat) → Except (Error α) Unit
  | [] => .ok ()
  | (role, got) :: rest =>
    if got = n then checkLengths n rest else .error (.vectorLength role n got)

/-- Keeps the columns flagged as free within a box and fixes all others at their values; `none` if
the fixed columns alone violate a row without a free one. -/
def restrict (p : Problem α) (values : Array α) (free : Array Bool) (b : Box α) :
    Except (Error α) (Option (SubProblem α)) := do
  checkLengths p.numCols
    [(.values, values.size), (.freeFlags, free.size), (.lowerBounds, b.lower.size),
      (.upperBounds, b.upper.size)]
  if (List.range p.numRows).any (isBlocked p free values) then
    return none
  else
    match h : freeMatrix? p free with
    | .error e => .error e
    | .ok m => return some (ofFree p values free b m h)

/-! ### Vectors of a sub-problem -/

/-- The cost of a vector, the fixed columns included. -/
def objectiveValue (s : SubProblem α) (x : Array α) : α :=
  s.offset + Scalar.sum (List.zipWith (fun k v => k.objective * v) s.columns.toList x.toList)

/-- The vector keeps the given column bounds, integrality and all rows. -/
def isFeasible (s : SubProblem α) (x : Array α) (b : Box α) : Checked Bool := do
  if ← (List.range s.numCols).allM fun j => withinBounds (s.isInteger j) x b.lower b.upper j then
    let activities ← s.matrix.activities x
    return (s.rows.toList.zip activities.toList).all fun (k, a) =>
      k.bounds.violation a ≤ (Scalar.feasTol : α)
  else
    return false

/-- The vector of the problem: fixed columns from `values`, free ones from `x`. -/
def expand (s : SubProblem α) (values x : Array α) : Checked (Array α) :=
  (s.columns.toList.zipIdx).foldlM (fun full (k, j) => do
    let v ← Checked.read x j
    if k.origin < full.size then return full.setIfInBounds k.origin v
    else .error .outOfRange) values

end SubProblem

end PrimalHeuristics
