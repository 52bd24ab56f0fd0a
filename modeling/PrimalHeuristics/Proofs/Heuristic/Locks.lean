import PrimalHeuristics.Heuristic.Locks
import PrimalHeuristics.Proofs.Builder
import PrimalHeuristics.Proofs.Packed

/-!
# Counts of locks

The locks of all columns can be counted column by column, or row by row. Either way a column meets
the rows that have an entry for it in the same order, so the tables are the same; this holds for all
numbers, whatever the bounds of the rows are. A count is the number of the rows that lock, up to the
limit.

* `Locks.ofColumns`, `Locks.ofRows`: both ways to count, for lines wherever they are kept;
* `LockCount.foldl_addRow`: what is counted along a column;
* `Locks.ofRows_eq_ofColumns`: the rows and the columns of a matrix give the same table;
* `Locks.countedAlike`: so they do for every problem that is built, also if its matrix is packed.
-/

namespace PrimalHeuristics

variable {α : Type} [Scalar α]

/-! ### Counts along a column -/

namespace LockCount

theorem bump_min (n : Nat) (holds : Bool) :
    bump (min lockLimit n) holds = min lockLimit (n + holds.toNat) := by
  change min lockLimit (min lockLimit n + holds.toNat) = _
  omega

/-- The rows that lock are counted up to the limit. -/
theorem foldl_addRow (l : Line α) (bounds : Nat → RowBounds α) :
    l.foldl (fun (k : LockCount) e => k.addRow e.2 (bounds e.1)) .zero =
      { down := min lockLimit (l.countP fun e => locksDown e.2 (bounds e.1))
        up := min lockLimit (l.countP fun e => locksUp e.2 (bounds e.1))
        equal := min lockLimit (l.countP fun e => (bounds e.1).lower == (bounds e.1).upper) } := by
  induction l using List.reverseRecOn with
  | nil => rfl
  | append_singleton l e ih =>
    have htoNat (holds : Bool) : (if holds = true then 1 else 0) = holds.toNat := by
      cases holds <;> rfl
    rw [List.foldl_append, ih, List.foldl_cons, List.foldl_nil]
    simp only [addRow, bump_min, List.countP_append, List.countP_cons, List.countP_nil,
      Nat.zero_add, htoNat]

end LockCount

namespace Locks

/-! ### Tables of all columns -/

/-- The locks of all columns, read off lines that hold the columns. -/
def ofColumns (numCols : Nat) (column : Nat → Line α) (bounds : Nat → RowBounds α) : Locks :=
  (Array.range numCols).map fun c =>
    (column c).foldl (fun (k : LockCount) e => k.addRow e.2 (bounds e.1)) .zero

/-- Counts the locks of a line that holds a row with bounds `b`. -/
def addLine (t : Locks) (l : Line α) (b : RowBounds α) : Locks :=
  l.foldl (fun t e => t.modify e.1 (·.addRow e.2 b)) t

/-- The locks of all columns, collected from lines that hold the rows. -/
def ofRows (numRows numCols : Nat) (row : Nat → Line α) (bounds : Nat → RowBounds α) : Locks :=
  (List.range numRows).foldl (fun t r => t.addLine (row r) (bounds r))
    (Array.replicate numCols .zero)

theorem byColumn_eq (p : Problem α) :
    byColumn p = ofColumns p.numCols p.matrix.column p.boundsOf :=
  rfl

theorem byRow_eq (p : Problem α) :
    byRow p = ofRows p.numRows p.numCols p.matrix.row p.boundsOf :=
  rfl

@[simp] theorem size_ofColumns (n : Nat) (column : Nat → Line α) (bounds : Nat → RowBounds α) :
    (ofColumns n column bounds).size = n := by
  simp [ofColumns]

@[simp] theorem size_addLine (t : Locks) (l : Line α) (b : RowBounds α) :
    (t.addLine l b).size = t.size :=
  Line.size_foldl_modify (fun (k : LockCount) a => k.addRow a b) l t

theorem size_foldl_addLine (rows : List Nat) (row : Nat → Line α) (bounds : Nat → RowBounds α)
    (t : Locks) :
    (rows.foldl (fun t r => t.addLine (row r) (bounds r)) t).size = t.size := by
  induction rows generalizing t with
  | nil => rfl
  | cons r rows ih => rw [List.foldl_cons, ih, size_addLine]

/-- Rows that are counted one after another: a column meets those that have an entry for it. -/
theorem getD_foldl_addLine {row : Nat → Line α} (hrow : ∀ r, (row r).Increasing)
    (bounds : Nat → RowBounds α) (rows : List Nat) {t : Locks} {c : Nat} (hc : c < t.size) :
    (rows.foldl (fun t r => t.addLine (row r) (bounds r)) t).getD c .zero =
      (rows.filterMap fun r => ((row r).lookup c).map fun a => (r, a)).foldl
        (fun k e => k.addRow e.2 (bounds e.1)) (t.getD c .zero) := by
  induction rows generalizing t with
  | nil => rfl
  | cons r rows ih =>
    have hline : (t.addLine (row r) (bounds r)).getD c .zero =
        ((row r).lookup c).elim (t.getD c .zero) ((t.getD c .zero).addRow · (bounds r)) :=
      Line.getD_foldl_modify (fun (k : LockCount) a => k.addRow a (bounds r)) (hrow r) hc .zero
    rw [List.foldl_cons, ih (by simpa using hc), hline, List.filterMap_cons]
    cases (row r).lookup c <;> rfl

/-- The rows of a matrix give the same table as its columns. -/
theorem ofRows_eq_ofColumns (m : Matrix α) (bounds : Nat → RowBounds α) :
    ofRows m.numRows m.numCols m.row bounds = ofColumns m.numCols m.column bounds := by
  have hsize : (ofRows m.numRows m.numCols m.row bounds).size = m.numCols := by
    rw [ofRows, size_foldl_addLine, Array.size_replicate]
  apply Array.ext
  · rw [hsize, size_ofColumns]
  · intro c hrows hcols
    have hc : c < m.numCols := hsize ▸ hrows
    have hcount := getD_foldl_addLine m.increasing_row bounds (List.range m.numRows)
      (t := Array.replicate m.numCols .zero) (c := c) (by simpa using hc)
    rw [← m.column_eq hc] at hcount
    have hzero : (Array.replicate m.numCols LockCount.zero).getD c .zero = .zero := by
      simp [Array.getD_eq_getD_getElem?, hc]
    have hget : (ofRows m.numRows m.numCols m.row bounds).getD c .zero =
        (ofRows m.numRows m.numCols m.row bounds)[c] := by
      rw [Array.getD_eq_getD_getElem?, Array.getElem?_eq_getElem hrows, Option.getD_some]
    rw [← hget, ofRows, hcount, hzero]
    simp [ofColumns]

/-- Lines that agree below the numbers of rows and columns give the same tables. -/
theorem ofColumns_congr {n : Nat} {column column' : Nat → Line α} {bounds : Nat → RowBounds α}
    (h : ∀ c < n, column c = column' c) :
    ofColumns n column bounds = ofColumns n column' bounds := by
  apply Array.map_congr_left
  intro c hc
  rw [h c (by simpa using hc)]

theorem ofRows_congr {m n : Nat} {row row' : Nat → Line α} {bounds : Nat → RowBounds α}
    (h : ∀ r < m, row r = row' r) : ofRows m n row bounds = ofRows m n row' bounds := by
  apply List.foldl_ext
  intro t r hr
  rw [h r (List.mem_range.1 hr)]

/-- The locks of a problem do not depend on how they are counted: column by column or row by row, in
its matrix or in a packed one. -/
structure CountedAlike (p : Problem α) (q : PackedMatrix α) : Prop where
  byRow : Locks.byRow p = Locks.byColumn p
  packedByColumn : ofColumns q.numCols q.byCol.line p.boundsOf = Locks.byColumn p
  packedByRow : ofRows q.numRows q.numCols q.byRow.line p.boundsOf = Locks.byColumn p

theorem byRow_eq_byColumn (p : Problem α) : byRow p = byColumn p := by
  rw [byRow_eq, byColumn_eq, Problem.numRows, Problem.numCols, ← p.numRows_matrix,
    ← p.numCols_matrix, ofRows_eq_ofColumns]

theorem countedAlike_of_packs {p : Problem α} {q : PackedMatrix α} (h : q.Packs p.matrix) :
    CountedAlike p q where
  byRow := byRow_eq_byColumn p
  packedByColumn := by
    rw [h.numCols_eq, ofColumns_congr h.line_byCol, p.numCols_matrix]
    rfl
  packedByRow := by
    rw [h.numRows_eq, h.numCols_eq, ofRows_congr h.line_byRow, p.numRows_matrix, p.numCols_matrix]
    exact byRow_eq_byColumn p

/-- All ways to count the locks of a problem that is built in steps give the same table. -/
theorem countedAlike (steps : List (Builder.Step α)) :
    ∃ p q, (Builder.afterAll {} steps).build = .ok p ∧
      PackedMatrix.ofEntries? p.numRows p.numCols (Builder.afterAll {} steps).entries.toList =
        .ok q ∧ CountedAlike p q := by
  have hin := (Builder.holds_afterAll steps).isInside
  obtain ⟨p, hp, hcolumns, hrowBounds, -, hmade⟩ := Builder.exists_build_eq hin
  have hpacked := Matrix.isResultOf_ofEntries? (Builder.afterAll {} steps).rowBounds.size
    (Builder.afterAll {} steps).columns.size (Builder.afterAll {} steps).entries.toList
  rw [Matrix.ofEntries?_of_isInside hin] at hpacked
  obtain ⟨hmade', q, hq, hpacks⟩ := hpacked
  rw [← hmade.unique hmade' fun r c => rfl] at hpacks
  refine ⟨p, q, hp, ?_, countedAlike_of_packs hpacks⟩
  rw [Problem.numRows, Problem.numCols, hcolumns, hrowBounds, hq]

end Locks

end PrimalHeuristics
