import PrimalHeuristics.Proofs.Feasibility

/-!
# Columns of a matrix

A matrix keeps its columns beside its rows, and both hold the same entries: this module moves between
the two views.

* `Line.lookup_eq_some`, `Line.lookup_map`: what a line holds at an index;
* `Matrix.mem_column`, `Matrix.increasing_column`: a column holds the entries of all rows for it, in
  the order of the rows;
* `Line.getD_foldl_modify`, `Line.getD_addTo`: a table that is changed by a line, entry by entry.
-/

namespace PrimalHeuristics

variable {α : Type}

/-- A vector after a change of one entry. -/
theorem getD_modify {x : Array α} {i c : Nat} {f : α → α} {d : α} (hc : c < x.size) :
    (x.modify i f).getD c d = if i = c then f (x.getD c d) else x.getD c d := by
  rw [Array.getD_eq_getD_getElem?, Array.getElem?_modify, Array.getD_eq_getD_getElem?,
    Array.getElem?_eq_getElem hc]
  split <;> rfl

namespace Line

/-- The indices increase strictly, so no index comes twice. -/
def Increasing (l : Line α) : Prop :=
  l.Pairwise fun a b => a.1 < b.1

/-- A line holds at most one entry for each index. -/
theorem lookup_eq_some {l : Line α} (h : l.Increasing) {c : Nat} {v : α} :
    l.lookup c = some v ↔ (c, v) ∈ l := by
  induction l with
  | nil => simp
  | cons e l ih =>
    obtain ⟨d, w⟩ := e
    obtain ⟨hd, hl⟩ := List.pairwise_cons.1 h
    rw [List.lookup_cons, List.mem_cons, ← ih hl, Prod.mk.injEq]
    by_cases hc : c = d
    · subst hc
      have hnone : l.lookup c ≠ some v := fun hv => lt_irrefl c (hd (c, v) ((ih hl).1 hv))
      simp [hnone, eq_comm]
    · have hne : (c == d) = false := by simpa using hc
      simp [hc, hne]

theorem lookup_eq_none {l : Line α} {c : Nat} : l.lookup c = none ↔ ∀ e ∈ l, e.1 ≠ c := by
  rw [List.lookup_eq_none_iff]
  exact forall₂_congr fun e _ => by rw [bne_iff_ne, ne_comm]

/-- A line whose values are all changed by one rule. -/
theorem lookup_map (l : Line α) (f : α → α) (c : Nat) :
    (l.map fun e => (e.1, f e.2)).lookup c = (l.lookup c).map f := by
  induction l with
  | nil => rfl
  | cons e l ih =>
    obtain ⟨i, a⟩ := e
    rw [List.map_cons, List.lookup_cons, List.lookup_cons, ih]
    cases c == i <;> rfl

section Table

variable {β : Type} (f : β → α → β)

/-- A table that is changed at the indices of a line keeps its size. -/
theorem size_foldl_modify (l : Line α) (t : Array β) :
    (l.foldl (fun t e => t.modify e.1 (f · e.2)) t).size = t.size := by
  induction l generalizing t with
  | nil => rfl
  | cons e l ih => rw [List.foldl_cons, ih, Array.size_modify]

/-- A table that is changed at the indices of a line, by the values of the line. -/
theorem getD_foldl_modify {l : Line α} (hl : l.Increasing) {t : Array β} {c : Nat}
    (hc : c < t.size) (d : β) :
    (l.foldl (fun t e => t.modify e.1 (f · e.2)) t).getD c d =
      (l.lookup c).elim (t.getD c d) (f (t.getD c d)) := by
  induction l generalizing t with
  | nil => rfl
  | cons e l ih =>
    obtain ⟨i, a⟩ := e
    obtain ⟨hi, hl⟩ := List.pairwise_cons.1 hl
    rw [List.foldl_cons, ih hl (by simpa using hc), getD_modify hc, List.lookup_cons]
    by_cases hic : i = c
    · subst hic
      have hnone : l.lookup i = none := lookup_eq_none.2 fun e he => (hi e he).ne'
      simp [hnone]
    · have hne : (c == i) = false := by simpa using Ne.symm hic
      simp [hic, hne]

end Table

variable [Scalar α]

/-- Adds the entries of a line to those of a vector. -/
def addTo (l : Line α) (y : Array α) : Array α :=
  l.foldl (fun y e => y.modify e.1 (· + e.2)) y

@[simp] theorem size_addTo (l : Line α) (y : Array α) : (l.addTo y).size = y.size :=
  size_foldl_modify (· + ·) l y

theorem getD_modify_add {y : Array α} {i r : Nat} {v : α} (hr : r < y.size) :
    (y.modify i (· + v)).getD r 0 = if i = r then y.getD r 0 + v else y.getD r 0 :=
  getD_modify hr

/-- Each entry of the line is added once. -/
theorem getD_addTo {l : Line α} (h : l.Increasing) {y : Array α} {r : Nat} (hr : r < y.size) :
    (l.addTo y).getD r 0 = match l.lookup r with
      | some v => y.getD r 0 + v
      | none => y.getD r 0 := by
  refine (getD_foldl_modify (· + ·) h hr 0).trans ?_
  cases l.lookup r <;> rfl

end Line

namespace Matrix

variable [Scalar α]

theorem increasing_row (m : Matrix α) (r : Nat) : (m.row r).Increasing :=
  (m.ordered_row r).1

/-- A column, row by row. -/
theorem column_eq (m : Matrix α) {c : Nat} (hc : c < m.numCols) :
    m.column c = (List.range m.numRows).filterMap fun r =>
      ((m.row r).lookup c).map fun v => (r, v) := by
  have hzip : m.rows.toList.zipIdx = (List.range m.numRows).map fun r => (m.row r, r) := by
    refine List.ext_getElem (by simp [numRows]) fun i hi _ => ?_
    have hi : i < m.rows.size := by simpa using hi
    simp [row, Array.getD, hi]
  unfold column
  rw [m.cols_eq, Array.getD_eq_getD_getElem?, Array.getElem?_map, Array.getElem?_range,
    if_pos hc, Option.map_some, Option.getD_some, hzip, List.filterMap_map]
  rfl

theorem column_of_le (m : Matrix α) {c : Nat} (hc : m.numCols ≤ c) : m.column c = [] := by
  rw [column, Array.getD_eq_getD_getElem?, Array.getElem?_eq_none (by simpa using hc),
    Option.getD_none]

theorem row_of_le (m : Matrix α) {r : Nat} (hr : m.numRows ≤ r) : m.row r = [] := by
  rw [row, Array.getD_eq_getD_getElem?, Array.getElem?_eq_none hr, Option.getD_none]

/-- A column holds the entries that the rows have for it. -/
theorem mem_column {m : Matrix α} {c r : Nat} {v : α} :
    (r, v) ∈ m.column c ↔ (c, v) ∈ m.row r := by
  rcases Nat.lt_or_ge c m.numCols with hc | hc
  · rw [m.column_eq hc, List.mem_filterMap]
    constructor
    · rintro ⟨s, -, hs⟩
      obtain ⟨w, hw, he⟩ := Option.map_eq_some_iff.1 hs
      obtain ⟨rfl, rfl⟩ := Prod.mk.inj he
      exact (Line.lookup_eq_some (m.increasing_row s)).1 hw
    · intro he
      have hr : r < m.numRows := by
        by_contra hr
        rw [m.row_of_le (Nat.le_of_not_lt hr)] at he
        contradiction
      exact ⟨r, List.mem_range.2 hr,
        by rw [(Line.lookup_eq_some (m.increasing_row r)).2 he, Option.map_some]⟩
  · rw [m.column_of_le hc]
    refine iff_of_false List.not_mem_nil fun he => ?_
    exact absurd ((m.ordered_row r).2 _ he) (Nat.not_lt.2 hc)

/-- The rows of a column come in order. -/
theorem increasing_column (m : Matrix α) (c : Nat) : (m.column c).Increasing := by
  rcases Nat.lt_or_ge c m.numCols with hc | hc
  · rw [m.column_eq hc]
    refine List.pairwise_filterMap.2 (List.pairwise_lt_range.imp ?_)
    intro r s hrs a ha b hb
    obtain ⟨-, -, rfl⟩ := Option.map_eq_some_iff.1 ha
    obtain ⟨-, -, rfl⟩ := Option.map_eq_some_iff.1 hb
    exact hrs
  · rw [m.column_of_le hc]
    exact .nil

/-- Both views agree at each place. -/
theorem lookup_column (m : Matrix α) (c r : Nat) :
    (m.column c).lookup r = (m.row r).lookup c := by
  refine Option.ext fun v => ?_
  rw [Line.lookup_eq_some (m.increasing_column c), Line.lookup_eq_some (m.increasing_row r),
    mem_column]

theorem lt_of_mem_column {m : Matrix α} {c : Nat} {e : Nat × α} (he : e ∈ m.column c) :
    e.1 < m.numRows := by
  by_contra hr
  have hrow := mem_column.1 he
  rw [m.row_of_le (Nat.le_of_not_lt hr)] at hrow
  contradiction

end Matrix

end PrimalHeuristics
