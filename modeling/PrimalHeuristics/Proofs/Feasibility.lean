import Mathlib.Tactic
import PrimalHeuristics.SubProblem

/-!
# Feasible vectors

The checks of the library read vectors entry by entry and stop at a vector that is too short. On
vectors of the right lengths they never stop, and this module says what they answer then.

* `Line.dot`: the product of a row with a vector;
* `Problem.IsFeasible`, `SubProblem.IsFeasible`: a vector keeps bounds, integrality and rows, each
  up to its tolerance;
* `Problem.isFeasible_eq`, `SubProblem.isFeasible_eq`: that is what the checks decide.
-/

namespace PrimalHeuristics

variable {α : Type}

/-- A vector after an assignment inside of it. -/
theorem getD_setIfInBounds {x : Array α} {i c : Nat} {v d : α} (hi : i < x.size) :
    (x.setIfInBounds i v).getD c d = if i = c then v else x.getD c d := by
  rw [Array.getD_eq_getD_getElem?, Array.getElem?_setIfInBounds, Array.getD_eq_getD_getElem?]
  by_cases h : i = c
  · subst h
    rw [if_pos rfl, if_pos hi, if_pos rfl, Option.getD_some]
  · rw [if_neg h, if_neg h]

variable [Scalar α]

/-! ### Rows -/

/-- The product of a row with a vector. -/
def Line.dot (l : Line α) (x : Array α) : α :=
  l.foldl (fun s e => s + e.2 * x.getD e.1 0) (-0)

theorem Line.activity_eq {l : Line α} {x : Array α} (h : ∀ e ∈ l, e.1 < x.size) :
    l.activity x = .ok (l.dot x) := by
  unfold Line.activity Line.dot
  refine Checked.foldlM_eq (fun s e he => ?_) _
  rw [Checked.read_eq_getD (h e he) 0]
  rfl

namespace Matrix

theorem lt_of_mem_row {m : Matrix α} {r : Nat} {e : Nat × α} (h : e ∈ m.row r) :
    e.1 < m.numCols :=
  (m.ordered_row r).2 e h

theorem row_eq_getElem {m : Matrix α} {r : Nat} (h : r < m.rows.size) : m.row r = m.rows[r] := by
  simp [row, Array.getD, h]

theorem activities_eq {m : Matrix α} {x : Array α} (h : m.numCols ≤ x.size) :
    m.activities x = .ok (m.rows.map (·.dot x)) := by
  have hrows : m.rows.toList.mapM (fun l => l.activity x) = .ok (m.rows.toList.map (·.dot x)) :=
    Checked.mapM_eq fun l hl => Line.activity_eq fun e he =>
      ((m.rows_ordered l (Array.mem_toList_iff.1 hl)).2 e he).trans_le h
  unfold activities
  rw [Array.mapM_eq_mapM_toList, hrows, Checked.ok_map, ← Array.toList_map, Array.toArray_toList]

/-- An entry of the activities. -/
theorem getD_map_dot {m : Matrix α} {r : Nat} (hr : r < m.numRows) (x : Array α) :
    (m.rows.map (·.dot x)).getD r 0 = (m.row r).dot x := by
  have hr : r < m.rows.size := hr
  simp [Array.getD, hr, row_eq_getElem hr]

end Matrix

/-! ### Columns -/

/-- A value keeps the bounds of a column and its integrality. -/
def IsWithin (integer : Bool) (v lower upper : α) : Prop :=
  lower - Scalar.feasTol ≤ v ∧ v ≤ upper + Scalar.feasTol ∧
    (integer = true → Scalar.isIntegral v = true)

instance (integer : Bool) (v lower upper : α) : Decidable (IsWithin integer v lower upper) :=
  inferInstanceAs (Decidable (_ ∧ _ ∧ (_ → _)))

theorem withinBounds_eq {integer : Bool} {x lower upper : Array α} {c : Nat} (hx : c < x.size)
    (hl : c < lower.size) (hu : c < upper.size) :
    withinBounds integer x lower upper c =
      .ok (decide (IsWithin integer (x.getD c 0) (lower.getD c 0) (upper.getD c 0))) := by
  unfold withinBounds IsWithin
  rw [Checked.read_eq_getD hx 0, Checked.read_eq_getD hl 0, Checked.read_eq_getD hu 0]
  simp only [Checked.ok_bind, Checked.pure_eq]
  generalize x.getD c 0 = v, lower.getD c 0 = l, upper.getD c 0 = u
  by_cases h : l - Scalar.feasTol ≤ v
  · cases integer <;> simp [h]
  · simp [h]

/-- The vector has one entry between the given bounds for each of `n` columns. -/
def AllWithin (n : Nat) (integer : Nat → Bool) (x : Array α) (b : Box α) : Prop :=
  ∀ c < n, IsWithin (integer c) (x.getD c 0) (b.lower.getD c 0) (b.upper.getD c 0)

instance (n : Nat) (integer : Nat → Bool) (x : Array α) (b : Box α) :
    Decidable (AllWithin n integer x b) :=
  inferInstanceAs (Decidable (∀ c < n, _))

/-- All vectors of a box have one entry for each column. -/
def Box.HasSize (b : Box α) (n : Nat) : Prop :=
  b.lower.size = n ∧ b.upper.size = n

theorem allM_withinBounds {n : Nat} {integer : Nat → Bool} {x : Array α} {b : Box α}
    (hx : x.size = n) (hb : b.HasSize n) :
    ((List.range n).allM fun c => withinBounds (integer c) x b.lower b.upper c) =
      .ok (decide (AllWithin n integer x b)) := by
  obtain ⟨hl, hu⟩ := hb
  rw [Checked.allM_eq (g := fun c => decide (IsWithin (integer c) (x.getD c 0)
    (b.lower.getD c 0) (b.upper.getD c 0)))]
  · rw [Except.ok.injEq, Bool.eq_iff_iff, List.all_eq_true, decide_eq_true_iff, AllWithin]
    simp only [List.mem_range, decide_eq_true_eq]
  · intro c hc
    have hc := List.mem_range.1 hc
    exact withinBounds_eq (by omega) (by omega) (by omega)

/-! ### Problems -/

/-- The vector keeps the given column bounds, integrality and all rows, up to the tolerances. -/
def Problem.IsFeasible (p : Problem α) (x : Array α) (b : Box α) : Prop :=
  AllWithin p.numCols p.isInteger x b ∧
    ∀ r < p.numRows, ¬ Scalar.feasTol < (p.boundsOf r).violation ((p.matrix.row r).dot x)

instance (p : Problem α) (x : Array α) (b : Box α) : Decidable (p.IsFeasible x b) :=
  inferInstanceAs (Decidable (_ ∧ ∀ r < p.numRows, _))

theorem Problem.mem_violatedRows {p : Problem α} {a : Array α} {r : Nat} :
    r ∈ p.violatedRows a ↔
      r < p.numRows ∧ Scalar.feasTol < (p.boundsOf r).violation (a.getD r 0) := by
  rw [violatedRows, List.mem_filter, List.mem_range, decide_eq_true_iff]

/-- The cost of a vector, column by column. -/
theorem Problem.objectiveValue_eq (p : Problem α) {x : Array α} (hx : x.size = p.numCols) :
    p.objectiveValue x =
      Scalar.sum ((List.range p.numCols).map fun c => p.cost c * x.getD c 0) := by
  unfold Problem.objectiveValue
  congr 1
  refine List.ext_getElem (by simp [hx, Problem.numCols]) fun c hc _ => ?_
  have hp : c < p.columns.size := by simp at hc; omega
  have hc : c < x.size := by simp at hc; omega
  simp [Problem.cost, Array.getD, hp, hc]

theorem Problem.isFeasible_eq {p : Problem α} {x : Array α} {b : Box α} (hx : x.size = p.numCols)
    (hb : b.HasSize p.numCols) :
    p.isFeasible x b.lower b.upper = .ok (decide (p.IsFeasible x b)) := by
  unfold Problem.isFeasible
  rw [if_neg (by simp [hx]), allM_withinBounds hx hb,
    Matrix.activities_eq (by rw [p.numCols_matrix, hx, Problem.numCols])]
  simp only [Checked.ok_bind, Checked.pure_eq, decide_eq_true_eq]
  by_cases h : AllWithin p.numCols p.isInteger x b
  · rw [if_pos h, Except.ok.injEq, Bool.eq_iff_iff, List.isEmpty_iff, Problem.violatedRows,
      List.filter_eq_nil_iff, decide_eq_true_iff, Problem.IsFeasible, and_iff_right h]
    simp only [List.mem_range, decide_eq_true_eq]
    exact forall₂_congr fun r hr => by
      rw [Matrix.getD_map_dot (hr.trans_eq p.numRows_matrix.symm)]
  · rw [if_neg h]
    simp only [Problem.IsFeasible, h, false_and, decide_false]

/-! ### Sub-problems -/

/-- The vector keeps the given column bounds, integrality and all rows, up to the tolerances. -/
def SubProblem.IsFeasible (s : SubProblem α) (x : Array α) (b : Box α) : Prop :=
  AllWithin s.numCols s.isInteger x b ∧
    ∀ k < s.numRows, (s.boundsOf k).violation ((s.matrix.row k).dot x) ≤ Scalar.feasTol

instance (s : SubProblem α) (x : Array α) (b : Box α) : Decidable (s.IsFeasible x b) :=
  inferInstanceAs (Decidable (_ ∧ ∀ k < s.numRows, _))

/-- The cost of a column, per unit. -/
def SubProblem.cost (s : SubProblem α) (j : Nat) : α :=
  (s.columns[j]?.map (·.objective)).getD 0

/-- The cost of a vector, column by column. -/
theorem SubProblem.objectiveValue_eq (s : SubProblem α) {x : Array α} (hx : x.size = s.numCols) :
    s.objectiveValue x =
      s.offset + Scalar.sum ((List.range s.numCols).map fun j => s.cost j * x.getD j 0) := by
  unfold SubProblem.objectiveValue
  congr 2
  refine List.ext_getElem (by simp [hx, SubProblem.numCols]) fun j hj _ => ?_
  have hs : j < s.columns.size := by simp at hj; omega
  have hj : j < x.size := by simp at hj; omega
  simp [SubProblem.cost, Array.getD, hs, hj]

theorem SubProblem.lt_of_mem_row {s : SubProblem α} {r : Nat} {e : Nat × α}
    (he : e ∈ s.matrix.row r) : e.1 < s.numCols := by
  have := Matrix.lt_of_mem_row he
  rwa [s.numCols_matrix] at this

theorem SubProblem.hasSize_box (s : SubProblem α) : s.box.HasSize s.numCols := by
  simp [Box.HasSize, SubProblem.box, SubProblem.numCols]

theorem SubProblem.isFeasible_eq {s : SubProblem α} {x : Array α} {b : Box α}
    (hx : x.size = s.numCols) (hb : b.HasSize s.numCols) :
    s.isFeasible x b = .ok (decide (s.IsFeasible x b)) := by
  have hsize : s.rows.size = s.matrix.rows.size := s.numRows_matrix.symm
  unfold SubProblem.isFeasible
  rw [allM_withinBounds hx hb,
    Matrix.activities_eq (by rw [s.numCols_matrix, hx, SubProblem.numCols])]
  simp only [Checked.ok_bind, Checked.pure_eq, decide_eq_true_eq]
  by_cases h : AllWithin s.numCols s.isInteger x b
  · rw [if_pos h, Except.ok.injEq, Bool.eq_iff_iff, List.all_eq_true, decide_eq_true_iff,
      SubProblem.IsFeasible, and_iff_right h, List.forall_mem_iff_forall_getElem]
    simp only [List.length_zip, List.getElem_zip, decide_eq_true_eq, Array.toList_map,
      Array.length_toList, List.length_map, hsize, min_self, Array.getElem_toList,
      List.getElem_map, SubProblem.numRows]
    refine forall₂_congr fun k hk => ?_
    rw [Matrix.row_eq_getElem hk]
    simp [SubProblem.boundsOf, hsize, hk]
  · rw [if_neg h]
    simp only [SubProblem.IsFeasible, h, false_and, decide_false]

/-- A sub-problem without columns has no rows either. -/
theorem SubProblem.numRows_eq_zero {s : SubProblem α} (h : s.numCols = 0) : s.numRows = 0 := by
  have hsize : s.matrix.rows.size = s.numRows := s.numRows_matrix
  by_contra hne
  have hr : 0 < s.matrix.rows.size := by omega
  obtain ⟨e, he⟩ := List.exists_mem_of_ne_nil _ (s.rows_nonempty _ (Array.getElem_mem hr))
  rw [← Matrix.row_eq_getElem hr] at he
  have := SubProblem.lt_of_mem_row he
  omega

end PrimalHeuristics
