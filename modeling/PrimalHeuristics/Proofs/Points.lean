import PrimalHeuristics.Proofs.Exact
import PrimalHeuristics.Proofs.Feasibility

/-!
# Points of rational numbers

Over exact numbers, feasibility is a matter of points: vectors of rational numbers that lie in a
box, are integral in the integer columns and satisfy all rows, without any tolerance.

* `Box.Contains`, `SubProblem.Satisfies`: the points of a box, and those of a sub-problem;
* `Line.valueAt`, `SubProblem.costAt`: activities and costs at a point, and
  `SubProblem.dot_eq_valueAt`, `SubProblem.objectiveValue_eq_costAt`: they are those of vectors;
* `Box.Tightens`: a box inside another one, bound by bound.
-/

namespace PrimalHeuristics

open Exact

/-! ### Points -/

/-- The activity of a row at a point. -/
def Line.valueAt (l : Line Exact) (v : Nat → ℚ) : ℚ :=
  (l.map fun e => e.2.toRat * v e.1).sum

namespace Exact

theorem dot_eq_sum (l : Line Exact) (x : Array Exact) :
    l.dot x = (l.map fun e => e.2 * x.getD e.1 0).sum := by
  rw [Line.dot, neg_zero_eq, List.sum_eq_foldl, List.foldl_map]

end Exact

/-- The point lies in the box. -/
def Box.Contains (b : Box Exact) (n : Nat) (v : Nat → ℚ) : Prop :=
  ∀ j < n, b.lower.getD j 0 ≤ finite (v j) ∧ finite (v j) ≤ b.upper.getD j 0

/-- No lower bound has decreased, and no upper bound has increased. -/
def Box.Tightens (c b : Box Exact) : Prop :=
  ∀ j, (c.lower.getD j 0 = b.lower.getD j 0 ∨ b.lower.getD j 0 < c.lower.getD j 0) ∧
    (c.upper.getD j 0 = b.upper.getD j 0 ∨ c.upper.getD j 0 < b.upper.getD j 0)

/-- A finite bound that is kept, or replaced by a greater one. -/
theorem Exact.toRat_le_of_tightens {x y : Exact} {p q : ℚ} (hx : x = finite p) (hy : y = finite q)
    (h : x = y ∨ y < x) : y.toRat ≤ x.toRat := by
  subst hx hy
  rcases h with h | h
  · rw [h]
  · exact ((finite_lt q p).1 h).le

theorem Box.Tightens.refl (b : Box Exact) : b.Tightens b :=
  fun _ => ⟨.inl rfl, .inl rfl⟩

theorem Box.Tightens.trans {a b c : Box Exact} (hab : a.Tightens b) (hbc : b.Tightens c) :
    a.Tightens c := by
  intro j
  obtain ⟨hl, hu⟩ := hab j
  obtain ⟨hl', hu'⟩ := hbc j
  constructor
  · rcases hl with hl | hl
    · rwa [hl]
    · rcases hl' with hl' | hl'
      · exact .inr (hl' ▸ hl)
      · exact .inr (Exact.lt_of_lt_of_le hl' (Exact.le_of_lt hl))
  · rcases hu with hu | hu
    · rwa [hu]
    · rcases hu' with hu' | hu'
      · exact .inr (hu' ▸ hu)
      · exact .inr (Exact.lt_of_lt_of_le hu (Exact.le_of_lt hu'))

theorem Box.Tightens.contains {b c : Box Exact} (h : c.Tightens b) {n : Nat} {v : Nat → ℚ}
    (hv : c.Contains n v) : b.Contains n v := by
  intro j hj
  obtain ⟨hl, hu⟩ := hv j hj
  obtain ⟨hlower, hupper⟩ := h j
  constructor
  · rcases hlower with hlower | hlower
    · rwa [← hlower]
    · exact Exact.le_trans (Exact.le_of_lt hlower) hl
  · rcases hupper with hupper | hupper
    · rwa [← hupper]
    · exact Exact.le_trans hu (Exact.le_of_lt hupper)

namespace SubProblem

/-- Costs and coefficients are rational numbers; only bounds may be infinite. Zero times an infinite
one is no number. -/
structure IsRational (s : SubProblem Exact) : Prop where
  offset : Scalar.isFinite s.offset = true
  cost : ∀ k ∈ s.columns, Scalar.isFinite k.objective = true
  entry : ∀ l ∈ s.matrix.rows, ∀ e ∈ l, Scalar.isFinite e.2 = true

/-- The point is integral in the integer columns, and satisfies all rows. -/
structure Satisfies (s : SubProblem Exact) (v : Nat → ℚ) : Prop where
  integral : ∀ j < s.numCols, s.isInteger j = true → ∃ z : ℤ, v j = z
  rows : ∀ r < s.numRows, (s.boundsOf r).lower ≤ finite ((s.matrix.row r).valueAt v) ∧
    finite ((s.matrix.row r).valueAt v) ≤ (s.boundsOf r).upper

/-- The cost of a point. -/
def costAt (s : SubProblem Exact) (v : Nat → ℚ) : ℚ :=
  s.offset.toRat + ((List.range s.numCols).map fun j => (s.cost j).toRat * v j).sum

theorem IsRational.eq_finite {s : SubProblem Exact} (hs : s.IsRational) {r : Nat} {e : Nat × Exact}
    (he : e ∈ s.matrix.row r) : e.2 = finite e.2.toRat ∧ e.2.toRat ≠ 0 := by
  have hfinite : e.2 = finite e.2.toRat := by
    rcases s.matrix.row_mem r with h | h
    · exact isFinite_iff.1 (hs.entry _ h e he)
    · rw [h] at he
      contradiction
  refine ⟨hfinite, fun h => ?_⟩
  have hzero := s.matrix.noZeros_row r e he
  rw [hfinite, h] at hzero
  contradiction

variable {s : SubProblem Exact} {v : Nat → ℚ}

theorem exists_column {j : Nat} (hj : j < s.numCols) :
    ∃ k ∈ s.columns, s.columns[j]? = some k ∧ s.cost j = k.objective :=
  ⟨s.columns[j], Array.getElem_mem hj, Array.getElem?_eq_getElem hj, by
    simp [cost, Array.getElem?_eq_getElem hj]⟩

/-- The cost of a vector of rational numbers. -/
theorem objectiveValue_eq_costAt (hs : s.IsRational) {x : Array Exact} (hx : x.size = s.numCols)
    (hv : ∀ j < s.numCols, x.getD j 0 = finite (v j)) :
    s.objectiveValue x = finite (s.costAt v) := by
  have hterms : (List.range s.numCols).map (fun j => s.cost j * x.getD j 0) =
      ((List.range s.numCols).map fun j => (s.cost j).toRat * v j).map finite := by
    rw [List.map_map]
    refine List.map_congr_left fun j hj => ?_
    have hj := List.mem_range.1 hj
    obtain ⟨k, hk, -, hcost⟩ := exists_column hj
    obtain ⟨q, hq⟩ : ∃ q, k.objective = finite q := ⟨_, isFinite_iff.1 (hs.cost k hk)⟩
    show s.cost j * x.getD j 0 = finite ((s.cost j).toRat * v j)
    rw [hv j hj, hcost, hq]
    rfl
  rw [s.objectiveValue_eq hx, hterms, sum_eq, sum_finite, isFinite_iff.1 hs.offset, finite_add]
  rfl

/-- The activity of a row at a vector of rational numbers. -/
theorem dot_eq_valueAt (hs : s.IsRational) {x : Array Exact}
    (hx : ∀ j < s.numCols, x.getD j 0 = finite (v j)) (r : Nat) :
    (s.matrix.row r).dot x = finite ((s.matrix.row r).valueAt v) := by
  have hterms : (s.matrix.row r).map (fun e => e.2 * x.getD e.1 0) =
      ((s.matrix.row r).map fun e => e.2.toRat * v e.1).map finite := by
    rw [List.map_map]
    refine List.map_congr_left fun e he => ?_
    obtain ⟨q, hq⟩ : ∃ q, e.2 = finite q := ⟨_, (hs.eq_finite he).1⟩
    show e.2 * x.getD e.1 0 = finite (e.2.toRat * v e.1)
    rw [hx _ (lt_of_mem_row he), hq]
    rfl
  rw [Exact.dot_eq_sum, hterms, sum_finite]
  rfl

end SubProblem

namespace RowBounds

/-- A violation is a number, so it is either above the tolerance or not. -/
theorem not_feasTol_lt_violation (b : RowBounds Exact) (a : Exact) :
    ¬ Scalar.feasTol < b.violation a ↔ b.violation a ≤ Scalar.feasTol := by
  have hnumber : ∀ {x y : Exact}, x < y → y - x ≠ .nan := fun {x y} h => by
    rcases x with q | (_ | _) | _ <;> rcases y with t | (_ | _) | _ <;> simp_all [sub_eq]
  have hle : ∀ {x : Exact}, x ≠ .nan → (¬ Scalar.feasTol < x ↔ x ≤ Scalar.feasTol) :=
    fun {x} h => by
      rcases x with q | (_ | _) | _ <;> simp_all [feasTol_eq]
  unfold violation
  split
  · exact hle (hnumber ‹_›)
  · split
    · exact hle (hnumber ‹_›)
    · exact hle (by simp [zero_eq])

end RowBounds

end PrimalHeuristics
