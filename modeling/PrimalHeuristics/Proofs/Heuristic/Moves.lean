import PrimalHeuristics.Proofs.Columns
import PrimalHeuristics.Proofs.Heuristic.Totality
import PrimalHeuristics.Proofs.Points

/-!
# The moves of a repair

A repair keeps the activities of all rows beside its point, and updates them through the columns of
the matrix. Over exact numbers they stay the activities of the point, so what a move is tested for is
what it does: it lowers the violation of its row by more than the tolerance, it raises that of any
other row by no more than the tolerance, and it leaves its column between its bounds.

* `Repair.moveColumn_cases`: a column stays, or is moved by a step that was tested;
* `Repair.Holds`: the state belongs to a point of rational numbers, and `Repair.Holds.shift`: a move
  keeps that;
* `Repair.IsMade`: the law of one move, and `Repair.Holds.moveColumn`: each move keeps it;
* `Repair.Moves`, `Repair.exists_moves`: the moves of a whole repair, in order.
-/

namespace PrimalHeuristics

open Exact

/-! ### Points that differ in one column -/

namespace Line

/-- What a line holds at an index, and zero if there is no entry. -/
def coefficient (l : Line Exact) (c : ℕ) : ℚ :=
  ((l.lookup c).map toRat).getD 0

theorem coefficient_of_not_mem {l : Line Exact} {c : ℕ} (h : ∀ e ∈ l, e.1 ≠ c) :
    l.coefficient c = 0 := by
  rw [coefficient, lookup_eq_none.2 h]
  rfl

theorem coefficient_cons (d c : ℕ) (a : Exact) (l : Line Exact) :
    coefficient ((d, a) :: l) c = if c = d then a.toRat else l.coefficient c := by
  unfold coefficient
  rw [List.lookup_cons]
  by_cases h : c = d
  · simp [h]
  · have : (c == d) = false := by simpa using h
    simp [h, this]

/-- The activity at a point that is moved in one column. -/
theorem valueAt_update {l : Line Exact} (h : l.Increasing) (v : ℕ → ℚ) (c : ℕ) (d : ℚ) :
    l.valueAt (Function.update v c (v c + d)) = l.valueAt v + l.coefficient c * d := by
  induction l with
  | nil => simp [valueAt, coefficient]
  | cons e l ih =>
    obtain ⟨i, a⟩ := e
    obtain ⟨hi, hl⟩ := List.pairwise_cons.1 h
    have hcons : ∀ w : ℕ → ℚ, valueAt ((i, a) :: l) w = a.toRat * w i + valueAt l w :=
      fun w => by simp [valueAt]
    rw [hcons, hcons, ih hl, coefficient_cons]
    by_cases hic : c = i
    · -- the index does not come again
      subst hic
      rw [coefficient_of_not_mem fun e he => (hi e he).ne', if_pos rfl, Function.update_self]
      ring
    · rw [if_neg hic, Function.update_of_ne (Ne.symm hic)]
      ring

end Line

/-- All coefficients are rational numbers. -/
def Matrix.IsRational (m : Matrix Exact) : Prop :=
  ∀ l ∈ m.rows, ∀ e ∈ l, Scalar.isFinite e.2 = true

namespace Matrix

variable {m : Matrix Exact}

theorem IsRational.eq_finite (hm : m.IsRational) {r : ℕ} {e : ℕ × Exact} (he : e ∈ m.row r) :
    e.2 = finite e.2.toRat ∧ e.2.toRat ≠ 0 := by
  have hfinite : e.2 = finite e.2.toRat := by
    rcases m.row_mem r with h | h
    · exact isFinite_iff.1 (hm _ h e he)
    · rw [h] at he
      contradiction
  refine ⟨hfinite, fun h => ?_⟩
  have hzero := m.noZeros_row r e he
  rw [hfinite, h] at hzero
  contradiction

/-- The activity of a row at a vector of rational numbers. -/
theorem IsRational.dot_eq_valueAt (hm : m.IsRational) {x : Array Exact} {v : ℕ → ℚ}
    (hx : ∀ c < m.numCols, x.getD c 0 = finite (v c)) (r : ℕ) :
    (m.row r).dot x = finite ((m.row r).valueAt v) := by
  have hterms : (m.row r).map (fun e => e.2 * x.getD e.1 0) =
      ((m.row r).map fun e => e.2.toRat * v e.1).map finite := by
    rw [List.map_map]
    refine List.map_congr_left fun e he => ?_
    obtain ⟨q, hq⟩ : ∃ q, e.2 = finite q := ⟨_, (hm.eq_finite he).1⟩
    show e.2 * x.getD e.1 0 = finite (e.2.toRat * v e.1)
    rw [hx _ (lt_of_mem_row he), hq]
    rfl
  rw [Exact.dot_eq_sum, hterms, sum_finite]
  rfl

end Matrix

/-! ### Intervals -/

/-- The ends of an interval of rational numbers: only the lower one may be infinite downwards, and
only the upper one upwards. -/
def IsInterval (lower upper : Exact) : Prop :=
  lower < Scalar.infinity ∧ -Scalar.infinity < upper

instance (lower upper : Exact) : Decidable (IsInterval lower upper) :=
  inferInstanceAs (Decidable (_ ∧ _))

namespace IsInterval

variable {l u : Exact}

theorem lower_cases (h : IsInterval l u) : l = infinite true ∨ ∃ q, l = finite q := by
  have h := h.1
  rcases l with q | (_ | _) | _
  · exact .inr ⟨q, rfl⟩
  · simp [infinity_eq] at h
  · exact .inl rfl
  · simp at h

theorem upper_cases (h : IsInterval l u) : u = infinite false ∨ ∃ q, u = finite q := by
  have h := h.2
  rcases u with q | (_ | _) | _
  · exact .inr ⟨q, rfl⟩
  · exact .inl rfl
  · simp [infinity_eq] at h
  · simp at h

/-- A rational number violates an interval by a rational number. -/
theorem exists_violation_eq {b : RowBounds Exact} (h : IsInterval b.lower b.upper) (a : ℚ) :
    ∃ w, b.violation (finite a) = finite w := by
  unfold RowBounds.violation
  by_cases hbelow : finite a < b.lower
  · rw [if_pos hbelow]
    rcases h.lower_cases with hl | ⟨l, hl⟩ <;> rw [hl] at hbelow ⊢
    · exact absurd hbelow (not_lt_infinite_true _)
    · exact ⟨l - a, finite_sub l a⟩
  · rw [if_neg hbelow]
    by_cases habove : b.upper < finite a
    · rw [if_pos habove]
      rcases h.upper_cases with hu | ⟨u, hu⟩ <;> rw [hu] at habove ⊢
      · exact absurd habove (not_infinite_false_lt _)
      · exact ⟨a - u, finite_sub a u⟩
    · exact ⟨0, if_neg habove⟩

/-- What a row needs is a rational number. -/
theorem exists_need_eq {b : RowBounds Exact} (h : IsInterval b.lower b.upper) {a : ℚ} {n : Exact}
    (hn : Repair.need b (finite a) = some n) : ∃ q, n = finite q := by
  unfold Repair.need at hn
  split at hn
  · cases hn
    rcases h.lower_cases with hl | ⟨l, hl⟩
    · rename_i hlt
      rw [hl] at hlt
      simp [feasTol_eq] at hlt
    · exact ⟨l - a, by rw [hl, finite_sub]⟩
  · split at hn
    · cases hn
      rcases h.upper_cases with hu | ⟨u, hu⟩
      · rename_i hlt
        rw [hu] at hlt
        simp [feasTol_eq] at hlt
      · exact ⟨u - a, by rw [hu, finite_sub]⟩
    · cases hn

/-- The nearest point of an interval is a rational number between its ends: the point itself or one
of them. -/
theorem exists_clamp_eq (h : IsInterval l u) {x : ℚ} {y : Exact}
    (hy : Scalar.clamp (finite x) l u = .ok y) :
    ∃ w, y = finite w ∧ l ≤ finite w ∧ finite w ≤ u ∧
      (w = x ∨ l = finite w ∨ u = finite w) := by
  unfold Scalar.clamp at hy
  by_cases hle : l ≤ u
  · rw [if_pos hle] at hy
    cases hy
    by_cases hlow : finite x < l
    · rw [if_pos hlow]
      rcases h.lower_cases with rfl | ⟨q, rfl⟩
      · exact absurd hlow (not_lt_infinite_true _)
      · rw [if_neg fun hlt => Exact.lt_irrefl _ (Exact.lt_of_lt_of_le hlt hle)]
        exact ⟨q, rfl, (finite_le q q).2 le_rfl, hle, .inr (.inl rfl)⟩
    · rw [if_neg hlow]
      by_cases hhigh : u < finite x
      · rw [if_pos hhigh]
        rcases h.upper_cases with rfl | ⟨q, rfl⟩
        · exact absurd hhigh (not_infinite_false_lt _)
        · exact ⟨q, rfl, hle, (finite_le q q).2 le_rfl, .inr (.inr rfl)⟩
      · rw [if_neg hhigh]
        refine ⟨x, rfl, ?_, ?_, .inl rfl⟩
        · rcases h.lower_cases with rfl | ⟨q, rfl⟩
          · simp
          · simpa using hlow
        · rcases h.upper_cases with rfl | ⟨q, rfl⟩
          · simp
          · simpa using hhigh
  · rw [if_neg hle] at hy
    cases hy

end IsInterval

/-- The amount by which a vector violates a row. -/
def Problem.violationAt {α : Type} [Scalar α] (p : Problem α) (x : Array α) (r : ℕ) : α :=
  (p.boundsOf r).violation ((p.matrix.row r).dot x)

namespace Repair

/-! ### One column -/

section Column

variable {α : Type} [Scalar α] {p : Problem α} {b : Box α} {integers : Bool} {r : ℕ}
  {t t' : Repair α} {e : ℕ × α}

/-- The step that moves a column to the value `w` for a row, as it was tested. -/
structure IsTested (p : Problem α) (b : Box α) (integers : Bool) (r : ℕ) (t : Repair α)
    (e : ℕ × α) (w : α) : Prop where
  kind : p.isInteger e.1 = integers
  nearest : ∃ n, need (p.boundsOf r) (t.activities.getD r 0) = some n ∧
    let l := range integers (b.lower.getD e.1 0) (b.upper.getD e.1 0)
    Scalar.clamp (t.point.getD e.1 0 + step integers n e.2) l.1 l.2 = .ok w
  large : ¬ Scalar.abs (w - t.point.getD e.1 0) ≤ Scalar.feasTol
  acceptable : isAcceptable p t.activities r e.1 (w - t.point.getD e.1 0) = true

/-- A column stays where it is, or is moved by a step that was tested. -/
theorem moveColumn_cases (hb : b.HasSize p.numCols) (ht : t.point.size = p.numCols)
    (hc : e.1 < p.numCols) (h : moveColumn p b integers r t e = .ok t') :
    t' = t ∨ ∃ w, IsTested p b integers r t e w ∧
      t' = t.shift p e.1 (w - t.point.getD e.1 0) := by
  unfold moveColumn at h
  split at h
  · cases h
    exact .inl rfl
  · rename_i hkind
    split at h
    · cases h
      exact .inl rfl
    · rename_i n hneed
      rw [Checked.read_eq_getD (hb.1 ▸ hc) 0, Checked.read_eq_getD (hb.2 ▸ hc) 0,
        Checked.read_eq_getD (ht ▸ hc) 0] at h
      simp only [Checked.ok_bind] at h
      split at h
      · cases h
        exact .inl rfl
      · obtain ⟨w, hw, h⟩ := Checked.bind_eq_ok.1 h
        split at h
        · cases h
          exact .inl rfl
        · rename_i hlarge
          split at h
          · rename_i hacceptable
            cases h
            refine .inr ⟨w, ⟨?_, ⟨n, hneed, hw⟩, hlarge, hacceptable⟩, rfl⟩
            simpa using hkind
          · cases h
            exact .inl rfl

end Column

/-! ### Rational numbers -/

theorem isInterval_range (integer : Bool) {l u : Exact} (h : IsInterval l u) :
    IsInterval (range integer l u).1 (range integer l u).2 := by
  cases integer with
  | false => exact h
  | true =>
    show Scalar.ceil l < Scalar.infinity ∧ -Scalar.infinity < Scalar.floor u
    constructor
    · rcases h.lower_cases with rfl | ⟨q, rfl⟩
      · exact h.1
      · simp [infinity_eq]
    · rcases h.upper_cases with rfl | ⟨q, rfl⟩
      · exact h.2
      · simp [infinity_eq]

theorem isComparable_of_isInterval {b : Box Exact} {n : ℕ}
    (h : ∀ c < n, IsInterval (b.lower.getD c 0) (b.upper.getD c 0)) : b.IsComparable n := by
  intro c hc integer
  have hends := isInterval_range integer (h c hc)
  generalize range integer (b.lower.getD c 0) (b.upper.getD c 0) = l at hends ⊢
  rcases hends.lower_cases with hl | ⟨q, hl⟩ <;> rcases hends.upper_cases with hu | ⟨q', hu⟩ <;>
    simp [hl, hu]
  exact lt_or_ge q' q

/-- A step is a rational number, and a whole one for an integer column. -/
theorem exists_step_eq (integer : Bool) (n : ℚ) {a : ℚ} (ha : a ≠ 0) :
    ∃ s, step integer (finite n) (finite a) = finite s ∧
      (integer = true → ∃ z : ℤ, s = z) := by
  unfold step
  rw [finite_div _ _ ha]
  cases integer with
  | false => exact ⟨n / a, rfl, nofun⟩
  | true =>
    have hsign : ∃ k : ℤ, Scalar.sign (finite (n / a)) = finite k := by
      unfold Scalar.sign
      rw [isNaN_finite, if_neg Bool.false_ne_true]
      split
      · exact ⟨-1, by simp [one_eq]⟩
      · exact ⟨1, by simp [one_eq]⟩
    obtain ⟨k, hk⟩ := hsign
    refine ⟨(k * ⌈|n / a| - 1 / 10 ^ 5⌉ : ℤ), ?_, fun _ => ⟨_, rfl⟩⟩
    simp only [if_true, hk, abs_finite, intTol_eq, finite_sub, ceil_finite, finite_mul,
      Int.cast_mul]

/-! ### States that belong to a point -/

/-- The state belongs to a point of rational numbers: the entries are those of the point, and the
activities are those of the rows. -/
structure Holds (p : Problem Exact) (t : Repair Exact) (v : ℕ → ℚ) : Prop where
  size : t.point.size = p.numCols
  point : ∀ c < p.numCols, t.point.getD c 0 = finite (v c)
  size_activities : t.activities.size = p.numRows
  activities : ∀ r < p.numRows, t.activities.getD r 0 = finite ((p.matrix.row r).valueAt v)

variable {p : Problem Exact} {b : Box Exact} {integers : Bool} {r : ℕ} {t t' : Repair Exact}
  {e : ℕ × Exact} {v : ℕ → ℚ}

theorem Holds.dot_eq (hA : p.matrix.IsRational) (ht : t.Holds p v) (r : ℕ) :
    (p.matrix.row r).dot t.point = finite ((p.matrix.row r).valueAt v) :=
  hA.dot_eq_valueAt (fun c hc => ht.point c (hc.trans_eq p.numCols_matrix)) r

theorem Holds.violationAt_eq (hA : p.matrix.IsRational) (ht : t.Holds p v) (r : ℕ) :
    p.violationAt t.point r = (p.boundsOf r).violation (finite ((p.matrix.row r).valueAt v)) := by
  rw [Problem.violationAt, ht.dot_eq hA]

/-- A move keeps the state with its point. -/
theorem Holds.shift (hA : p.matrix.IsRational) (ht : t.Holds p v) (c : ℕ) (d : ℚ) :
    (t.shift p c (finite d)).Holds p (Function.update v c (v c + d)) := by
  have hactivities : (t.shift p c (finite d)).activities =
      Line.addTo ((p.matrix.column c).map fun e => (e.1, e.2 * finite d)) t.activities := by
    rw [Line.addTo, List.foldl_map]
    rfl
  refine ⟨(Array.size_modify ..).trans ht.size, fun i hi => ?_, ?_, fun s hs => ?_⟩
  · show (t.point.modify c (· + finite d)).getD i 0 = _
    rw [Line.getD_modify_add (ht.size ▸ hi), ht.point i hi]
    by_cases hci : c = i
    · subst hci
      rw [if_pos rfl, Function.update_self, finite_add]
    · rw [if_neg hci, Function.update_of_ne (Ne.symm hci)]
  · rw [hactivities, Line.size_addTo, ht.size_activities]
  · have hincreasing : Line.Increasing
        ((p.matrix.column c).map fun e => (e.1, e.2 * finite d)) :=
      List.pairwise_map.2 (p.matrix.increasing_column c)
    rw [hactivities, Line.getD_addTo hincreasing (ht.size_activities ▸ hs),
      Line.lookup_map _ (· * finite d), Matrix.lookup_column, ht.activities s hs,
      Line.valueAt_update (p.matrix.increasing_row s), Line.coefficient]
    cases hlookup : (p.matrix.row s).lookup c with
    | none => simp
    | some a =>
      have he := (Line.lookup_eq_some (p.matrix.increasing_row s)).1 hlookup
      obtain ⟨q, rfl⟩ : ∃ q, a = finite q := ⟨_, (hA.eq_finite he).1⟩
      simp

/-- What a move was tested for is what it does. -/
theorem Holds.violationAt_shift (hA : p.matrix.IsRational) (ht : t.Holds p v) {c s : ℕ}
    {a : Exact} (ha : (c, a) ∈ p.matrix.row s) (hs : s < p.numRows) (d : ℚ) :
    p.violationAt (t.shift p c (finite d)).point s =
      (p.boundsOf s).violation (t.activities.getD s 0 + a * finite d) := by
  obtain ⟨q, rfl⟩ : ∃ q, a = finite q := ⟨_, (hA.eq_finite ha).1⟩
  have hlookup := (Line.lookup_eq_some (p.matrix.increasing_row s)).2 ha
  rw [(ht.shift hA c d).violationAt_eq hA, Line.valueAt_update (p.matrix.increasing_row s),
    Line.coefficient, hlookup, ht.activities s hs]
  rfl

/-- A row without the column does not notice the move. -/
theorem Holds.violationAt_shift_of_not_mem (hA : p.matrix.IsRational) (ht : t.Holds p v)
    {c s : ℕ} (h : ∀ e ∈ p.matrix.row s, e.1 ≠ c) (d : ℚ) :
    p.violationAt (t.shift p c (finite d)).point s = p.violationAt t.point s := by
  rw [(ht.shift hA c d).violationAt_eq hA, ht.violationAt_eq hA,
    Line.valueAt_update (p.matrix.increasing_row s), Line.coefficient_of_not_mem h, zero_mul,
    add_zero]

/-! ### The law of a move -/

/-- A move of a column for a row, by the points before and after it. -/
structure Move (α : Type) where
  row : ℕ
  column : ℕ
  before : Array α
  after : Array α

/-- The value lies between the bounds of a column, which are rounded inwards for an integer
column. -/
structure IsBetween (p : Problem Exact) (b : Box Exact) (c : ℕ) (w : Exact) : Prop where
  ends : b.lower.getD c 0 ≤ w ∧ w ≤ b.upper.getD c 0
  wholeEnds : p.isInteger c = true →
    Scalar.ceil (b.lower.getD c 0) ≤ w ∧ w ≤ Scalar.floor (b.upper.getD c 0)

/-- What every move keeps: it changes one column, which ends between its bounds, it helps its row by
more than the tolerance, and it harms no other row by more than the tolerance. -/
structure IsMade (p : Problem Exact) (b : Box Exact) (m : Move Exact) : Prop where
  other : ∀ c < p.numCols, c ≠ m.column → m.after.getD c 0 = m.before.getD c 0
  between : IsBetween p b m.column (m.after.getD m.column 0)
  whole : p.isInteger m.column = true → (∃ z : ℤ, m.before.getD m.column 0 = finite z) →
    ∃ z : ℤ, m.after.getD m.column 0 = finite z
  helps : p.violationAt m.after m.row < p.violationAt m.before m.row - Scalar.feasTol
  spares : ∀ r < p.numRows, r ≠ m.row →
    p.violationAt m.after r ≤ p.violationAt m.before r + Scalar.feasTol

/-- Rational coefficients, and bounds that are infinite on their own side only. -/
structure IsBounded (p : Problem Exact) (b : Box Exact) : Prop where
  isRational : p.matrix.IsRational
  rows : ∀ r < p.numRows, IsInterval (p.boundsOf r).lower (p.boundsOf r).upper
  hasSize : b.HasSize p.numCols
  columns : ∀ c < p.numCols, IsInterval (b.lower.getD c 0) (b.upper.getD c 0)

theorem le_ceil_of_isInterval {l u : Exact} (h : IsInterval l u) : l ≤ Scalar.ceil l := by
  rcases h.lower_cases with rfl | ⟨q, rfl⟩
  · exact (infinite_le_infinite _ _).2 (.inl rfl)
  · exact (finite_le _ _).2 (Int.le_ceil q)

theorem floor_le_of_isInterval {l u : Exact} (h : IsInterval l u) : Scalar.floor u ≤ u := by
  rcases h.upper_cases with rfl | ⟨q, rfl⟩
  · exact (infinite_le_infinite _ _).2 (.inr rfl)
  · exact (finite_le _ _).2 (Int.floor_le q)

/-- A step that was tested leads to a rational number between the bounds of its column, and an
integer column stays whole. -/
theorem Holds.exists_target (hp : IsBounded p b) (ht : t.Holds p v) (he : e ∈ p.matrix.row r)
    {w : Exact} (h : IsTested p b integers r t e w) :
    ∃ q, w = finite q ∧ IsBetween p b e.1 (finite q) ∧
      (p.isInteger e.1 = true → (∃ z : ℤ, v e.1 = z) → ∃ z : ℤ, q = z) := by
  have hc : e.1 < p.numCols := (Matrix.lt_of_mem_row he).trans_eq p.numCols_matrix
  have hr : r < p.numRows :=
    (Matrix.lt_of_mem_column (Matrix.mem_column.2 he)).trans_eq p.numRows_matrix
  have hends := hp.columns e.1 hc
  obtain ⟨hfinite, hne⟩ := hp.isRational.eq_finite he
  obtain ⟨n, hneed, hw⟩ := h.nearest
  rw [ht.activities r hr] at hneed
  obtain ⟨n, rfl⟩ := (hp.rows r hr).exists_need_eq hneed
  obtain ⟨s, hs, hwhole⟩ := exists_step_eq integers n hne
  dsimp only at hw
  rw [hfinite, hs, ht.point e.1 hc, finite_add] at hw
  obtain ⟨q, rfl, hlq, hqu, hq⟩ := (isInterval_range integers hends).exists_clamp_eq hw
  have hkind := h.kind
  refine ⟨q, rfl, ?_⟩
  cases integers with
  | false =>
    have hcontinuous : p.isInteger e.1 ≠ true := by
      rw [hkind]
      exact Bool.false_ne_true
    exact ⟨⟨⟨hlq, hqu⟩, fun hi => absurd hi hcontinuous⟩, fun hi => absurd hi hcontinuous⟩
  | true =>
    refine ⟨⟨⟨Exact.le_trans (le_ceil_of_isInterval hends) hlq,
      Exact.le_trans hqu (floor_le_of_isInterval hends)⟩, fun _ => ⟨hlq, hqu⟩⟩, fun _ hold => ?_⟩
    obtain ⟨z, hz⟩ := hold
    rcases hq with hq | hq | hq
    · obtain ⟨k, hk⟩ := hwhole rfl
      exact ⟨z + k, by rw [hq, hz, hk, Int.cast_add]⟩
    · change Scalar.ceil (b.lower.getD e.1 0) = finite q at hq
      rcases hends.lower_cases with hl | ⟨l, hl⟩ <;> rw [hl] at hq
      · cases hq
      · exact ⟨⌈l⌉, (finite.inj hq).symm⟩
    · change Scalar.floor (b.upper.getD e.1 0) = finite q at hq
      rcases hends.upper_cases with hu | ⟨u, hu⟩ <;> rw [hu] at hq
      · cases hq
      · exact ⟨⌊u⌋, (finite.inj hq).symm⟩

theorem le_add_feasTol {b : RowBounds Exact} (h : IsInterval b.lower b.upper) (a : ℚ) :
    b.violation (finite a) ≤ b.violation (finite a) + Scalar.feasTol := by
  obtain ⟨w, hw⟩ := h.exists_violation_eq a
  rw [hw, feasTol_eq, finite_add, finite_le]
  norm_num

/-- A step that was tested keeps the law. -/
theorem Holds.isMade (hp : IsBounded p b) (ht : t.Holds p v) (he : e ∈ p.matrix.row r)
    {w : Exact} (h : IsTested p b integers r t e w) :
    IsMade p b ⟨r, e.1, t.point, (t.shift p e.1 (w - t.point.getD e.1 0)).point⟩ ∧
      ∃ v', (t.shift p e.1 (w - t.point.getD e.1 0)).Holds p v' := by
  have hc : e.1 < p.numCols := (Matrix.lt_of_mem_row he).trans_eq p.numCols_matrix
  have hr : r < p.numRows :=
    (Matrix.lt_of_mem_column (Matrix.mem_column.2 he)).trans_eq p.numRows_matrix
  have hA := hp.isRational
  obtain ⟨q, rfl, hbetween, hwhole⟩ := ht.exists_target hp he h
  have hacceptable := List.all_eq_true.1 h.acceptable
  rw [ht.point e.1 hc, finite_sub] at hacceptable ⊢
  have hshift := ht.shift hA e.1 (q - v e.1)
  have hnew : (t.shift p e.1 (finite (q - v e.1))).point.getD e.1 0 = finite q := by
    rw [hshift.point e.1 hc, Function.update_self, add_sub_cancel]
  have hbefore : ∀ s < p.numRows, (p.boundsOf s).violation (t.activities.getD s 0) =
      p.violationAt t.point s := fun s hs => by
    rw [ht.violationAt_eq hA, ht.activities s hs]
  refine ⟨⟨fun c hcn hne => ?_, ?_, fun hi hold => ?_, ?_, fun s hs hsr => ?_⟩, _, hshift⟩
  · rw [hshift.point c hcn, Function.update_of_ne hne, ht.point c hcn]
  · rw [hnew]
    exact hbetween
  · obtain ⟨z, hz⟩ := hold
    rw [ht.point e.1 hc] at hz
    obtain ⟨k, hk⟩ := hwhole hi ⟨z, finite.inj hz⟩
    exact ⟨k, by rw [hnew, hk]⟩
  · have hhelps := hacceptable (r, e.2) (Matrix.mem_column.2 he)
    simp only [if_true, decide_eq_true_eq] at hhelps
    rwa [← ht.violationAt_shift hA he hr, hbefore r hr] at hhelps
  · by_cases hmem : ∃ a, (e.1, a) ∈ p.matrix.row s
    · obtain ⟨a, ha⟩ := hmem
      have hspares := hacceptable (s, a) (Matrix.mem_column.2 ha)
      simp only [if_neg hsr, decide_eq_true_eq] at hspares
      rwa [← ht.violationAt_shift hA ha hs, hbefore s hs] at hspares
    · have hnone : ∀ d ∈ p.matrix.row s, d.1 ≠ e.1 := fun d hd heq => hmem ⟨d.2, heq ▸ hd⟩
      rw [ht.violationAt_shift_of_not_mem hA hnone, ht.violationAt_eq hA]
      exact le_add_feasTol (hp.rows s hs) _

/-! ### Whole repairs -/

/-- The moves from one state to another, in order; between two sweeps the flag is reset. -/
inductive Moves {α : Type} [Scalar α] (p : Problem α) (b : Box α) (start : Repair α) :
    List (Move α) → Repair α → Prop where
  | nil : Moves p b start [] start
  | reset {l t} (h : Moves p b start l t) : Moves p b start l { t with moved := false }
  | snoc {l t t'} {integers : Bool} {r : ℕ} {e : ℕ × α} (h : Moves p b start l t)
      (he : e ∈ p.matrix.row r) (hmove : moveColumn p b integers r t e = .ok t')
      (hne : t'.point ≠ t.point) : Moves p b start (l ++ [⟨r, e.1, t.point, t'.point⟩]) t'

/-- What is known of a state in the middle of a repair. -/
structure Reached (p : Problem Exact) (b : Box Exact) (start : Repair Exact) (l : List (Move Exact))
    (t : Repair Exact) : Prop where
  moves : Moves p b start l t
  holds : ∃ v, t.Holds p v
  isMade : ∀ m ∈ l, IsMade p b m

/-- A call for a column goes through; it changes nothing, or is one more move. -/
theorem Reached.moveColumn (hp : IsBounded p b) {start : Repair Exact} {l : List (Move Exact)}
    (h : Reached p b start l t) (integers : Bool) (he : e ∈ p.matrix.row r) :
    ∃ t', moveColumn p b integers r t e = .ok t' ∧ ∃ l', Reached p b start l' t' := by
  obtain ⟨v, ht⟩ := h.holds
  have hc : e.1 < p.numCols := (Matrix.lt_of_mem_row he).trans_eq p.numCols_matrix
  obtain ⟨t', ht', -⟩ := exists_moveColumn_eq hp.hasSize (isComparable_of_isInterval hp.columns)
    integers ht.size he
  refine ⟨t', ht', ?_⟩
  rcases moveColumn_cases hp.hasSize ht.size hc ht' with rfl | ⟨w, htested, rfl⟩
  · exact ⟨l, h⟩
  · obtain ⟨hmade, hholds⟩ := ht.isMade hp he htested
    refine ⟨_, h.moves.snoc he ht' fun hsame => ?_, hholds, fun m hm => ?_⟩
    · -- a move that changed nothing would not have helped
      have hhelps := hmade.helps
      rw [hsame] at hhelps
      exact Exact.lt_irrefl _ (lt_of_lt_sub_finite (by norm_num) hhelps)
    · rcases List.mem_append.1 hm with hm | hm
      · exact h.isMade m hm
      · rw [List.mem_singleton.1 hm]
        exact hmade

/-- The state of a repair before its first move. -/
def initial (p : Problem Exact) (x : Array Exact) : Repair Exact :=
  ⟨x, p.matrix.rows.map (·.dot x), false⟩

theorem holds_initial (hp : IsBounded p b) {x : Array Exact} (hx : x.size = p.numCols)
    (hfinite : ∀ c < p.numCols, Scalar.isFinite (x.getD c 0) = true) :
    (initial p x).Holds p fun c => (x.getD c 0).toRat := by
  have hpoint : ∀ c < p.numCols, x.getD c 0 = finite (x.getD c 0).toRat :=
    fun c hc => isFinite_iff.1 (hfinite c hc)
  refine ⟨hx, hpoint, by simp [initial, ← p.numRows_matrix, Matrix.numRows, Problem.numRows],
    fun r hr => ?_⟩
  rw [initial, Matrix.getD_map_dot (hr.trans_eq p.numRows_matrix.symm)]
  exact hp.isRational.dot_eq_valueAt (fun c hc => hpoint c (hc.trans_eq p.numCols_matrix)) r

/-- A repair comes to an end, by moves that keep the law. -/
theorem exists_reached (hp : IsBounded p b) {x : Array Exact} (hx : x.size = p.numCols)
    (hfinite : ∀ c < p.numCols, Scalar.isFinite (x.getD c 0) = true) :
    ∃ t l, repair p b x = .ok (t.point, p.violatedRows t.activities) ∧
      Reached p b (initial p x) l t := by
  obtain ⟨t, ht, l, h⟩ := repair_rule (P := fun t => ∃ l, Reached p b (initial p x) l t)
    (fun t ⟨l, h⟩ => ⟨l, h.moves.reset, h.holds.imp fun v hv => ⟨hv.size, hv.point,
      hv.size_activities, hv.activities⟩, h.isMade⟩)
    (fun integers r t ⟨l, h⟩ e he => h.moveColumn hp integers he) hx
    ⟨[], .nil, ⟨_, holds_initial hp hx hfinite⟩, nofun⟩
  exact ⟨t, l, ht, h⟩

end Repair

end PrimalHeuristics
