import PrimalHeuristics.Proofs.Heuristic.Moves

/-!
# What a repair leaves

Over exact numbers a repair reports the rows that its point violates, and every column that it moved
lies between its bounds. Each of its moves helps the row that it is made for. Other rows may get
worse by the tolerance with every move, so what a repair does to a row that was satisfied depends on
how many of its moves make that row worse: a row can be given up although no move gives it up alone.

* `Repair.Makes`: the moves of a repair;
* `Repair.Moves.getD_of_unmoved`, `Repair.Moves.isBetween`, `Repair.Moves.whole`: the columns after
  all moves;
* `Repair.Moves.violationAt_le`: the rows after all moves;
* `Repair.isSound_repair`, `Repair.wearsSlowly_repair`: what follows for a repair.
-/

namespace PrimalHeuristics

open Exact

namespace Repair

variable {p : Problem Exact} {b : Box Exact} {x y : Array Exact} {start t : Repair Exact}
  {l : List (Move Exact)} {c r : ℕ}

/-- A repair of `x` makes these moves, and arrives at `y`. -/
def Makes (p : Problem Exact) (b : Box Exact) (x : Array Exact) (l : List (Move Exact))
    (y : Array Exact) : Prop :=
  ∃ a t, p.matrix.activities x = .ok a ∧ Moves p b ⟨x, a, false⟩ l t ∧ t.point = y

/-- A repair of a point of rational numbers comes to an end. What it reports is what its point
violates. -/
theorem exists_makes (hp : IsBounded p b) (hx : x.size = p.numCols)
    (hfinite : ∀ c < p.numCols, Scalar.isFinite (x.getD c 0) = true) :
    ∃ t l a, repair p b x = .ok (t.point, p.violatedRows a) ∧ p.matrix.activities t.point = .ok a ∧
      Makes p b x l t.point ∧ Reached p b (initial p x) l t ∧
      ∀ r < p.numRows, a.getD r 0 = (p.matrix.row r).dot t.point := by
  obtain ⟨t, l, hrepair, hreached⟩ := exists_reached hp hx hfinite
  obtain ⟨v, ht⟩ := hreached.holds
  have hactivities : ∀ z : Array Exact, z.size = p.numCols →
      p.matrix.activities z = .ok (p.matrix.rows.map (·.dot z)) :=
    fun z hz => Matrix.activities_eq (by rw [p.numCols_matrix, hz, Problem.numCols])
  have hget : ∀ r < p.numRows,
      (p.matrix.rows.map (·.dot t.point)).getD r 0 = (p.matrix.row r).dot t.point :=
    fun r hr => Matrix.getD_map_dot (hr.trans_eq p.numRows_matrix.symm) t.point
  have hrows : p.violatedRows t.activities =
      p.violatedRows (p.matrix.rows.map (·.dot t.point)) := by
    refine List.filter_congr fun r hr => ?_
    have hr := List.mem_range.1 hr
    rw [hget r hr, ht.activities r hr, ht.dot_eq hp.isRational]
  exact ⟨t, l, _, hrows ▸ hrepair, hactivities _ ht.size,
    ⟨_, t, hactivities x hx, hreached.moves, rfl⟩, hreached, hget⟩

/-! ### Columns after all moves -/

/-- A column that is not moved keeps its value. -/
theorem Moves.getD_of_unmoved (h : Moves p b start l t) (hl : ∀ m ∈ l, IsMade p b m)
    (hc : c < p.numCols) (hcl : ∀ m ∈ l, m.column ≠ c) :
    t.point.getD c 0 = start.point.getD c 0 := by
  induction h with
  | nil => rfl
  | reset h ih => exact ih hl hcl
  | @snoc l t t' _ r e h he hmove hne ih =>
    have hmade := hl _ List.mem_concat_self
    have hother := hcl _ List.mem_concat_self
    exact (hmade.other c hc (Ne.symm hother)).trans
      (ih (fun m hm => hl m (List.mem_append_left _ hm))
        fun m hm => hcl m (List.mem_append_left _ hm))

/-- A column that was moved lies between its bounds. -/
theorem Moves.isBetween (h : Moves p b start l t) (hl : ∀ m ∈ l, IsMade p b m)
    (hc : c < p.numCols) (hcl : ∃ m ∈ l, m.column = c) :
    IsBetween p b c (t.point.getD c 0) := by
  induction h with
  | nil =>
    obtain ⟨m, hm, -⟩ := hcl
    cases hm
  | reset h ih => exact ih hl hcl
  | @snoc l t t' _ r e h he hmove hne ih =>
    have hmade := hl _ List.mem_concat_self
    by_cases hce : c = e.1
    · -- the last move is one of this column
      subst hce
      exact hmade.between
    · have hother : t'.point.getD c 0 = t.point.getD c 0 := hmade.other c hc hce
      rw [hother]
      refine ih (fun m hm => hl m (List.mem_append_left _ hm)) ?_
      obtain ⟨m, hm, rfl⟩ := hcl
      rcases List.mem_append.1 hm with hm | hm
      · exact ⟨m, hm, rfl⟩
      · rw [List.mem_singleton.1 hm] at hce
        exact absurd rfl hce

/-- An integer column that is whole stays whole. -/
theorem Moves.whole (h : Moves p b start l t) (hl : ∀ m ∈ l, IsMade p b m) (hc : c < p.numCols)
    (hi : p.isInteger c = true) (hstart : ∃ z : ℤ, start.point.getD c 0 = finite z) :
    ∃ z : ℤ, t.point.getD c 0 = finite z := by
  induction h with
  | nil => exact hstart
  | reset h ih => exact ih hl
  | @snoc l t t' _ r e h he hmove hne ih =>
    have hmade := hl _ List.mem_concat_self
    have hbefore := ih fun m hm => hl m (List.mem_append_left _ hm)
    by_cases hce : c = e.1
    · subst hce
      exact hmade.whole hi hbefore
    · have hother : t'.point.getD c 0 = t.point.getD c 0 := hmade.other c hc hce
      rwa [hother]

/-! ### Rows after all moves -/

/-- The move makes a row worse. -/
def worsens (p : Problem Exact) (r : ℕ) (m : Move Exact) : Bool :=
  !decide (p.violationAt m.after r ≤ p.violationAt m.before r)

/-- A move never makes the row worse that it is made for, and no other one by more than the
tolerance. -/
theorem IsMade.of_worsens {m : Move Exact} (hm : IsMade p b m) (hr : r < p.numRows)
    (h : worsens p r m = true) :
    r ≠ m.row ∧ p.violationAt m.after r ≤ p.violationAt m.before r + Scalar.feasTol := by
  have hne : r ≠ m.row := by
    rintro rfl
    have hle := Exact.le_of_lt (lt_of_lt_sub_finite (by norm_num) hm.helps)
    simp [worsens, hle] at h
  exact ⟨hne, hm.spares r hr hne⟩

/-- So much do as many tolerances add up to. -/
theorem ofNat_mul_feasTol (k : ℕ) :
    (Scalar.ofNat k : Exact) * Scalar.feasTol = finite (k * (1 / 10 ^ 6)) := rfl

/-- With each move that makes it worse, a row may be violated by the tolerance more. -/
theorem Moves.violationAt_le (hp : IsBounded p b) (h : Moves p b start l t)
    (hl : ∀ m ∈ l, IsMade p b m) {v : ℕ → ℚ} (hstart : start.Holds p v) (hr : r < p.numRows) :
    p.violationAt t.point r ≤
      p.violationAt start.point r + Scalar.ofNat (l.countP (worsens p r)) * Scalar.feasTol := by
  induction h with
  | nil =>
    obtain ⟨w, hw⟩ := (hp.rows r hr).exists_violation_eq ((p.matrix.row r).valueAt v)
    rw [hstart.violationAt_eq hp.isRational, hw, List.countP_nil, ofNat_mul_feasTol]
    simp
  | reset h ih => exact ih hl
  | @snoc l t t' _ s e h he hmove hne ih =>
    have hmade := hl _ List.mem_concat_self
    have hbefore := ih fun m hm => hl m (List.mem_append_left _ hm)
    rw [List.countP_append, List.countP_singleton]
    by_cases hworse : worsens p r ⟨s, e.1, t.point, t'.point⟩ = true
    · have hafter : p.violationAt t'.point r ≤ p.violationAt t.point r + Scalar.feasTol :=
        (hmade.of_worsens hr hworse).2
      have hsum := Exact.le_trans hafter (add_finite_le hbefore)
      rw [ofNat_mul_feasTol, add_assoc, finite_add] at hsum
      rw [if_pos hworse, ofNat_mul_feasTol]
      convert hsum using 3
      push_cast
      ring
    · have hafter : p.violationAt t'.point r ≤ p.violationAt t.point r := by
        simpa [worsens] using hworse
      rw [if_neg hworse, add_zero]
      exact Exact.le_trans hafter hbefore

/-! ### Results -/

/-- Three columns of which two are wanted, and a row that bears no more than one tolerance from the
first two. -/
def wornRow : Problem Exact where
  columns := #[⟨0, 0, 1, false, 0⟩, ⟨0, 0, 1, false, 0⟩, ⟨0, 0, 1, false, 0⟩, ⟨0, 0, 1, true, 0⟩]
  rowBounds := #[⟨finite 2, infinite false⟩, ⟨infinite true, 0⟩]
  matrix := .ofRows 4 #[[(0, 1), (1, 1), (2, 1)],
    [(0, finite (1 / 10 ^ 6)), (1, finite (1 / 10 ^ 6)), (3, 1)]]
    (by simp [Line.Ordered, or_imp, forall_and])
    (by simp [Line.NoZeros, or_imp, forall_and, one_eq, finite_beq_zero])
  sosSets := []
  numCols_matrix := rfl
  numRows_matrix := rfl

/-- The bounds of the columns. -/
def wornBox : Box Exact :=
  ⟨wornRow.lower, wornRow.upper⟩

theorem isBounded_worn : IsBounded wornRow wornBox := by
  refine ⟨?_, ?_, ?_, ?_⟩
  · simp [Matrix.IsRational, wornRow, Matrix.ofRows, or_imp, forall_and, one_eq]
  · decide +kernel
  · exact ⟨Problem.size_lower _, Problem.size_upper _⟩
  · decide +kernel

/-- A repair that keeps its books: it reports the rows that its point violates, what it did not move
is as before, what it moved lies between its bounds, integer columns are whole, and every move helps
the row that it is made for. -/
structure IsSound (p : Problem Exact) (b : Box Exact) (x : Array Exact) (l : List (Move Exact))
    (y : Array Exact) (rows : List ℕ) : Prop where
  makes : Makes p b x l y
  reports : ∃ a, p.matrix.activities y = .ok a ∧ rows = p.violatedRows a
  unmoved : ∀ c < p.numCols, (∀ m ∈ l, m.column ≠ c) → y.getD c 0 = x.getD c 0
  moved : ∀ c < p.numCols, (∃ m ∈ l, m.column = c) → IsBetween p b c (y.getD c 0)
  whole : ∀ c < p.numCols, p.isInteger c = true → ∃ z : ℤ, y.getD c 0 = finite z
  helps : ∀ m ∈ l, p.violationAt m.after m.row < p.violationAt m.before m.row - Scalar.feasTol

/-- A repair of a point of rational numbers that is whole in the integer columns keeps its books. -/
theorem isSound_repair (hp : IsBounded p b) (hx : x.size = p.numCols)
    (hfinite : ∀ c < p.numCols, Scalar.isFinite (x.getD c 0) = true)
    (hwhole : ∀ c < p.numCols, p.isInteger c = true → ∃ z : ℤ, x.getD c 0 = finite z) :
    ∃ l y rows, repair p b x = .ok (y, rows) ∧ IsSound p b x l y rows := by
  obtain ⟨t, l, a, hrepair, ha, hmakes, hreached, -⟩ := exists_makes hp hx hfinite
  exact ⟨l, _, _, hrepair, hmakes, ⟨a, ha, rfl⟩,
    fun c hc hcl => hreached.moves.getD_of_unmoved hreached.isMade hc hcl,
    fun c hc hcl => hreached.moves.isBetween hreached.isMade hc hcl,
    fun c hc hi => hreached.moves.whole hreached.isMade hc hi (hwhole c hc hi),
    fun m hm => (hreached.isMade m hm).helps⟩

theorem isSound_repair_worn : IsBounded wornRow wornBox ∧
    (∀ c < wornRow.numCols, Scalar.isFinite ((#[0, 0, 0, 0] : Array Exact).getD c 0) = true) ∧
    (∀ c < wornRow.numCols, wornRow.isInteger c = true →
      ∃ z : ℤ, (#[0, 0, 0, 0] : Array Exact).getD c 0 = finite z) ∧
    ∃ l y rows, repair wornRow wornBox #[0, 0, 0, 0] = .ok (y, rows) ∧
      IsSound wornRow wornBox #[0, 0, 0, 0] l y rows := by
  have hfinite : ∀ c < wornRow.numCols,
      Scalar.isFinite ((#[0, 0, 0, 0] : Array Exact).getD c 0) = true := by decide
  have hzero : ∀ c < wornRow.numCols, (#[0, 0, 0, 0] : Array Exact).getD c 0 = 0 := by decide
  have hwhole : ∀ c < wornRow.numCols, wornRow.isInteger c = true →
      ∃ z : ℤ, (#[0, 0, 0, 0] : Array Exact).getD c 0 = finite z :=
    fun c hc _ => ⟨0, by rw [hzero c hc, zero_eq, Int.cast_zero]⟩
  exact ⟨isBounded_worn, hfinite, hwhole, isSound_repair isBounded_worn rfl hfinite hwhole⟩

/-- What a repair does to the rows: a move makes only rows worse that it is not made for, and none by
more than the tolerance; but that adds up. A row that was satisfied stays so if it has room for all
moves that make it worse. -/
structure WearsSlowly (p : Problem Exact) (b : Box Exact) (x : Array Exact) (l : List (Move Exact))
    (y : Array Exact) (rows : List ℕ) : Prop where
  makes : Makes p b x l y
  worsens : ∀ m ∈ l, ∀ r < p.numRows, worsens p r m = true →
    r ≠ m.row ∧ p.violationAt m.after r ≤ p.violationAt m.before r + Scalar.feasTol
  total : ∀ r < p.numRows, p.violationAt y r ≤
    p.violationAt x r + Scalar.ofNat (l.countP (Repair.worsens p r)) * Scalar.feasTol
  stays : ∀ r < p.numRows,
    p.violationAt x r + Scalar.ofNat (l.countP (Repair.worsens p r)) * Scalar.feasTol ≤
      Scalar.feasTol → r ∉ rows

theorem wearsSlowly_repair (hp : IsBounded p b) (hx : x.size = p.numCols)
    (hfinite : ∀ c < p.numCols, Scalar.isFinite (x.getD c 0) = true) :
    ∃ l y rows, repair p b x = .ok (y, rows) ∧ WearsSlowly p b x l y rows := by
  obtain ⟨t, l, a, hrepair, -, hmakes, hreached, hget⟩ := exists_makes hp hx hfinite
  have hstart := holds_initial hp hx hfinite
  have htotal := fun r (hr : r < p.numRows) =>
    hreached.moves.violationAt_le hp hreached.isMade hstart hr
  refine ⟨l, t.point, p.violatedRows a, hrepair, hmakes, ?_, htotal, ?_⟩
  · exact fun m hm r hr h => (hreached.isMade m hm).of_worsens hr h
  · intro r hr hroom hmem
    have hviolated : Scalar.feasTol < p.violationAt t.point r := by
      have hmem := (Problem.mem_violatedRows.1 hmem).2
      rwa [hget r hr] at hmem
    exact Exact.lt_irrefl _
      (Exact.lt_of_lt_of_le hviolated (Exact.le_trans (htotal r hr) hroom))

theorem wearsSlowly_repair_worn : IsBounded wornRow wornBox ∧
    (∀ c < wornRow.numCols, Scalar.isFinite ((#[0, 0, 0, 0] : Array Exact).getD c 0) = true) ∧
    ∃ l y rows, repair wornRow wornBox #[0, 0, 0, 0] = .ok (y, rows) ∧
      WearsSlowly wornRow wornBox #[0, 0, 0, 0] l y rows := by
  have hfinite : ∀ c < wornRow.numCols,
      Scalar.isFinite ((#[0, 0, 0, 0] : Array Exact).getD c 0) = true := by decide
  exact ⟨isBounded_worn, hfinite, wearsSlowly_repair isBounded_worn rfl hfinite⟩

/-- The second row is satisfied at the start, and is given up by two moves for the first one. -/
theorem not_satisfied_worn : wornRow.violationAt #[0, 0, 0, 0] 1 = 0 ∧
    ∃ y rows, repair wornRow wornBox #[0, 0, 0, 0] = .ok (y, rows) ∧
      Scalar.feasTol < wornRow.violationAt y 1 ∧ 1 ∈ rows := by
  refine ⟨by decide +kernel, #[1, 1, 0, 0], [1], ?_, ?_, by decide⟩
  · decide +kernel
  · decide +kernel

/-! ### Infinities on the wrong side -/

/-- A problem of one column and one row, which holds the column. -/
def lonely (k : Column Exact) (row : RowBounds Exact) : Problem Exact where
  columns := #[k]
  rowBounds := #[row]
  matrix := .ofRows 1 #[[(0, 1)]] (by simp [Line.Ordered])
    (by simp [Line.NoZeros, one_eq, finite_beq_zero])
  sosSets := []
  numCols_matrix := rfl
  numRows_matrix := rfl

/-- Where the lower bound of a row or of a column is infinite upwards, or the start is infinite, a
repair can leave an integer column without a whole number, or a column without a number. -/
theorem not_isSound_lonely :
    (∃ y, repair (lonely ⟨0, 0, infinite false, true, 0⟩ ⟨infinite false, infinite false⟩)
        ⟨#[0], #[infinite false]⟩ #[0] = .ok (y, []) ∧ ¬ ∃ z : ℤ, y.getD 0 0 = finite z) ∧
      (∃ y, repair (lonely ⟨0, infinite false, infinite false, true, 0⟩ ⟨1, infinite false⟩)
        ⟨#[infinite false], #[infinite false]⟩ #[0] = .ok (y, []) ∧
          ¬ ∃ z : ℤ, y.getD 0 0 = finite z) ∧
      ∃ y, repair (lonely ⟨0, infinite true, finite 5, false, 0⟩ ⟨0, infinite false⟩)
        ⟨#[infinite true], #[finite 5]⟩ #[infinite true] = .ok (y, []) ∧
          y.getD 0 0 ≠ infinite true ∧ ¬ y.getD 0 0 ≤ finite 5 := by
  refine ⟨⟨#[infinite false], by decide +kernel, ?_⟩, ⟨#[infinite false], by decide +kernel, ?_⟩,
    ⟨#[nan], by decide +kernel, by decide, by decide⟩⟩
  · rintro ⟨z, hz⟩
    cases hz
  · rintro ⟨z, hz⟩
    cases hz

end Repair

end PrimalHeuristics
