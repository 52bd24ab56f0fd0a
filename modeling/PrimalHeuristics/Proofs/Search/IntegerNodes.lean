import PrimalHeuristics.Proofs.Propagation.Integrality
import PrimalHeuristics.Proofs.Search.Steps

/-!
# Nodes over integer boxes

What a search does with a node whose box is regular. Its corner fails only because of a row, as long
as the box holds a point at all; if no column of that row can move, the row is out of reach for the
whole box; and if one can, it is split between two whole numbers.

* `SubProblem.allWithin_corner`: a corner keeps all columns, unless the box is empty;
* `Branch.not_contains_of_none`: a box whose corner is not branched holds no point;
* `Branch.exists_isWholeSplit`: the split of a column;
* `Search.contains_child`: no point of the node is lost.
-/

namespace PrimalHeuristics

open Exact

theorem nearest_intCast (z : ℤ) : nearest z = z := by
  unfold nearest
  split
  · rw [Int.floor_eq_iff]
    constructor <;> linarith
  · rw [Int.ceil_eq_iff]
    constructor <;> linarith

theorem isIntegral_intCast (z : ℤ) : Scalar.isIntegral (finite (z : ℚ)) = true := by
  simp [Scalar.isIntegral, nearest_intCast, intTol_eq]

/-- A value between regular bounds: either they are whole numbers, or both are that value. -/
theorem IsRegular.of_between {integer : Bool} {lower upper : Exact}
    (h : IsRegular integer lower upper) {q : ℚ} (hl : lower ≤ finite q) (hu : finite q ≤ upper) :
    (integer = true ∧ ∃ l u : ℤ, lower = finite l ∧ upper = finite u ∧ (l : ℚ) ≤ q ∧ q ≤ u) ∨
      (lower = finite q ∧ upper = finite q) := by
  cases h with
  | integral l u hi => exact .inl ⟨hi, l, u, rfl, rfl, by simpa using hl, by simpa using hu⟩
  | pinned c =>
    obtain rfl : c = q := le_antisymm (by simpa using hl) (by simpa using hu)
    exact .inr ⟨rfl, rfl⟩
  | raised c _ h =>
    have hl : (⌈c⌉ : ℚ) ≤ q := by simpa using hl
    have hu : q ≤ c := by simpa using hu
    linarith
  | lowered c _ h =>
    have hl : c ≤ q := by simpa using hl
    have hu : q ≤ ⌊c⌋ := by simpa using hu
    linarith

namespace SubProblem

variable {s : SubProblem Exact} {b : Box Exact} {v : Nat → ℚ}

theorem getD_corner_of_pinned (hreg : b.IsRegular s) {j : Nat} (hj : j < s.numCols) {x : Exact}
    (hl : b.lower.getD j 0 = x) (hu : b.upper.getD j 0 = x) : (s.corner b).getD j 0 = x := by
  rcases getD_corner_mem hreg hj with hx | hx
  · exact hx.trans hl
  · exact hx.trans hu

/-- Unless the box is empty, its corner keeps all columns. -/
theorem allWithin_corner (hreg : b.IsRegular s) (hsat : s.Satisfies v)
    (hv : b.Contains s.numCols v) : AllWithin s.numCols s.isInteger (s.corner b) b := by
  intro j hj
  obtain ⟨hl, hu⟩ := hv j hj
  rcases (hreg j hj).of_between hl hu with ⟨-, l, u, hlower, hupper, hlq, hqu⟩ | ⟨hlower, hupper⟩
  · rw [hlower, hupper]
    have hlu : (l : ℚ) ≤ u := hlq.trans hqu
    rcases getD_corner_mem hreg hj with hx | hx
    · rw [hx, hlower]
      refine ⟨by simp [feasTol_eq], ?_, fun _ => isIntegral_intCast l⟩
      rw [feasTol_eq, finite_add, finite_le]
      linarith
    · rw [hx, hupper]
      refine ⟨?_, by simp [feasTol_eq], fun _ => isIntegral_intCast u⟩
      rw [feasTol_eq, finite_sub, finite_le]
      linarith
  · have hx := getD_corner_of_pinned hreg hj hlower hupper
    rw [hx, hlower, hupper]
    refine ⟨by simp [feasTol_eq], by simp [feasTol_eq], fun hi => ?_⟩
    obtain ⟨z, hz⟩ := hsat.integral j hj hi
    rw [hz]
    exact isIntegral_intCast z

/-- The corner of a box, as a point. -/
def cornerPoint (s : SubProblem Exact) (b : Box Exact) (j : Nat) : ℚ :=
  ((s.corner b).getD j 0).toRat

theorem getD_corner_eq {j : Nat} (hj : j < s.numCols) :
    (s.corner b).getD j 0 = finite (s.cornerPoint b j) :=
  getD_corner_eq_finite hj

end SubProblem

namespace Branch

variable {s : SubProblem Exact} {b : Box Exact} {v : Nat → ℚ}

/-! ### Boxes that are dropped -/

/-- A column that cannot move up has no greater value in the box. -/
theorem le_of_not_canMove_up (hreg : b.IsRegular s)
    (hv : b.Contains s.numCols v) {j : Nat} (hj : j < s.numCols)
    (h : s.isInteger j = true →
      ¬ (s.corner b).getD j 0 < b.upper.getD j 0 - Scalar.intTol) :
    v j ≤ s.cornerPoint b j := by
  obtain ⟨hl, hu⟩ := hv j hj
  have hx := SubProblem.getD_corner_eq (b := b) hj
  rcases (hreg j hj).of_between hl hu with ⟨hi, l, u, hlower, hupper, -, hqu⟩ | ⟨hlower, hupper⟩
  · have h := h hi
    rcases SubProblem.getD_corner_mem hreg hj with hc | hc
    · rw [hc, hlower, hupper, intTol_eq, finite_sub, finite_lt, not_lt] at h
      have hul : u ≤ l := Propagation.whole_le (by linarith)
      have hul : (u : ℚ) ≤ l := Int.cast_le.2 hul
      rw [hc, hlower] at hx
      exact (finite.inj hx) ▸ hqu.trans hul
    · rw [hc, hupper] at hx
      exact (finite.inj hx) ▸ hqu
  · have hc := SubProblem.getD_corner_of_pinned hreg hj hlower hupper
    exact (finite.inj (hc.symm.trans hx)).le

/-- A column that cannot move down has no smaller value in the box. -/
theorem le_of_not_canMove_down (hreg : b.IsRegular s)
    (hv : b.Contains s.numCols v) {j : Nat} (hj : j < s.numCols)
    (h : s.isInteger j = true →
      ¬ b.lower.getD j 0 + Scalar.intTol < (s.corner b).getD j 0) :
    s.cornerPoint b j ≤ v j := by
  obtain ⟨hl, hu⟩ := hv j hj
  have hx := SubProblem.getD_corner_eq (b := b) hj
  rcases (hreg j hj).of_between hl hu with ⟨hi, l, u, hlower, hupper, hlq, -⟩ | ⟨hlower, hupper⟩
  · have h := h hi
    rcases SubProblem.getD_corner_mem hreg hj with hc | hc
    · rw [hc, hlower] at hx
      exact (finite.inj hx) ▸ hlq
    · rw [hc, hlower, hupper, intTol_eq, finite_add, finite_lt, not_lt] at h
      have hul : u ≤ l := Propagation.whole_le (by linarith)
      have hul : (u : ℚ) ≤ l := Int.cast_le.2 hul
      rw [hc, hupper] at hx
      exact (finite.inj hx) ▸ hul.trans hlq
  · have hc := SubProblem.getD_corner_of_pinned hreg hj hlower hupper
    exact (finite.inj (hx.symm.trans hc)).le

/-- Where no column of a row can move as wanted, the corner has the best activity of the box. -/
theorem valueAt_of_not_canMove (hs : s.IsRational) (hreg : b.IsRegular s)
    (hv : b.Contains s.numCols v) {r : Nat} {increase : Bool}
    (h : ∀ e ∈ s.matrix.row r, ¬ CanMove s (s.corner b) b increase e) :
    if increase then (s.matrix.row r).valueAt v ≤ (s.matrix.row r).valueAt (s.cornerPoint b)
    else (s.matrix.row r).valueAt (s.cornerPoint b) ≤ (s.matrix.row r).valueAt v := by
  have hup : ∀ e ∈ s.matrix.row r, goesUp increase e.2 = true → v e.1 ≤ s.cornerPoint b e.1 :=
    fun e he hgoes => le_of_not_canMove_up hreg hv (SubProblem.lt_of_mem_row he)
      fun hi hlt => h e he ⟨hi, by rw [if_pos hgoes]; exact hlt⟩
  have hdown : ∀ e ∈ s.matrix.row r, goesUp increase e.2 = false →
      s.cornerPoint b e.1 ≤ v e.1 :=
    fun e he hgoes => le_of_not_canMove_down hreg hv (SubProblem.lt_of_mem_row he)
      fun hi hlt => h e he ⟨hi, by rw [if_neg (by simp [hgoes])]; exact hlt⟩
  have hsign : ∀ e ∈ s.matrix.row r,
      (decide (0 < e.2) = true ∧ 0 ≤ e.2.toRat) ∨ (decide (0 < e.2) = false ∧ e.2.toRat ≤ 0) := by
    intro e he
    obtain ⟨q, hq⟩ : ∃ q, e.2 = finite q := ⟨_, (hs.eq_finite he).1⟩
    rw [hq]
    rcases lt_or_ge 0 q with h0 | h0
    · exact .inl ⟨by simpa [zero_eq] using h0, h0.le⟩
    · exact .inr ⟨by simpa [zero_eq] using h0, h0⟩
  cases increase with
  | true =>
    rw [if_pos rfl]
    refine List.sum_le_sum fun e he => ?_
    rcases hsign e he with ⟨hpos, h0⟩ | ⟨hneg, h0⟩
    · exact mul_le_mul_of_nonneg_left (hup e he (by rw [goesUp, hpos]; rfl)) h0
    · exact mul_le_mul_of_nonpos_left (hdown e he (by rw [goesUp, hneg]; rfl)) h0
  | false =>
    rw [if_neg Bool.false_ne_true]
    refine List.sum_le_sum fun e he => ?_
    rcases hsign e he with ⟨hpos, h0⟩ | ⟨hneg, h0⟩
    · exact mul_le_mul_of_nonneg_left (hdown e he (by rw [goesUp, hpos]; rfl)) h0
    · exact mul_le_mul_of_nonpos_left (hup e he (by rw [goesUp, hneg]; rfl)) h0

theorem not_feasTol_lt_zero : ¬ (Scalar.feasTol : Exact) < 0 := by
  rw [feasTol_eq, zero_eq, finite_lt]
  norm_num

/-- A node whose corner is neither feasible nor branched holds no point. -/
theorem not_contains_of_none (hs : s.IsRational) (hreg : b.IsRegular s)
    (hinf : ¬ s.IsFeasible (s.corner b) b) (hchoice : Choice s (s.corner b) b none)
    (hsat : s.Satisfies v) : ¬ b.Contains s.numCols v := by
  intro hv
  cases hchoice with
  | satisfied _ h =>
    -- a column outside its bounds would mean that the box is empty
    refine hinf ⟨SubProblem.allWithin_corner hreg hsat hv, fun r hr => ?_⟩
    exact (RowBounds.not_feasTol_lt_violation _ _).1 (h r hr)
  | @stuck r _ hr violated h =>
    obtain ⟨hlower, hupper⟩ := hsat.rows r hr
    have hdot := SubProblem.dot_eq_valueAt hs (x := s.corner b)
      (fun j hj => SubProblem.getD_corner_eq hj) r
    have hvalue := valueAt_of_not_canMove hs hreg hv h
    unfold increases at hvalue
    unfold violationOf RowBounds.violation at violated
    rw [hdot] at hvalue violated
    -- the corner comes closest to the row, and even so it does not get there
    by_cases hbelow : finite ((s.matrix.row r).valueAt (s.cornerPoint b)) < (s.boundsOf r).lower
    · rw [decide_eq_true hbelow, if_pos rfl, ← finite_le] at hvalue
      exact Exact.lt_irrefl _ (Exact.lt_of_le_of_lt (Exact.le_trans hlower hvalue) hbelow)
    · rw [decide_eq_false hbelow, if_neg Bool.false_ne_true, ← finite_le] at hvalue
      rw [if_neg hbelow] at violated
      split at violated
      · exact Exact.lt_irrefl _ (Exact.lt_of_lt_of_le ‹_› (Exact.le_trans hvalue hupper))
      · exact not_feasTol_lt_zero violated

/-! ### Boxes that are split -/

/-- A split of an integer column between two neighbouring whole numbers. -/
structure IsWholeSplit (s : SubProblem Exact) (b : Box Exact) (branch : Branch Exact)
    (l m u : ℤ) : Prop where
  column_lt : branch.column < s.numCols
  integer : s.isInteger branch.column = true
  lower_eq : b.lower.getD branch.column 0 = finite l
  upper_eq : b.upper.getD branch.column 0 = finite u
  abs_lower : |(l : ℚ)| < 10 ^ 20
  abs_upper : |(u : ℚ)| < 10 ^ 20
  le_down : l ≤ m
  up_le : m + 1 ≤ u
  down_eq : branch.downUpper = finite m
  up_eq : branch.upLower = finite (m + 1 : ℤ)

/-- Bounds that leave a choice of more than the tolerance are whole numbers. -/
theorem of_room {integer : Bool} {lower upper x : Exact} (h : IsRegular integer lower upper)
    (hx : x = lower ∨ x = upper) (hroom : x < upper - Scalar.intTol ∨ lower + Scalar.intTol < x) :
    ∃ l u : ℤ, |(l : ℚ)| < 10 ^ 20 ∧ |(u : ℚ)| < 10 ^ 20 ∧ lower = finite l ∧ upper = finite u ∧
      l + 1 ≤ u ∧ (x < upper - Scalar.intTol → x = finite l) ∧
        (lower + Scalar.intTol < x → x = finite u) := by
  have hle : ∀ {l u : ℚ}, lower = finite l → upper = finite u → u ≤ l → False :=
    fun {l u} hl hu hul => by
      rw [hl, hu, intTol_eq, finite_sub, finite_add] at hroom
      rcases hx with hx | hx <;> rw [hx] at hroom
      · rw [hl, finite_lt, finite_lt] at hroom
        rcases hroom with h | h <;> linarith
      · rw [hu, finite_lt, finite_lt] at hroom
        rcases hroom with h | h <;> linarith
  cases h with
  | pinned c => exact (hle rfl rfl le_rfl).elim
  | raised c => exact (hle rfl rfl (Int.le_ceil c)).elim
  | lowered c => exact (hle rfl rfl (Int.floor_le c)).elim
  | integral l u hi hl hu =>
    have hlu : l < u := by
      by_contra hul
      exact hle rfl rfl (Int.cast_le.2 (not_lt.1 hul))
    refine ⟨l, u, hl, hu, rfl, rfl, hlu, fun h => hx.resolve_right ?_, fun h => hx.resolve_left ?_⟩
    · rintro rfl
      rw [intTol_eq, finite_sub, finite_lt] at h
      linarith
    · rintro rfl
      rw [intTol_eq, finite_add, finite_lt] at h
      linarith

theorem fraction_intCast {x : Array Exact} {j : Nat} {z : ℤ} (h : x.getD j 0 = finite z) :
    ¬ Scalar.intTol < fraction x j := by
  rw [fraction, h, floor_finite, finite_sub, intTol_eq, finite_lt, Int.floor_intCast]
  norm_num

/-- The corner of a regular box is whole where the bounds leave a choice. -/
theorem not_canSplit_corner (hreg : b.IsRegular s) {j : Nat} (hj : j < s.numCols) :
    ¬ CanSplit s (s.corner b) b j := by
  rintro ⟨-, hlt, hfraction, -⟩
  have hx := SubProblem.getD_corner_mem hreg hj
  have hregj := hreg j hj
  revert hlt hx hregj
  generalize b.lower.getD j 0 = lower
  generalize b.upper.getD j 0 = upper
  intro hlt hx hregj
  cases hregj with
  | integral l u =>
    rcases hx with hx | hx <;> exact fraction_intCast hx hfraction
  | pinned c => exact Exact.lt_irrefl _ hlt
  | raised c => exact not_lt.2 (Int.le_ceil c) (by simpa using hlt)
  | lowered c => exact not_lt.2 (Int.floor_le c) (by simpa using hlt)

/-- The corner of a regular box is only split by moving a column, between two whole numbers. -/
theorem exists_isWholeSplit (hreg : b.IsRegular s) {branch : Branch Exact}
    (hchoice : Choice s (s.corner b) b (some branch)) :
    ∃ l m u : ℤ, IsWholeSplit s b branch l m u := by
  cases hchoice with
  | split hj h => exact (not_canSplit_corner hreg hj h).elim
  | @move r e whole hr violated he h =>
    obtain ⟨hi, hroom⟩ := h
    have hj := SubProblem.lt_of_mem_row he
    have hx := SubProblem.getD_corner_mem hreg hj
    unfold Branch.move
    by_cases hgoes : goesUp (increases s (s.corner b) r) e.2 = true
    · rw [if_pos hgoes] at hroom
      obtain ⟨l, u, hla, hua, hl, hu, hlu, hxl, -⟩ := of_room (hreg _ hj) hx (.inl hroom)
      have hround : Scalar.round ((s.corner b).getD e.1 0) = finite l := by
        rw [hxl hroom, round_finite, nearest_intCast]
      refine ⟨l, l, u, ?_⟩
      simp only [hgoes, if_true, hround]
      exact ⟨hj, hi, hl, hu, hla, hua, le_rfl, hlu, rfl, by simp [one_eq]⟩
    · rw [if_neg hgoes] at hroom
      obtain ⟨l, u, hla, hua, hl, hu, hlu, -, hxu⟩ := of_room (hreg _ hj) hx (.inr hroom)
      have hround : Scalar.round ((s.corner b).getD e.1 0) = finite u := by
        rw [hxu hroom, round_finite, nearest_intCast]
      refine ⟨l, u - 1, u, ?_⟩
      simp only [hgoes, if_false, hround, Bool.false_eq_true]
      exact ⟨hj, hi, hl, hu, hla, hua, by omega, by omega, by simp [one_eq], by simp⟩

end Branch

namespace Search

variable {s : SubProblem Exact} {b : Box Exact} {branch : Branch Exact} {l m u : ℤ}

theorem getD_upper_downBox (hb : b.HasSize s.numCols) (hc : branch.column < s.numCols) (j : Nat) :
    (downBox b branch).upper.getD j 0 =
      if branch.column = j then branch.downUpper else b.upper.getD j 0 :=
  getD_setIfInBounds (hb.2 ▸ hc)

theorem getD_lower_upBox (hb : b.HasSize s.numCols) (hc : branch.column < s.numCols) (j : Nat) :
    (upBox b branch).lower.getD j 0 =
      if branch.column = j then branch.upLower else b.lower.getD j 0 :=
  getD_setIfInBounds (hb.1 ▸ hc)

/-- A child that goes down is tighter if its upper bound is. -/
theorem tightens_downBox_of_lt (hb : b.HasSize s.numCols) (hc : branch.column < s.numCols)
    (h : branch.downUpper < b.upper.getD branch.column 0) : (downBox b branch).Tightens b := by
  refine fun j => ⟨.inl rfl, ?_⟩
  rw [getD_upper_downBox hb hc]
  split
  · subst j
    exact .inr h
  · exact .inl rfl

/-- A child that goes up is tighter if its lower bound is. -/
theorem tightens_upBox_of_lt (hb : b.HasSize s.numCols) (hc : branch.column < s.numCols)
    (h : b.lower.getD branch.column 0 < branch.upLower) : (upBox b branch).Tightens b := by
  refine fun j => ⟨?_, .inl rfl⟩
  rw [getD_lower_upBox hb hc]
  split
  · subst j
    exact .inr h
  · exact .inl rfl

variable (h : Branch.IsWholeSplit s b branch l m u) (hb : b.HasSize s.numCols)

include h hb

theorem isRegular_downBox (hreg : b.IsRegular s) : (downBox b branch).IsRegular s := by
  intro j hj
  rw [getD_upper_downBox hb h.column_lt]
  split
  · subst j
    show IsRegular _ (b.lower.getD branch.column 0) _
    rw [h.lower_eq, h.down_eq]
    exact .integral l m h.integer h.abs_lower (Propagation.abs_whole_lt h.abs_lower h.abs_upper
      h.le_down (by have := h.up_le; omega))
  · exact hreg j hj

theorem isRegular_upBox (hreg : b.IsRegular s) : (upBox b branch).IsRegular s := by
  intro j hj
  rw [getD_lower_upBox hb h.column_lt]
  split
  · subst j
    show IsRegular _ _ (b.upper.getD branch.column 0)
    rw [h.upper_eq, h.up_eq]
    exact .integral (m + 1) u h.integer (Propagation.abs_whole_lt h.abs_lower h.abs_upper
      (by have := h.le_down; omega) h.up_le) h.abs_upper
  · exact hreg j hj

theorem tightens_downBox : (downBox b branch).Tightens b := by
  refine tightens_downBox_of_lt hb h.column_lt ?_
  have := h.up_le
  rw [h.upper_eq, h.down_eq, finite_lt, Int.cast_lt]
  omega

theorem tightens_upBox : (upBox b branch).Tightens b := by
  refine tightens_upBox_of_lt hb h.column_lt ?_
  have := h.le_down
  rw [h.lower_eq, h.up_eq, finite_lt, Int.cast_lt]
  omega

/-- A point of a node is one of its children, and the child is not crossed. -/
theorem contains_child {v : Nat → ℚ} (hsat : s.Satisfies v) (hv : b.Contains s.numCols v) :
    ∃ c, (c = downBox b branch ∨ c = upBox b branch) ∧ c.Contains s.numCols v ∧
      ¬ IsCrossed branch.column c := by
  have hchild : ∀ c : Box Exact, c.Contains s.numCols v → ¬ IsCrossed branch.column c :=
    fun c hc => Propagation.not_crossed (p := (_, _)) (hc _ h.column_lt)
  -- the two children miss nothing but values between neighbouring whole numbers
  obtain ⟨z, hz⟩ := hsat.integral _ h.column_lt h.integer
  rcases lt_or_ge m z with hmz | hmz
  · have hc : (upBox b branch).Contains s.numCols v := by
      refine fun j hj => ⟨?_, (hv j hj).2⟩
      rw [getD_lower_upBox hb h.column_lt]
      split
      · subst j
        rw [h.up_eq, hz, finite_le, Int.cast_le]
        omega
      · exact (hv j hj).1
    exact ⟨_, .inr rfl, hc, hchild _ hc⟩
  · have hc : (downBox b branch).Contains s.numCols v := by
      refine fun j hj => ⟨(hv j hj).1, ?_⟩
      rw [getD_upper_downBox hb h.column_lt]
      split
      · subst j
        rw [h.down_eq, hz, finite_le, Int.cast_le]
        exact hmz
      · exact (hv j hj).2
    exact ⟨_, .inl rfl, hc, hchild _ hc⟩

end Search

end PrimalHeuristics
