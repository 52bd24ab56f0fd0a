import Mathlib.Tactic
import PrimalHeuristics.Proofs.Heuristic.Fixing
import PrimalHeuristics.Proofs.Heuristic.Totality
import PrimalHeuristics.Proofs.Search.Optimality

/-!
# Completions of fixed columns

Over exact numbers, the sub-problem of free integer columns is one for which searches are optimal,
and a vector of the problem that has the fixed values and is feasible without any tolerance is one
of the sub-problem. So a search for the rest of the columns finds the best completion.

* `Problem.IsExactlyFeasible`: feasible without any tolerance;
* `SubProblem.isRational_ofFree`, `SubProblem.isIntegerBox_ofFree`: what optimal searches ask for;
* `SubProblem.isExactlyFeasible_freePart`: a completion is a vector of the sub-problem;
* `SubProblem.isBlocked_eq_false`: if there is one, the restriction goes through;
* `Settings.isOptimal_subSolve`: the search that the settings name.
-/

namespace PrimalHeuristics

open Exact SubProblem

/-- Costs and coefficients are rational numbers; only bounds may be infinite. -/
structure Problem.IsRational (p : Problem Exact) : Prop where
  cost : ∀ k ∈ p.columns, Scalar.isFinite k.objective = true
  entry : ∀ l ∈ p.matrix.rows, ∀ e ∈ l, Scalar.isFinite e.2 = true

/-- The vector keeps the bounds, integrality and all rows, without any tolerance. -/
structure Problem.IsExactlyFeasible (p : Problem Exact) (b : Box Exact) (y : Array Exact) :
    Prop where
  holds : b.HoldsAll p.numCols y
  integral : ∀ c < p.numCols, p.isInteger c = true → ∃ z : ℤ, y.getD c 0 = finite z
  rows : ∀ r < p.numRows, ∃ a, (p.matrix.row r).activity y = .ok a ∧
    (p.boundsOf r).lower ≤ a ∧ a ≤ (p.boundsOf r).upper

/-! ### Sums of rational numbers -/

theorem Exact.exists_sum_eq {l : List Exact} (h : ∀ v ∈ l, ∃ q, v = finite q) :
    ∃ q, l.sum = finite q := by
  induction l with
  | nil => exact ⟨0, rfl⟩
  | cons v l ih =>
    obtain ⟨q, rfl⟩ := h v List.mem_cons_self
    obtain ⟨t, ht⟩ := ih fun w hw => h w (List.mem_cons_of_mem _ hw)
    exact ⟨q + t, by rw [List.sum_cons, ht, finite_add]⟩

variable {p : Problem Exact} {b : Box Exact} {free : Array Bool} {values x y : Array Exact}

namespace Problem

theorem IsRational.exists_cost (hp : p.IsRational) (c : Nat) : ∃ q, p.cost c = finite q := by
  unfold Problem.cost
  cases hc : p.columns[c]? with
  | none => exact ⟨0, rfl⟩
  | some k => exact ⟨_, isFinite_iff.1 (hp.cost k (Array.mem_of_getElem? hc))⟩

theorem IsRational.exists_entry (hp : p.IsRational) {r : Nat} {e : Nat × Exact}
    (he : e ∈ p.matrix.row r) : ∃ q, e.2 = finite q := by
  rcases p.matrix.row_mem r with h | h
  · exact ⟨_, isFinite_iff.1 (hp.entry _ h e he)⟩
  · rw [h] at he
    contradiction

theorem IsRational.exists_fixedActivity (hp : p.IsRational) (free : Array Bool)
    (hv : ∀ c < p.numCols, ∃ q, values.getD c 0 = finite q) (r : Nat) :
    ∃ q, fixedActivity free values (p.matrix.row r) = finite q := by
  rw [fixedActivity_eq_sum]
  refine exists_sum_eq fun v hmem => ?_
  obtain ⟨e, he, rfl⟩ := List.mem_map.1 hmem
  have he := (List.mem_filter.1 he).1
  obtain ⟨q, hq⟩ := hp.exists_entry he
  obtain ⟨t, ht⟩ := hv e.1 ((ordered_row p r).2 e he)
  exact ⟨q * t, by rw [hq, ht, finite_mul]⟩

theorem IsRational.exists_freeActivity (hp : p.IsRational)
    (hx : ∀ j < rank free p.numCols, ∃ q, x.getD j 0 = finite q) (r : Nat) :
    ∃ q, (freeEntries free (p.matrix.row r)).dot x = finite q := by
  rw [dot_freeEntries]
  refine exists_sum_eq fun v hmem => ?_
  obtain ⟨e, he, rfl⟩ := List.mem_map.1 hmem
  obtain ⟨he, hfree⟩ := List.mem_filter.1 he
  obtain ⟨q, hq⟩ := hp.exists_entry he
  obtain ⟨t, ht⟩ := hx (rank free e.1) (rank_lt_rank hfree ((ordered_row p r).2 e he))
  exact ⟨q * t, by rw [hq, ht, finite_mul]⟩

end Problem

/-! ### Rows that are kept exactly -/

namespace RowBounds

theorem violation_eq_zero {b : RowBounds Exact} {a : Exact} (hl : b.lower ≤ a) (hu : a ≤ b.upper) :
    b.violation a = 0 := by
  have hlower : ¬ a < b.lower := fun h => Exact.lt_irrefl _ (Exact.lt_of_lt_of_le h hl)
  have hupper : ¬ b.upper < a := fun h => Exact.lt_irrefl _ (Exact.lt_of_lt_of_le h hu)
  rw [violation, if_neg hlower, if_neg hupper]

/-- What the fixed columns contribute may move to the bounds of a row that is kept. -/
theorem between_shiftBounds {b : RowBounds Exact} (hb : b.HasTrueInfinities) {f r : ℚ}
    (hl : b.lower ≤ finite f + finite r) (hu : finite f + finite r ≤ b.upper) :
    (shiftBounds b (finite f)).lower ≤ finite r ∧
      finite r ≤ (shiftBounds b (finite f)).upper := by
  obtain ⟨lower, upper⟩ := b
  obtain ⟨hlower, hupper⟩ := hb
  constructor
  · show shiftBound lower (finite f) ≤ finite r
    rcases hlower with h | ⟨s, rfl⟩
    · obtain ⟨a, rfl, -⟩ := isBound_iff.1 h
      rw [finite_add, finite_le] at hl
      rw [shiftBound, if_pos h, finite_sub, finite_le]
      linarith
    · rw [shiftBound_infinite]
      simpa using hl
  · show finite r ≤ shiftBound upper (finite f)
    rcases hupper with h | ⟨s, rfl⟩
    · obtain ⟨a, rfl, -⟩ := isBound_iff.1 h
      rw [finite_add, finite_le] at hu
      rw [shiftBound, if_pos h, finite_sub, finite_le]
      linarith
    · rw [shiftBound_infinite]
      simpa using hu

end RowBounds

/-! ### Sub-problems of integer columns -/

namespace SubProblem

/-- Every place of a sub-problem is that of a free column. -/
theorem exists_freeColumn {n j : Nat} (hj : j < rank free n) :
    ∃ c < n, (freeColumns free n)[j]? = some c := by
  rw [← length_freeColumns] at hj
  have hget := List.getElem?_eq_getElem hj
  exact ⟨_, (mem_freeColumns.1 (List.mem_of_getElem? hget)).1, hget⟩

section Sub

variable {m : Matrix Exact} {h : freeMatrix? p free = .ok m}

theorem isRational_ofFree (hp : p.IsRational)
    (hv : ∀ c < p.numCols, ∃ q, values.getD c 0 = finite q) :
    (ofFree p values free b m h).IsRational where
  offset := by
    obtain ⟨q, hq⟩ : ∃ q, (ofFree p values free b m h).offset = finite q := by
      simp only [ofFree, sum_eq]
      refine exists_sum_eq fun v hmem => ?_
      obtain ⟨c, hc, rfl⟩ := List.mem_map.1 hmem
      obtain ⟨q, hq⟩ := hp.exists_cost c
      obtain ⟨t, ht⟩ := hv c (List.mem_range.1 (List.mem_filter.1 hc).1)
      exact ⟨q * t, by rw [hq, ht, finite_mul]⟩
    rw [hq, isFinite_finite]
  cost k hk := by
    obtain ⟨c, -, -, rfl⟩ := exists_origin hk
    obtain ⟨q, hq⟩ := hp.exists_cost c
    show Scalar.isFinite (p.cost c) = true
    rw [hq, isFinite_finite]
  entry l hl e he := by
    have hl : l ∈ freeRows p free := by
      have : l ∈ m.rows := hl
      rwa [(rows_of_freeMatrix? h).2, List.mem_toArray] at this
    obtain ⟨r, -, rfl⟩ := List.mem_map.1 hl
    obtain ⟨d, hd, hde⟩ := List.mem_filterMap.1 he
    obtain ⟨q, hq⟩ := hp.exists_entry hd
    split at hde
    · cases hde
      rw [hq, isFinite_finite]
    · cases hde

/-- Only integer columns are free, and their bounds are whole numbers. -/
theorem isIntegerBox_ofFree (hb : b.IsProper p)
    (hfree : ∀ c < p.numCols, isFree free c = true → p.isInteger c = true) :
    (ofFree p values free b m h).IsIntegerBox := by
  intro k hk
  obtain ⟨c, hc, hf, rfl⟩ := exists_origin hk
  have hi := hfree c hc hf
  obtain ⟨hl, hu⟩ := hb.isBound c hc
  exact .inl ⟨hi, hl, hu, hb.whole c hc hi⟩

/-- The entries of a feasible vector are rational numbers, for they lie between bounds that are. -/
theorem exists_finite_of_isFeasible (hb : b.IsProper p)
    (hx : (ofFree p values free b m h).IsFeasible x (ofFree p values free b m h).box) :
    ∀ j < rank free p.numCols, ∃ q, x.getD j 0 = finite q := by
  intro j hj
  obtain ⟨c, hc, hget⟩ := exists_freeColumn hj
  obtain ⟨hlower, hupper, -⟩ := (isWithin_ofFree hget).1 (hx.1 j (by simpa using hj))
  obtain ⟨l, u, hl, hu, -⟩ := hb.exists_finite hc
  rw [hl, feasTol_eq, finite_sub] at hlower
  rw [hu, feasTol_eq, finite_add] at hupper
  exact ⟨_, eq_finite_of_between hlower hupper⟩

/-! ### The free part of a vector -/

/-- The entries of a vector in the free columns. -/
def freePart (free : Array Bool) (n : Nat) (y : Array Exact) : Array Exact :=
  ((freeColumns free n).map (y.getD · 0)).toArray

@[simp] theorem size_freePart (n : Nat) : (freePart free n y).size = rank free n := by
  simp [freePart, length_freeColumns]

theorem getD_freePart {n j c : Nat} (hc : (freeColumns free n)[j]? = some c) :
    (freePart free n y).getD j 0 = y.getD c 0 := by
  simp [freePart, hc]

/-- A vector with the fixed values is the expansion of its free part. -/
theorem isExpansion_freePart {n : Nat} (hy : y.size = n)
    (hfixed : ∀ c < n, isFree free c = false → y.getD c 0 = values.getD c 0) :
    IsExpansion n free values (freePart free n y) y :=
  ⟨hy, hfixed, fun _ hc hf => (getD_freePart (freeColumns_rank hc hf)).symm⟩

/-- The free part of an exactly feasible vector with the fixed values is exactly feasible. -/
theorem isExactlyFeasible_freePart (hp : p.IsRational)
    (hrows : ∀ r < p.numRows, (p.boundsOf r).HasTrueInfinities) (hb : b.IsProper p)
    (hv : ∀ c < p.numCols, ∃ q, values.getD c 0 = finite q) (hy : p.IsExactlyFeasible b y)
    (hfixed : ∀ c < p.numCols, isFree free c = false → y.getD c 0 = values.getD c 0) :
    (ofFree p values free b m h).IsExactlyFeasible (freePart free p.numCols y) := by
  have hexpansion := isExpansion_freePart hy.holds.1 hfixed
  have hcolumn : ∀ j < (ofFree p values free b m h).numCols, ∃ c < p.numCols,
      (freeColumns free p.numCols)[j]? = some c :=
    fun j hj => exists_freeColumn (hj.trans_eq numCols_ofFree)
  have hfinite : ∀ j < rank free p.numCols,
      ∃ q, (freePart free p.numCols y).getD j 0 = finite q := by
    intro j hj
    obtain ⟨c, hc, hget⟩ := exists_freeColumn hj
    exact ⟨_, (getD_freePart hget).trans (hb.eq_finite hc (hy.holds.2 c hc))⟩
  refine ⟨by simp, fun j hj => ?_, fun j hj hi => ?_, fun k hk => ?_⟩
  · obtain ⟨c, hc, hget⟩ := hcolumn j hj
    obtain ⟨hl, hu⟩ := hy.holds.2 c hc
    rw [getD_freePart hget]
    exact ⟨by simpa [box, ofFree, hget] using hl, by simpa [box, ofFree, hget] using hu⟩
  · obtain ⟨c, hc, hget⟩ := hcolumn j hj
    rw [getD_freePart hget]
    exact hy.integral c hc (by simpa [isInteger, ofFree, hget] using hi)
  · have hk : k < (keptRows p free).length := by simpa [numRows, ofFree] using hk
    have hget := List.getElem?_eq_getElem hk
    have hr := (mem_keptRows.1 (List.mem_of_getElem? hget)).1
    obtain ⟨a, ha, hl, hu⟩ := hy.rows _ hr
    rw [Line.activity_eq fun e he => hy.holds.1 ▸ (ordered_row p _).2 e he, Except.ok.injEq,
      dot_of_isExpansion hexpansion (ordered_row p _)] at ha
    -- both parts of the activity are rational numbers, so the fixed one may move to the bounds
    obtain ⟨s, hs⟩ := hp.exists_fixedActivity free hv (keptRows p free)[k]
    obtain ⟨t, ht⟩ := hp.exists_freeActivity hfinite (keptRows p free)[k]
    rw [← ha, hs, ht] at hl hu
    refine ⟨_, Line.activity_eq fun e he => ?_, ?_⟩
    · rw [size_freePart]
      exact (lt_of_mem_row he).trans_eq numCols_ofFree
    · rw [row_ofFree hget, boundsOf_ofFree hget, hs, ht]
      exact RowBounds.between_shiftBounds (hrows _ hr) hl hu

end Sub

/-- No row without a free column keeps a vector with the fixed values from being feasible. -/
theorem isBlocked_eq_false (hy : p.IsExactlyFeasible b y)
    (hfixed : ∀ c < p.numCols, isFree free c = false → y.getD c 0 = values.getD c 0) {r : Nat}
    (hr : r < p.numRows) : isBlocked p free values r = false := by
  rw [← Bool.not_eq_true, isBlocked_iff hfixed r]
  rintro ⟨-, hviolated⟩
  obtain ⟨a, ha, hl, hu⟩ := hy.rows r hr
  rw [Line.activity_eq fun e he => hy.holds.1 ▸ (ordered_row p r).2 e he, Except.ok.injEq] at ha
  rw [ha, RowBounds.violation_eq_zero hl hu, feasTol_eq, zero_eq, finite_lt] at hviolated
  norm_num at hviolated

end SubProblem

/-- The search that the settings name is optimal on sub-problems of integer columns. -/
theorem Settings.isOptimal_subSolve (s : Settings Exact) {sub : SubProblem Exact}
    (hs : sub.IsRational) (hbox : sub.IsIntegerBox) (hnone : sub.freeContinuousColumn = none)
    {cutoff : Exact} (hcutoff : cutoff ≠ nan) (cap : Nat) (label : String) :
    ∃ r report, s.subSolve sub cap cutoff label = .ok (r, report) ∧ r.IsOptimal sub cutoff ∧
      ∀ x, r.solution = some x → x.size = sub.numCols := by
  obtain ⟨r, hr, hoptimal, hsize⟩ :=
    Search.exists_optimal_result hs hbox hcutoff Relaxation.defaultPasses cap
  obtain ⟨report, hreport⟩ := s.subSolve_of_run hnone hr label
  exact ⟨r, report, hreport, hoptimal, hsize⟩

end PrimalHeuristics
