import PrimalHeuristics.Proofs.Search.IntegerNodes

/-!
# A branch parts its box

Over exact numbers, a node is split between two neighbouring whole numbers, whichever rule chooses the
column and whatever point of the box the choice is made at. So a point that is whole in this column is
in exactly one child, and each child misses points of the node.

No branch is chosen at a whole point if no row is violated, or if the first violated row is already as
close to its bounds as any point of the box can bring it.

* `Box.Encloses`, `Box.HasPoint`: vectors between the bounds, and the points of a box;
* `Branch.IsInner`, `Branch.PartsAt`: a split between neighbouring whole numbers inside of the bounds,
  and `Branch.partsAt_of_choice`: every branch is one;
* `Branch.Parts`: what this means for the points of the two children;
* `Exact.Surpasses`, `Branch.violated_of_stuck`: rows that are out of reach;
* `Branch.choose_parts`: what the choice of a branch, or of none, says about a box.
-/

namespace PrimalHeuristics

open Exact

/-! ### Points of a box -/

/-- The values of a vector are rational, and between the bounds of their columns in whatever order
these are. -/
def Box.Encloses (b : Box Exact) (n : Nat) (x : Array Exact) : Prop :=
  ∀ j < n, ∃ q, x.getD j 0 = finite q ∧ (finite q < b.upper.getD j 0 → b.lower.getD j 0 ≤ finite q) ∧
    (b.lower.getD j 0 < finite q → finite q ≤ b.upper.getD j 0)

/-- The vector is a point of the box: rational numbers between the bounds. -/
structure Box.HasPoint (b : Box Exact) (n : Nat) (x : Array Exact) : Prop where
  size : x.size = n
  isFinite : ∀ j < n, Scalar.isFinite (x.getD j 0) = true
  within : ∀ j < n, b.lower.getD j 0 ≤ x.getD j 0 ∧ x.getD j 0 ≤ b.upper.getD j 0

/-- The first box has some of the points of the second one, but not all. -/
def Box.HasFewerPoints (c b : Box Exact) (n : Nat) : Prop :=
  (∀ y, c.HasPoint n y → b.HasPoint n y) ∧ ∃ y, b.HasPoint n y ∧ ¬ c.HasPoint n y

namespace Box.HasPoint

variable {b : Box Exact} {n : Nat} {x : Array Exact}

/-- An entry of a point. -/
theorem exists_eq (h : b.HasPoint n x) {j : Nat} (hj : j < n) :
    ∃ q, x.getD j 0 = finite q ∧ b.lower.getD j 0 ≤ finite q ∧ finite q ≤ b.upper.getD j 0 := by
  have hq := isFinite_iff.1 (h.isFinite j hj)
  exact ⟨_, hq, hq ▸ h.within j hj⟩

theorem encloses (h : b.HasPoint n x) : b.Encloses n x := by
  intro j hj
  obtain ⟨q, hq, hl, hu⟩ := h.exists_eq hj
  exact ⟨q, hq, fun _ => hl, fun _ => hu⟩

/-- Another value between the bounds of a column makes another point. -/
theorem set (h : b.HasPoint n x) {c : Nat} (hc : c < n) {q : ℚ} (hl : b.lower.getD c 0 ≤ finite q)
    (hu : finite q ≤ b.upper.getD c 0) : b.HasPoint n (x.setIfInBounds c (finite q)) := by
  refine ⟨by simpa using h.size, fun j hj => ?_, fun j hj => ?_⟩ <;>
    rw [getD_setIfInBounds (h.size ▸ hc)]
  · split
    · rfl
    · exact h.isFinite j hj
  · split
    · subst j
      exact ⟨hl, hu⟩
    · exact h.within j hj

end Box.HasPoint

/-! ### Whole numbers next to a value -/

namespace Exact

/-- The nearest whole number of one that is close to a whole number. -/
theorem nearest_eq {q : ℚ} {z : ℤ} (h : |q - z| < 1 / 2) : nearest q = z := by
  rw [abs_lt] at h
  unfold nearest
  split
  · rw [Int.floor_eq_iff]
    constructor <;> linarith
  · rw [Int.ceil_eq_iff]
    constructor <;> linarith

/-- A number whose fraction does not make for a split is close to its nearest whole number. -/
theorem abs_nearest_sub_le {q : ℚ}
    (h : ¬ (1 / 10 ^ 5 < q - ⌊q⌋ ∧ q - ⌊q⌋ < 1 - 1 / 10 ^ 5)) :
    |(nearest q : ℚ) - q| ≤ 1 / 10 ^ 5 := by
  have hfloor := Int.floor_le q
  have hlt := Int.lt_floor_add_one q
  by_cases hlow : 1 / 10 ^ 5 < q - ⌊q⌋
  · have hhigh : 1 - 1 / 10 ^ 5 ≤ q - ⌊q⌋ := not_lt.1 fun hh => h ⟨hlow, hh⟩
    have habove : nearest q = ⌊q⌋ + 1 := nearest_eq (by
      push_cast
      rw [abs_lt]
      constructor <;> linarith)
    rw [habove, abs_le]
    push_cast
    constructor <;> linarith
  · have hbelow : nearest q = ⌊q⌋ := nearest_eq (by
      rw [abs_lt]
      constructor <;> linarith)
    rw [hbelow, abs_le]
    constructor <;> linarith

theorem finite_lt_sub_iff {q e : ℚ} {x : Exact} :
    finite q < x - finite e ↔ finite (q + e) < x := by
  rcases x with a | (_ | _) | _ <;> simp [lt_sub_iff_add_lt]

theorem add_lt_finite_iff {q e : ℚ} {x : Exact} :
    x + finite e < finite q ↔ x < finite (q - e) := by
  rcases x with a | (_ | _) | _ <;> simp [lt_sub_iff_add_lt]

/-- A value between two bounds that are not crossed. -/
theorem le_and_le_of_lt {l u : Exact} {q : ℚ} (hlu : l < u) (hup : finite q < u → l ≤ finite q)
    (hdown : l < finite q → finite q ≤ u) : l ≤ finite q ∧ finite q ≤ u := by
  by_cases hqu : finite q < u
  · exact ⟨hup hqu, Exact.le_of_lt hqu⟩
  · have hnan : u ≠ nan := by
      rintro rfl
      simp at hlu
    have hlq := Exact.lt_of_lt_of_le hlu (Exact.le_of_not_lt hnan hqu)
    exact ⟨Exact.le_of_lt hlq, hdown hlq⟩

/-- A value strictly above `m` that is not below `q`, up to a bound. -/
theorem exists_above {u : Exact} {m q : ℚ} (hm : finite m < u) (hq : finite q ≤ u) :
    ∃ r, m < r ∧ q ≤ r ∧ finite r ≤ u := by
  rcases u with a | (_ | _) | _
  · exact ⟨a, by simpa using hm, by simpa using hq, by simp⟩
  · exact ⟨max (m + 1) q, lt_max_of_lt_left (lt_add_one m), le_max_right _ _, by simp⟩
  · simp at hm
  · simp at hm

/-- A value strictly below `m` that is not above `q`, down to a bound. -/
theorem exists_below {l : Exact} {m q : ℚ} (hm : l < finite m) (hq : l ≤ finite q) :
    ∃ r, r < m ∧ r ≤ q ∧ l ≤ finite r := by
  rcases l with a | (_ | _) | _
  · exact ⟨a, by simpa using hm, by simpa using hq, by simp⟩
  · simp at hm
  · exact ⟨min (m - 1) q, min_lt_of_left_lt (sub_one_lt m), min_le_right _ _, by simp⟩
  · simp at hm

end Exact

/-! ### The two children -/

namespace Branch

variable {s : SubProblem Exact} {b : Box Exact} {branch : Branch Exact} {x y : Array Exact}

/-- Both children of a split are tighter than the node. -/
structure IsInner (s : SubProblem Exact) (b : Box Exact) (branch : Branch Exact) : Prop where
  column_lt : branch.column < s.numCols
  down_lt : branch.downUpper < b.upper.getD branch.column 0
  lt_up : b.lower.getD branch.column 0 < branch.upLower

/-- An integer column is split between `m` and the next whole number, inside of its bounds. -/
structure PartsAt (s : SubProblem Exact) (b : Box Exact) (branch : Branch Exact) (m : ℤ) : Prop
    extends IsInner s b branch where
  integer : s.isInteger branch.column = true
  down_eq : branch.downUpper = finite m
  up_eq : branch.upLower = finite (m + 1 : ℤ)

theorem canSplit_iff {j : Nat} {q : ℚ} (hq : x.getD j 0 = finite q) : CanSplit s x b j ↔
    s.isInteger j = true ∧ b.lower.getD j 0 < b.upper.getD j 0 ∧
      1 / 10 ^ 5 < q - ⌊q⌋ ∧ q - ⌊q⌋ < 1 - 1 / 10 ^ 5 := by
  rw [CanSplit, fraction, hq, floor_finite, finite_sub, intTol_eq, one_eq, finite_sub, finite_lt,
    finite_lt]

/-- A split around a fraction is one. -/
theorem exists_partsAt_around (hx : b.Encloses s.numCols x) {j : Nat} (hj : j < s.numCols)
    (h : CanSplit s x b j) : ∃ m, PartsAt s b (around x j) m := by
  obtain ⟨q, hq, hup, hdown⟩ := hx j hj
  obtain ⟨hi, hlu, hlow, hhigh⟩ := (canSplit_iff hq).1 h
  obtain ⟨hl, hu⟩ := le_and_le_of_lt hlu hup hdown
  have hfloor : (⌊q⌋ : ℚ) < q := by linarith
  have hlt : q < (⌊q⌋ + 1 : ℤ) := by
    push_cast
    exact Int.lt_floor_add_one q
  have hceil : ⌈q⌉ = ⌊q⌋ + 1 := by
    rw [Int.ceil_eq_iff]
    push_cast
    constructor <;> linarith
  refine ⟨⌊q⌋, ⟨hj, ?_, ?_⟩, hi, ?_, ?_⟩ <;>
    simp only [around, hq, floor_finite, ceil_finite, hceil]
  · exact Exact.lt_of_lt_of_le ((finite_lt _ _).2 hfloor) hu
  · exact Exact.lt_of_le_of_lt hl ((finite_lt _ _).2 hlt)

/-- So is a move, if no column has a fraction: the room for it is more than what rounding adds to the
value. -/
theorem exists_partsAt_move (hx : b.Encloses s.numCols x)
    (hwhole : ∀ j < s.numCols, ¬ CanSplit s x b j) {increase : Bool} {e : Nat × Exact}
    (hj : e.1 < s.numCols) (h : CanMove s x b increase e) :
    ∃ m, PartsAt s b (move x increase e) m := by
  obtain ⟨hi, hroom⟩ := h
  obtain ⟨q, hq, hup, hdown⟩ := hx _ hj
  have hnearest (hlu : b.lower.getD e.1 0 < b.upper.getD e.1 0) :
      |(nearest q : ℚ) - q| ≤ 1 / 10 ^ 5 :=
    abs_nearest_sub_le fun hfraction => hwhole _ hj ((canSplit_iff hq).2 ⟨hi, hlu, hfraction⟩)
  rw [hq, intTol_eq, finite_lt_sub_iff, add_lt_finite_iff] at hroom
  unfold Branch.move
  by_cases hgoes : goesUp increase e.2 = true
  · rw [if_pos hgoes] at hroom
    have hqu : finite q < b.upper.getD e.1 0 :=
      Exact.lt_of_le_of_lt ((finite_le _ _).2 (by norm_num)) hroom
    have hl := hup hqu
    obtain ⟨hlow, hhigh⟩ := abs_le.1 (hnearest (Exact.lt_of_le_of_lt hl hqu))
    refine ⟨nearest q, ⟨?_, ?_, ?_⟩, ?_, ?_, ?_⟩ <;>
      simp only [hgoes, if_true, hq, round_finite, one_eq, finite_add]
    · exact hj
    · exact Exact.lt_of_le_of_lt ((finite_le _ _).2 (by linarith)) hroom
    · exact Exact.lt_of_le_of_lt hl ((finite_lt _ _).2 (by linarith))
    · exact hi
    · push_cast
      rfl
  · rw [if_neg hgoes] at hroom
    have hlq : b.lower.getD e.1 0 < finite q :=
      Exact.lt_of_lt_of_le hroom ((finite_le _ _).2 (by norm_num))
    have hu := hdown hlq
    obtain ⟨hlow, hhigh⟩ := abs_le.1 (hnearest (Exact.lt_of_lt_of_le hlq hu))
    refine ⟨nearest q - 1, ⟨?_, ?_, ?_⟩, ?_, ?_, ?_⟩ <;>
      simp only [hgoes, if_false, Bool.false_eq_true, hq, round_finite, one_eq, finite_sub]
    · exact hj
    · exact Exact.lt_of_lt_of_le ((finite_lt _ _).2 (by linarith)) hu
    · exact Exact.lt_of_lt_of_le hroom ((finite_le _ _).2 (by linarith))
    · exact hi
    · push_cast
      rfl
    · rw [sub_add_cancel]

/-- A branch that is chosen between the bounds splits them between neighbouring whole numbers. -/
theorem partsAt_of_choice (hx : b.Encloses s.numCols x) (h : Choice s x b (some branch)) :
    ∃ m, PartsAt s b branch m := by
  cases h with
  | split hj h => exact exists_partsAt_around hx hj h
  | move whole _ _ he h => exact exists_partsAt_move hx whole (SubProblem.lt_of_mem_row he) h

end Branch

namespace Search

variable {s : SubProblem Exact} {b : Box Exact} {branch : Branch Exact} {x y : Array Exact}

section Children

variable (hb : b.HasSize s.numCols) (h : Branch.IsInner s b branch)

include hb h

/-- The child that goes down has the points of the node up to its upper bound. -/
theorem hasPoint_downBox_iff : (downBox b branch).HasPoint s.numCols y ↔
    b.HasPoint s.numCols y ∧ y.getD branch.column 0 ≤ branch.downUpper := by
  have hupper := getD_upper_downBox hb h.column_lt
  constructor
  · intro hy
    have hcolumn : y.getD branch.column 0 ≤ branch.downUpper := by
      have hle := (hy.within _ h.column_lt).2
      rwa [hupper, if_pos rfl] at hle
    refine ⟨⟨hy.size, hy.isFinite, fun j hj => ⟨(hy.within j hj).1, ?_⟩⟩, hcolumn⟩
    have hle := (hy.within j hj).2
    rw [hupper] at hle
    split at hle
    · subst j
      exact Exact.le_of_lt (Exact.lt_of_le_of_lt hle h.down_lt)
    · exact hle
  · rintro ⟨hy, hcolumn⟩
    refine ⟨hy.size, hy.isFinite, fun j hj => ⟨(hy.within j hj).1, ?_⟩⟩
    rw [hupper]
    split
    · subst j
      exact hcolumn
    · exact (hy.within j hj).2

/-- The child that goes up has the points of the node from its lower bound on. -/
theorem hasPoint_upBox_iff : (upBox b branch).HasPoint s.numCols y ↔
    b.HasPoint s.numCols y ∧ branch.upLower ≤ y.getD branch.column 0 := by
  have hlower := getD_lower_upBox hb h.column_lt
  constructor
  · intro hy
    have hcolumn : branch.upLower ≤ y.getD branch.column 0 := by
      have hle := (hy.within _ h.column_lt).1
      rwa [hlower, if_pos rfl] at hle
    refine ⟨⟨hy.size, hy.isFinite, fun j hj => ⟨?_, (hy.within j hj).2⟩⟩, hcolumn⟩
    have hle := (hy.within j hj).1
    rw [hlower] at hle
    split at hle
    · subst j
      exact Exact.le_of_lt (Exact.lt_of_lt_of_le h.lt_up hle)
    · exact hle
  · rintro ⟨hy, hcolumn⟩
    refine ⟨hy.size, hy.isFinite, fun j hj => ⟨?_, (hy.within j hj).2⟩⟩
    rw [hlower]
    split
    · subst j
      exact hcolumn
    · exact (hy.within j hj).1

end Children

end Search

namespace Branch

open Search

variable {s : SubProblem Exact} {b : Box Exact} {branch : Branch Exact} {x y : Array Exact}

/-- An integer column is split between neighbouring whole numbers. A point of the box that is whole in
this column is in exactly one child, and both children have fewer points than the box. -/
structure Parts (s : SubProblem Exact) (b : Box Exact) (branch : Branch Exact) : Prop where
  exists_partsAt : ∃ m, PartsAt s b branch m
  exactlyOne : ∀ y (z : ℤ), b.HasPoint s.numCols y → y.getD branch.column 0 = finite z →
    ((downBox b branch).HasPoint s.numCols y ↔ ¬ (upBox b branch).HasPoint s.numCols y)
  down : (downBox b branch).HasFewerPoints b s.numCols
  up : (upBox b branch).HasFewerPoints b s.numCols

theorem PartsAt.parts {m : ℤ} (h : PartsAt s b branch m) (hb : b.HasSize s.numCols)
    (hx : b.HasPoint s.numCols x) : Parts s b branch := by
  have hdown (y : Array Exact) := hasPoint_downBox_iff (y := y) hb h.toIsInner
  have hup (y : Array Exact) := hasPoint_upBox_iff (y := y) hb h.toIsInner
  obtain ⟨q, hq, hl, hu⟩ := hx.exists_eq h.column_lt
  have hcolumn : branch.column < x.size := hx.size ▸ h.column_lt
  refine ⟨⟨m, h⟩, fun y z hy hz => ?_, ?_, ?_⟩
  · rw [hdown, hup, and_iff_right hy, and_iff_right hy, hz, h.down_eq, h.up_eq, finite_le, finite_le,
      Int.cast_le, Int.cast_le]
    omega
  · -- the value of the column may go beyond the upper bound of the child
    obtain ⟨r, hmr, hqr, hru⟩ := exists_above (h.down_eq ▸ h.down_lt) hu
    have hlr := Exact.le_trans hl ((finite_le _ _).2 hqr)
    refine ⟨fun y hy => ((hdown y).1 hy).1, _, hx.set h.column_lt hlr hru, fun hmem => ?_⟩
    have hle := ((hdown _).1 hmem).2
    rw [getD_setIfInBounds hcolumn, if_pos rfl, h.down_eq, finite_le] at hle
    exact absurd hle (not_le.2 hmr)
  · obtain ⟨r, hrm, hrq, hlr⟩ := exists_below (h.up_eq ▸ h.lt_up) hl
    have hru := Exact.le_trans ((finite_le _ _).2 hrq) hu
    refine ⟨fun y hy => ((hup y).1 hy).1, _, hx.set h.column_lt hlr hru, fun hmem => ?_⟩
    have hle := ((hup _).1 hmem).2
    rw [getD_setIfInBounds hcolumn, if_pos rfl, h.up_eq, finite_le] at hle
    exact absurd hle (not_le.2 hrm)

end Branch

/-! ### Rows out of reach -/

namespace Exact

/-- A value is at least as far in the wanted direction as another one. -/
def Surpasses (increase : Bool) (x y : Exact) : Prop :=
  if increase then y ≤ x else x ≤ y

/-- A number that is not the infinite one of a sign. -/
def Avoids (negative : Bool) (x : Exact) : Prop :=
  x ≠ nan ∧ x ≠ infinite negative

section Surpasses

variable {increase : Bool} {x y x' y' : Exact}

theorem avoids_add_iff {negative : Bool} :
    Avoids negative (x + y) ↔ Avoids negative x ∧ Avoids negative y := by
  unfold Avoids
  rcases x with a | (_ | _) | _ <;> rcases y with c | (_ | _) | _ <;> cases negative <;> simp

/-- Sums go as far as their terms, unless they are infinite on the wanted side. -/
theorem Surpasses.add (h : Surpasses increase x y) (h' : Surpasses increase x' y')
    (hx : Avoids (!increase) x) (hx' : Avoids (!increase) x') :
    Surpasses increase (x + x') (y + y') := by
  unfold Surpasses Avoids at *
  cases increase <;> rcases x with a | (_ | _) | _ <;> rcases y with c | (_ | _) | _ <;>
    rcases x' with a' | (_ | _) | _ <;> rcases y' with c' | (_ | _) | _ <;> simp_all <;> linarith

theorem Surpasses.sum {β : Type} {l : List β} {f g : β → Exact}
    (h : ∀ e ∈ l, Avoids (!increase) (f e) → Surpasses increase (f e) (g e))
    (hsum : Avoids (!increase) (l.map f).sum) :
    Surpasses increase (l.map f).sum (l.map g).sum := by
  induction l with
  | nil => cases increase <;> simp [Surpasses, zero_eq]
  | cons e l ih =>
    rw [List.map_cons, List.sum_cons] at hsum
    obtain ⟨he, hl⟩ := avoids_add_iff.1 hsum
    exact (h e (by simp) he).add (ih (fun d hd => h d (by simp [hd])) hl) he hl

theorem surpasses_self (increase t : Bool) : Surpasses increase (infinite t) (infinite t) := by
  cases increase <;> cases t <;> simp [Surpasses]

theorem avoids_of_lt (h : x < y) : Avoids false x := by
  refine ⟨?_, ?_⟩ <;> rintro rfl <;> simp at h

theorem avoids_of_gt (h : y < x) : Avoids true x := by
  refine ⟨?_, ?_⟩ <;> rintro rfl <;> simp at h

theorem infinite_mul_finite (t : Bool) (q : ℚ) :
    infinite t * finite q = if q = 0 then nan else infinite (t != decide (q < 0)) := rfl

/-- A term goes as far as its value does, in the direction that the sign of its coefficient asks
for. -/
theorem surpasses_mul {a : Exact} {p q : ℚ} (hup : Branch.goesUp increase a = true → q ≤ p)
    (hdown : Branch.goesUp increase a = false → p ≤ q) (h : Avoids (!increase) (a * finite p)) :
    Surpasses increase (a * finite p) (a * finite q) := by
  unfold Branch.goesUp at hup hdown
  rcases a with c | t | _
  · rw [finite_mul, finite_mul]
    rcases lt_or_ge 0 c with hc | hc
    · have hpos : decide ((0 : Exact) < finite c) = true := by simpa [zero_eq] using hc
      rw [hpos] at hup hdown
      cases increase
      · exact (finite_le _ _).2 (mul_le_mul_of_nonneg_left (hdown rfl) hc.le)
      · exact (finite_le _ _).2 (mul_le_mul_of_nonneg_left (hup rfl) hc.le)
    · have hneg : decide ((0 : Exact) < finite c) = false := by simpa [zero_eq] using hc
      rw [hneg] at hup hdown
      cases increase
      · exact (finite_le _ _).2 (mul_le_mul_of_nonpos_left (hup rfl) hc)
      · exact (finite_le _ _).2 (mul_le_mul_of_nonpos_left (hdown rfl) hc)
  · -- the term is infinite on the side that is not wanted, and stays so
    have hsign : decide ((0 : Exact) < infinite t) = !t := by cases t <;> rfl
    rw [hsign] at hup hdown
    rw [infinite_mul_finite] at h ⊢
    rw [infinite_mul_finite]
    have hp : p ≠ 0 := by
      rintro rfl
      exact h.1 (if_pos rfl)
    rw [if_neg hp] at h ⊢
    have hside : (t != decide (p < 0)) = increase := by
      have hne : (t != decide (p < 0)) ≠ !increase := fun heq => h.2 (congrArg infinite heq)
      simpa using hne
    rcases lt_or_gt_of_ne hp with hneg | hpos
    · have hq : q < 0 := (hup (by simpa [hneg] using hside)).trans_lt hneg
      rw [if_neg hq.ne, decide_eq_true hneg, decide_eq_true hq]
      exact surpasses_self increase _
    · have hq : 0 < q := hpos.trans_le (hdown (by simpa [hpos.not_gt] using hside))
      rw [if_neg hq.ne', decide_eq_false hpos.not_gt, decide_eq_false hq.not_gt]
      exact surpasses_self increase _
  · exact absurd rfl h.1

theorem lt_sub_of_le {l : Exact} (h : y ≤ x) (hlt : Scalar.feasTol < l - x) :
    Scalar.feasTol < l - y := by
  rw [feasTol_eq] at hlt ⊢
  rcases l with c | (_ | _) | _ <;> rcases x with p | (_ | _) | _ <;>
    rcases y with q | (_ | _) | _ <;> simp_all [sub_eq]
  linarith

theorem lt_sub_of_ge {u : Exact} (h : x ≤ y) (hlt : Scalar.feasTol < x - u) :
    Scalar.feasTol < y - u := by
  rw [feasTol_eq] at hlt ⊢
  rcases u with c | (_ | _) | _ <;> rcases x with p | (_ | _) | _ <;>
    rcases y with q | (_ | _) | _ <;> simp_all [sub_eq]
  linarith

end Surpasses

/-- A whole number without room above it is not below a whole bound. -/
theorem le_of_not_lt_sub {u : Exact} {z : ℤ} (hu : Scalar.floor u = u)
    (h : ¬ finite z < u - Scalar.intTol) (hz : finite z ≤ u) : u ≤ finite z := by
  rcases u with c | (_ | _) | _
  · have hc : ((⌊c⌋ : ℤ) : ℚ) = c := finite.inj hu
    rw [intTol_eq, finite_sub, finite_lt, ← hc, not_lt] at h
    rw [finite_le, ← hc]
    exact Int.cast_le.2 (Propagation.whole_le (by linarith))
  · simp [intTol_eq, sub_eq] at h
  · simp at hz
  · simp at hz

/-- A whole number without room below it is not above a whole bound. -/
theorem le_of_not_add_lt {l : Exact} {z : ℤ} (hl : Scalar.ceil l = l)
    (h : ¬ l + Scalar.intTol < finite z) (hz : l ≤ finite z) : finite z ≤ l := by
  rcases l with c | (_ | _) | _
  · have hc : ((⌈c⌉ : ℤ) : ℚ) = c := finite.inj hl
    rw [intTol_eq, finite_add, finite_lt, ← hc, not_lt] at h
    rw [finite_le, ← hc]
    exact Int.cast_le.2 (Propagation.whole_le (by linarith))
  · simp at hz
  · simp [intTol_eq] at h
  · simp at hz

end Exact

namespace SubProblem

/-- The vector keeps all rows, within the tolerance. -/
def KeepsRows (s : SubProblem Exact) (x : Array Exact) : Prop :=
  ∀ r < s.numRows, Branch.violationOf s x r ≤ Scalar.feasTol

/-- All columns are integer ones between whole numbers, as far as they are bounded. -/
structure HasWholeBounds (s : SubProblem Exact) (b : Box Exact) : Prop where
  integer : ∀ j < s.numCols, s.isInteger j = true
  lower : ∀ j < s.numCols, Scalar.ceil (b.lower.getD j 0) = b.lower.getD j 0
  upper : ∀ j < s.numCols, Scalar.floor (b.upper.getD j 0) = b.upper.getD j 0

end SubProblem

namespace Branch

variable {s : SubProblem Exact} {b : Box Exact} {x y : Array Exact}

/-- Where no column of a row can be moved as wanted, no point of the box goes further. -/
theorem surpasses_of_not_canMove (hw : s.HasWholeBounds b) (hx : b.HasPoint s.numCols x)
    (hwhole : ∀ j < s.numCols, ∃ z : ℤ, x.getD j 0 = finite z) (hy : b.HasPoint s.numCols y)
    {r : Nat} {increase : Bool} (h : ∀ e ∈ s.matrix.row r, ¬ CanMove s x b increase e)
    (hdot : Avoids (!increase) ((s.matrix.row r).dot x)) :
    Surpasses increase ((s.matrix.row r).dot x) ((s.matrix.row r).dot y) := by
  rw [dot_eq_sum] at hdot ⊢
  rw [dot_eq_sum]
  refine Surpasses.sum (fun e he havoids => ?_) hdot
  have hj := SubProblem.lt_of_mem_row he
  obtain ⟨z, hz⟩ := hwhole _ hj
  obtain ⟨q, hq, hl, hu⟩ := hy.exists_eq hj
  have hstuck := h e he
  unfold CanMove at hstuck
  rw [hz] at havoids hstuck ⊢
  rw [hq]
  obtain ⟨hlz, hzu⟩ := hz ▸ hx.within _ hj
  refine surpasses_mul (fun hgoes => ?_) (fun hgoes => ?_) havoids
  · rw [if_pos hgoes] at hstuck
    have huz := le_of_not_lt_sub (hw.upper _ hj) (fun hlt => hstuck ⟨hw.integer _ hj, hlt⟩) hzu
    exact (finite_le _ _).1 (Exact.le_trans hu huz)
  · rw [if_neg (Bool.eq_false_iff.1 hgoes)] at hstuck
    have hzl := le_of_not_add_lt (hw.lower _ hj) (fun hlt => hstuck ⟨hw.integer _ hj, hlt⟩) hlz
    exact (finite_le _ _).1 (Exact.le_trans hzl hl)

/-- If the first violated row cannot be brought closer to its bounds, all points of the box violate
it. -/
theorem violated_of_stuck (hw : s.HasWholeBounds b) (hx : b.HasPoint s.numCols x)
    (hwhole : ∀ j < s.numCols, ∃ z : ℤ, x.getD j 0 = finite z) (hy : b.HasPoint s.numCols y)
    {r : Nat} (hviolated : Scalar.feasTol < violationOf s x r)
    (h : ∀ e ∈ s.matrix.row r, ¬ CanMove s x b (increases s x r) e) :
    Scalar.feasTol < violationOf s y r := by
  have hsurpasses := surpasses_of_not_canMove hw hx hwhole hy h
  unfold increases at hsurpasses
  unfold violationOf RowBounds.violation at hviolated ⊢
  by_cases hbelow : (s.matrix.row r).dot x < (s.boundsOf r).lower
  · rw [decide_eq_true hbelow] at hsurpasses
    have hle := hsurpasses (avoids_of_lt hbelow)
    rw [if_pos hbelow] at hviolated
    rw [if_pos (Exact.lt_of_le_of_lt hle hbelow)]
    exact lt_sub_of_le hle hviolated
  · rw [decide_eq_false hbelow] at hsurpasses
    rw [if_neg hbelow] at hviolated
    split at hviolated
    · rename_i habove
      have hle := hsurpasses (avoids_of_gt habove)
      rw [if_neg fun hlt => hbelow (Exact.lt_of_le_of_lt hle hlt),
        if_pos (Exact.lt_of_lt_of_le habove hle)]
      exact lt_sub_of_ge hle hviolated
    · exact absurd hviolated not_feasTol_lt_zero

/-- The choice of a branch, or of none, at a point of a box. A branch parts the box. If there is none
at a whole point of a box between whole numbers, this point keeps all rows within the tolerance, or
some row is violated by more than it at all points of the box. -/
theorem choose_parts (hb : b.HasSize s.numCols) (hx : b.HasPoint s.numCols x) :
    ∃ o, choose s x b = .ok o ∧ (∀ branch, o = some branch → Parts s b branch) ∧
      (o = none → s.HasWholeBounds b → (∀ j < s.numCols, ∃ z : ℤ, x.getD j 0 = finite z) →
        s.KeepsRows x ∨ ∃ r < s.numRows, ∀ y, b.HasPoint s.numCols y →
          Scalar.feasTol < violationOf s y r) := by
  obtain ⟨o, ho, hchoice⟩ := choose_choice hx.size hb
  refine ⟨o, ho, fun branch hbranch => ?_, fun hnone hw hwhole => ?_⟩
  · subst hbranch
    obtain ⟨m, hm⟩ := partsAt_of_choice hx.encloses hchoice
    exact hm.parts hb hx
  · subst hnone
    cases hchoice with
    | satisfied _ h =>
      exact .inl fun r hr => (RowBounds.not_feasTol_lt_violation _ _).1 (h r hr)
    | stuck _ hr hviolated h =>
      exact .inr ⟨_, hr, fun y hy => violated_of_stuck hw hx hwhole hy hviolated h⟩

/-- Twice the first column is at least one more than the second one. The first column has no upper
bound. -/
def oneMore : SubProblem Exact where
  columns := #[⟨0, 0, 0, infinite false, true⟩, ⟨1, 0, finite (1 / 2), finite (5 / 2), true⟩]
  rows := #[⟨0, 1, infinite false⟩]
  matrix := .ofRows 2 #[[(0, finite 2), (1, finite (-1))]]
    (by simp [Line.Ordered, or_imp, forall_and])
    (by simp [Line.NoZeros, or_imp, forall_and, finite_beq_zero])
  offset := 0
  originalSize := 2
  numCols_matrix := rfl
  numRows_matrix := rfl
  rows_nonempty := by simp [Matrix.ofRows]

/-- A box in which the first column is fixed to zero. -/
def oneMoreFixed : Box Exact :=
  ⟨#[0, 0], #[0, finite 2]⟩

/-- The first column is split above zero. Where it is fixed to zero, no branch is left. -/
theorem choose_parts_oneMore :
    (oneMore.box.HasPoint 2 #[0, 1] ∧
      choose oneMore #[0, 1] oneMore.box = .ok (some ⟨0, 0, 1, true⟩) ∧
      Parts oneMore oneMore.box ⟨0, 0, 1, true⟩) ∧
    (oneMoreFixed.HasPoint 2 #[0, 0] ∧ oneMore.HasWholeBounds oneMoreFixed ∧
      choose oneMore #[0, 0] oneMoreFixed = .ok none ∧
      (oneMore.KeepsRows #[0, 0] ∨ ∃ r < oneMore.numRows, ∀ y, oneMoreFixed.HasPoint 2 y →
        Scalar.feasTol < violationOf oneMore y r)) := by
  have hopen : oneMore.box.HasPoint 2 #[0, 1] :=
    ⟨rfl, by decide +kernel, by decide +kernel⟩
  have hfixed : oneMoreFixed.HasPoint 2 #[0, 0] :=
    ⟨rfl, by decide +kernel, by decide +kernel⟩
  have hwhole : oneMore.HasWholeBounds oneMoreFixed :=
    ⟨by decide +kernel, by decide +kernel, by decide +kernel⟩
  have hbranch : choose oneMore #[0, 1] oneMore.box = .ok (some ⟨0, 0, 1, true⟩) := by
    decide +kernel
  have hnone : choose oneMore #[0, 0] oneMoreFixed = .ok none := by decide +kernel
  obtain ⟨o, ho, hparts, -⟩ := choose_parts (s := oneMore) (b := oneMore.box) oneMore.hasSize_box hopen
  obtain ⟨o', ho', -, hrows⟩ := choose_parts (s := oneMore) (b := oneMoreFixed) ⟨rfl, rfl⟩ hfixed
  obtain rfl : o = some ⟨0, 0, 1, true⟩ := Except.ok.inj (ho.symm.trans hbranch)
  obtain rfl : o' = none := Except.ok.inj (ho'.symm.trans hnone)
  refine ⟨⟨hopen, hbranch, hparts _ rfl⟩, hfixed, hwhole, hnone, hrows rfl hwhole fun j hj => ?_⟩
  obtain rfl | rfl : j = 0 ∨ j = 1 := by
    have hj : j < 2 := hj
    omega
  · exact ⟨0, rfl⟩
  · exact ⟨0, rfl⟩

end Branch

end PrimalHeuristics
