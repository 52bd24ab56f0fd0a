import PrimalHeuristics.Proofs.Propagation.Soundness

/-!
# Propagation on integer boxes

If every column is an integer one between whole numbers, or is pinned at a single value, then this
stays so under propagation, up to one exception: an integer column that is pinned close to a whole
number may have one of its bounds moved there, which crosses its bounds. Over such a box all bounds
that matter are finite, and the cheapest corner consists of bounds.

* `IsRegular`: the bounds that a column can have, and `Box.IsRegular`;
* `Propagation.isRegular_leftTo`: one entry of a row keeps them;
* `Propagation.isRegular_of_bound`: so does the relaxation;
* `SubProblem.cornerBound_of_isFeasible`: the bound of a feasible corner is its cost.
-/

namespace PrimalHeuristics

open Exact

/-- The bounds of an integer column between whole numbers, or of a column that is pinned at `c`. -/
inductive IsRegular (integer : Bool) : Exact → Exact → Prop where
  | integral (l u : ℤ) (hi : integer = true) (hl : |(l : ℚ)| < 10 ^ 20)
      (hu : |(u : ℚ)| < 10 ^ 20) : IsRegular integer (finite l) (finite u)
  | pinned (c : ℚ) (hc : |c| < 10 ^ 20) : IsRegular integer (finite c) (finite c)
  /-- The lower bound was moved up to a whole number. -/
  | raised (c : ℚ) (hc : |c| < 10 ^ 20) (h : c + 1 / 10 ^ 6 < ⌈c⌉) :
      IsRegular integer (finite ⌈c⌉) (finite c)
  /-- The upper bound was moved down to a whole number. -/
  | lowered (c : ℚ) (hc : |c| < 10 ^ 20) (h : ⌊c⌋ < c - 1 / 10 ^ 6) :
      IsRegular integer (finite c) (finite ⌊c⌋)

/-- All columns have such bounds. -/
def Box.IsRegular (b : Box Exact) (s : SubProblem Exact) : Prop :=
  ∀ j < s.numCols, PrimalHeuristics.IsRegular (s.isInteger j) (b.lower.getD j 0)
    (b.upper.getD j 0)

theorem IsRegular.exists_finite {integer : Bool} {lower upper : Exact}
    (h : IsRegular integer lower upper) : ∃ l u, lower = finite l ∧ upper = finite u := by
  cases h <;> exact ⟨_, _, rfl, rfl⟩

namespace Propagation

/-! ### One entry -/

section Step

variable {l u l' u' : ℚ}

/-- Whole numbers that are in order up to the tolerance are in order. -/
theorem whole_le {m n : ℤ} (h : (m : ℚ) ≤ n + 1 / 10 ^ 5) : m ≤ n := by
  have hlt : (m : ℚ) < ((n + 1 : ℤ) : ℚ) := by
    push_cast
    linarith
  exact Int.lt_add_one_iff.1 (Int.cast_lt.1 hlt)

theorem abs_whole_lt {l m u : ℤ} (hl : |(l : ℚ)| < 10 ^ 20) (hu : |(u : ℚ)| < 10 ^ 20)
    (hlm : l ≤ m) (hmu : m ≤ u) : |(m : ℚ)| < 10 ^ 20 := by
  have hlm : (l : ℚ) ≤ m := Int.cast_le.2 hlm
  have hmu : (m : ℚ) ≤ u := Int.cast_le.2 hmu
  rw [abs_lt] at *
  constructor <;> linarith

/-- The new bounds of a column whose old ones are `l` and `u`, if the row leaves `p`. -/
def replaced (l u : ℚ) (p : ℚ × ℚ) : Exact × Exact :=
  (finite (if l + 1 / 10 ^ 6 < p.1 then p.1 else l),
    finite (if p.2 < u - 1 / 10 ^ 6 then p.2 else u))

/-- Bounds of a continuous column that is pinned are never moved. -/
theorem isRegular_replaced_false (h : IsRegular false (finite l) (finite u)) (hl : l ≤ l')
    (hu : u' ≤ u) (hopen : l' ≤ u' + 1 / 10 ^ 6) :
    IsRegular false (replaced l u (l', u')).1 (replaced l u (l', u')).2 := by
  have hle : u ≤ l := by
    cases h with
    | integral _ _ hi => contradiction
    | pinned => exact le_rfl
    | raised => exact Int.le_ceil _
    | lowered => exact Int.floor_le _
  have hlower : ¬ l + 1 / 10 ^ 6 < l' := by linarith
  have hupper : ¬ u' < u - 1 / 10 ^ 6 := by linarith
  rw [replaced, if_neg hlower, if_neg hupper]
  exact h

section Whole

variable {m n : ℤ} (hm : l' - 1 / 10 ^ 5 ≤ m) (hn : n ≤ u' + 1 / 10 ^ 5)

include hm hn

/-- Bounds of an integer column between whole numbers are moved to whole numbers. -/
theorem isRegular_replaced_integral {L U : ℤ} (hL : |(L : ℚ)| < 10 ^ 20)
    (hU : |(U : ℚ)| < 10 ^ 20) (hl : (L : ℚ) ≤ l') (hu : u' ≤ U) (hmn : m ≤ n) :
    IsRegular true (replaced L U (m, n)).1 (replaced L U (m, n)).2 := by
  have hLm : L ≤ m := whole_le (by linarith)
  have hnU : n ≤ U := whole_le (by linarith)
  have hm' := abs_whole_lt hL hU hLm (hmn.trans hnU)
  have hn' := abs_whole_lt hL hU (hLm.trans hmn) hnU
  unfold replaced
  split_ifs
  · exact .integral m n rfl hm' hn'
  · exact .integral m U rfl hm' hU
  · exact .integral L n rfl hL hn'
  · exact .integral L U rfl hL hU

/-- At most one bound of an integer column that is pinned is moved, to the next whole number. -/
theorem isRegular_replaced_pinned {c : ℚ} (hc : |c| < 10 ^ 20) (hl : c ≤ l') (hu : u' ≤ c)
    (hmn : m ≤ n) : IsRegular true (replaced c c (m, n)).1 (replaced c c (m, n)).2 := by
  have hmn' : (m : ℚ) ≤ n := Int.cast_le.2 hmn
  by_cases hlower : c + 1 / 10 ^ 6 < m
  · have hceil : m = ⌈c⌉ := by
      have hle : ⌈c⌉ ≤ m := Int.ceil_le.2 (by linarith)
      have hge : m ≤ ⌈c⌉ := whole_le (by linarith [Int.le_ceil c])
      exact le_antisymm hge hle
    have hupper : ¬ (n : ℚ) < c - 1 / 10 ^ 6 := by linarith
    rw [replaced, if_pos hlower, if_neg hupper]
    rw [hceil] at hlower ⊢
    exact .raised c hc hlower
  · by_cases hupper : (n : ℚ) < c - 1 / 10 ^ 6
    · have hfloor : n = ⌊c⌋ := by
        have hle : n ≤ ⌊c⌋ := Int.le_floor.2 (by linarith)
        have hge : ⌊c⌋ ≤ n := whole_le (by linarith [Int.floor_le c])
        exact le_antisymm hle hge
      rw [replaced, if_neg hlower, if_pos hupper]
      rw [hfloor] at hupper ⊢
      exact .lowered c hc hupper
    · rw [replaced, if_neg hlower, if_neg hupper]
      exact .pinned c hc

/-- Bounds of an integer column stay regular when they are moved to whole numbers. -/
theorem isRegular_replaced_true (h : IsRegular true (finite l) (finite u)) (hl : l ≤ l')
    (hu : u' ≤ u) (hopen : (m : ℚ) ≤ n + 1 / 10 ^ 6) :
    IsRegular true (replaced l u (m, n)).1 (replaced l u (m, n)).2 := by
  have hmn : m ≤ n := whole_le (by linarith)
  have hmn' : (m : ℚ) ≤ n := Int.cast_le.2 hmn
  cases h with
  | integral L U _ hL hU => exact isRegular_replaced_integral hm hn hL hU hl hu hmn
  | pinned c hc => exact isRegular_replaced_pinned hm hn hc hl hu hmn
  | raised c hc h =>
    -- both bounds that are left are the whole number above the pin
    have hle : ⌈u⌉ ≤ m := whole_le (by linarith)
    have hge : n ≤ ⌈u⌉ := whole_le (by linarith [Int.le_ceil u])
    obtain rfl : m = ⌈u⌉ := le_antisymm (hmn.trans hge) hle
    have hupper : ¬ (n : ℚ) < u - 1 / 10 ^ 6 := by linarith [Int.le_ceil u]
    rw [replaced, if_neg (by linarith), if_neg hupper]
    exact .raised u hc h
  | lowered c hc h =>
    -- both bounds that are left are the whole number below the pin
    have hle : n ≤ ⌊l⌋ := whole_le (by linarith)
    have hge : ⌊l⌋ ≤ m := whole_le (by linarith [Int.floor_le l])
    obtain rfl : n = ⌊l⌋ := le_antisymm hle (hge.trans hmn)
    have hlower : ¬ l + 1 / 10 ^ 6 < m := by linarith [Int.floor_le l]
    rw [replaced, if_neg hlower, if_neg (by linarith)]
    exact .lowered l hc h

end Whole

end Step

section Caps

variable {a l u : ℚ} (ha : a ≠ 0) (bound rest : Exact)

include ha

theorem capAbove_finite : ∃ l' u', capAbove bound rest (finite a) (finite l, finite u) =
    (finite l', finite u') ∧ l ≤ l' ∧ u' ≤ u := by
  unfold capAbove
  split
  · obtain ⟨_, _, -, -, hlimit⟩ := exists_limit ha ‹_›
    rw [hlimit]
    split
    · exact ⟨l, _, by rw [min_finite], le_rfl, min_le_left ..⟩
    · exact ⟨_, u, by rw [max_finite], le_max_left .., le_rfl⟩
  · exact ⟨l, u, rfl, le_rfl, le_rfl⟩

theorem capBelow_finite : ∃ l' u', capBelow bound rest (finite a) (finite l, finite u) =
    (finite l', finite u') ∧ l ≤ l' ∧ u' ≤ u := by
  unfold capBelow
  split
  · obtain ⟨_, _, -, -, hlimit⟩ := exists_limit ha ‹_›
    rw [hlimit]
    split
    · exact ⟨_, u, by rw [max_finite], le_max_left .., le_rfl⟩
    · exact ⟨l, _, by rw [min_finite], le_rfl, min_le_left ..⟩
  · exact ⟨l, u, rfl, le_rfl, le_rfl⟩

/-- A row leaves a column with finite bounds finite bounds. -/
theorem limits_finite (bounds : RowBounds Exact) (g : ActivityRange Exact) :
    ∃ l' u', limits bounds g (finite a) (finite l) (finite u) = (finite l', finite u') ∧
      l ≤ l' ∧ u' ≤ u := by
  rw [limits_eq]
  obtain ⟨l₁, u₁, h₁, hl₁, hu₁⟩ := capAbove_finite (l := l) (u := u) ha bounds.upper
    (g.minWithout (ActivityRange.contribution (finite a) (finite l) (finite u)).1)
  obtain ⟨l₂, u₂, h₂, hl₂, hu₂⟩ := capBelow_finite (l := l₁) (u := u₁) ha bounds.lower
    (g.maxWithout (ActivityRange.contribution (finite a) (finite l) (finite u)).2)
  exact ⟨l₂, u₂, by rw [h₁, h₂], hl₁.trans hl₂, hu₂.trans hu₁⟩

end Caps

/-- The bounds that replace those of a column are regular again, unless none are left. -/
theorem isRegular_leftTo {integer : Bool} {lower upper : Exact}
    (h : IsRegular integer lower upper) {a : ℚ} (ha : a ≠ 0) (bounds : RowBounds Exact)
    (g : ActivityRange Exact) {p : Exact × Exact}
    (hp : p = toWhole integer (limits bounds g (finite a) lower upper))
    (hopen : ¬ p.2 + Scalar.feasTol < p.1) :
    IsRegular integer (if lower + Scalar.feasTol < p.1 then p.1 else lower)
      (if p.2 < upper - Scalar.feasTol then p.2 else upper) := by
  obtain ⟨l, u, rfl, rfl⟩ := h.exists_finite
  obtain ⟨l', u', hlimits, hl, hu⟩ := limits_finite (l := l) (u := u) ha bounds g
  rw [hlimits] at hp
  cases integer with
  | false =>
    obtain rfl : p = (finite l', finite u') := hp
    have hopen : l' ≤ u' + 1 / 10 ^ 6 := by simpa [feasTol_eq] using hopen
    have := isRegular_replaced_false h hl hu hopen
    rw [replaced] at this
    simpa only [feasTol_eq, finite_add, finite_sub, finite_lt, ← apply_ite finite] using this
  | true =>
    obtain rfl : p = (finite ⌈l' - 1 / 10 ^ 5⌉, finite ⌊u' + 1 / 10 ^ 5⌋) := by
      rw [hp, Propagation.toWhole, if_pos rfl, intTol_eq, finite_sub, finite_add, ceil_finite,
        floor_finite]
    have hopen : (⌈l' - 1 / 10 ^ 5⌉ : ℚ) ≤ ⌊u' + 1 / 10 ^ 5⌋ + 1 / 10 ^ 6 := by
      simpa only [feasTol_eq, finite_add, finite_lt, not_lt] using hopen
    have := isRegular_replaced_true (Int.le_ceil _) (Int.floor_le _) h hl hu hopen
    rw [replaced] at this
    simpa only [feasTol_eq, finite_add, finite_sub, finite_lt, ← apply_ite finite] using this

variable {s : SubProblem Exact}

/-- The relaxation leaves a regular box. -/
theorem isRegular_of_bound (hs : s.IsRational) {passes : Nat} {b c : Box Exact} {o : Exact}
    {x : Array Exact} (hb : b.HasSize s.numCols) (hreg : b.IsRegular s)
    (h : bound passes s b = .ok (.bounded o x, c)) : c.IsRegular s := by
  refine columns_of_bound (P := fun j => PrimalHeuristics.IsRegular (s.isInteger j))
    (fun r e he bounds g lower upper l hl hleft hopen => ?_) hb hreg h
  obtain ⟨hfinite, hne⟩ := hs.eq_finite he
  rw [hfinite] at hleft
  exact isRegular_leftTo hl hne bounds g hleft hopen

end Propagation

/-! ### Corners of regular boxes -/

namespace SubProblem

variable {integer : Bool} {cost lower upper : Exact}

theorem isBound_finite_iff {q : ℚ} : Scalar.isBound (finite q) = true ↔ |q| < 10 ^ 20 := by
  simp

/-- The cheapest value is one of the two bounds. -/
theorem cheapest_mem (h : IsRegular integer lower upper) :
    (cheapest cost lower upper).1 = lower ∨ (cheapest cost lower upper).1 = upper := by
  have hbound : Scalar.isBound lower = true ∨ Scalar.isBound upper = true := by
    cases h with
    | integral l u hi hl hu => exact .inl (isBound_finite_iff.2 hl)
    | pinned c hc => exact .inl (isBound_finite_iff.2 hc)
    | raised c hc => exact .inr (isBound_finite_iff.2 hc)
    | lowered c hc => exact .inl (isBound_finite_iff.2 hc)
  have hchoice : ∀ (x y : Exact) (f : Bool),
      Scalar.isBound x = true ∨ Scalar.isBound y = true →
      let p := if Scalar.isBound x then (x, true) else (if Scalar.isBound y then y else 0, f)
      p.1 = x ∨ p.1 = y := by
    intro x y f hxy
    by_cases hx : Scalar.isBound x = true
    · rw [if_pos hx]
      exact .inl rfl
    · rw [if_neg hx, if_pos (hxy.resolve_left hx)]
      exact .inr rfl
  unfold cheapest
  by_cases hc : (0 : Exact) ≤ cost
  · simp only [hc, if_true]
    exact hchoice lower upper _ hbound
  · simp only [hc, if_false]
    exact (hchoice upper lower _ hbound.symm).symm

/-- A cheapest value that is within the bounds is the cheaper one of them. -/
theorem cheapest_limited (h : IsRegular integer lower upper)
    (hwithin : IsWithin integer (cheapest cost lower upper).1 lower upper) :
    (cheapest cost lower upper).2 = true := by
  obtain ⟨hl, hu, -⟩ := hwithin
  unfold cheapest at hl hu ⊢
  cases h with
  | integral l u hi hlb hub =>
    have hlb := isBound_finite_iff.2 hlb
    have hub := isBound_finite_iff.2 hub
    split <;> simp only [hlb, hub, if_true]
  | pinned c hc =>
    have hc := isBound_finite_iff.2 hc
    split <;> simp only [hc, if_true]
  | raised c hc h =>
    have hc := isBound_finite_iff.2 hc
    by_cases hcost : (0 : Exact) ≤ cost
    · simp only [hcost, if_true] at hl ⊢
      by_cases hceil : Scalar.isBound (finite (⌈c⌉ : ℚ)) = true
      · simp only [hceil, if_true]
      · -- the other bound stands in, which is too low
        simp only [hceil, hc, if_true, if_false, Bool.false_eq_true, feasTol_eq, finite_sub,
          finite_le] at hl
        linarith
    · simp only [hcost, hc, if_true, if_false]
  | lowered c hc h =>
    have hc := isBound_finite_iff.2 hc
    by_cases hcost : (0 : Exact) ≤ cost
    · simp only [hcost, hc, if_true]
    · simp only [hcost, if_false] at hu ⊢
      by_cases hfloor : Scalar.isBound (finite (⌊c⌋ : ℚ)) = true
      · simp only [hfloor, if_true]
      · -- the other bound stands in, which is too high
        simp only [hfloor, hc, if_true, if_false, Bool.false_eq_true, feasTol_eq, finite_add,
          finite_le] at hu
        linarith

variable {s : SubProblem Exact} {b : Box Exact}

theorem getD_corner_mem (hreg : b.IsRegular s) {j : Nat} (hj : j < s.numCols) :
    (s.corner b).getD j 0 = b.lower.getD j 0 ∨ (s.corner b).getD j 0 = b.upper.getD j 0 := by
  obtain ⟨k, -, hk, -⟩ := exists_column hj
  rw [getD_corner hk]
  exact cheapest_mem (hreg j hj)

/-- The bound of a corner that is feasible is its cost. -/
theorem cornerBound_of_isFeasible (hreg : b.IsRegular s) (h : s.IsFeasible (s.corner b) b) :
    s.cornerBound b = s.objectiveValue (s.corner b) := by
  have hlimited : s.isLimited b = true := by
    rw [isLimited_iff]
    intro j k hk
    have hj : j < s.numCols := (Array.getElem?_eq_some_iff.1 hk).1
    have hwithin := h.1 j hj
    rw [getD_corner hk] at hwithin
    exact cheapest_limited (hreg j hj) hwithin
  rw [cornerBound, if_pos hlimited]

end SubProblem

end PrimalHeuristics
