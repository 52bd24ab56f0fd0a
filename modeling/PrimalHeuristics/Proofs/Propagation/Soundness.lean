import PrimalHeuristics.Proofs.Propagation.Ranges

/-!
# Propagation is sound

Over exact numbers, propagation never cuts off a point of the box that satisfies all rows and is
integral, and the cheapest corner of what is left costs at most as much as any of these points.
Points are vectors of rational numbers; bounds of columns and rows may be any values.

* `Propagation.limits_eq`: the bounds that a row leaves to a column, side by side;
* `Propagation.tightenRow_sound`: one row keeps the points;
* `Propagation.bound_sound`: so does the relaxation;
* `SubProblem.cornerBound_le`: the cheapest corner;
* `Relaxation.exists_isSound_activity`: the answers of the relaxation at the nodes of a search.
-/

namespace PrimalHeuristics

open Exact

/-! ### The bounds that a row leaves -/

namespace Propagation

/-- The bounds of a column after the upper bound of a row. -/
def capAbove (bound rest a : Exact) (p : Exact × Exact) : Exact × Exact :=
  if Scalar.isBound bound && Scalar.isFinite rest then
    if 0 < a then (p.1, Scalar.min p.2 ((bound - rest) / a))
    else (Scalar.max p.1 ((bound - rest) / a), p.2)
  else p

/-- The bounds of a column after the lower bound of a row. -/
def capBelow (bound rest a : Exact) (p : Exact × Exact) : Exact × Exact :=
  if Scalar.isBound bound && Scalar.isFinite rest then
    if 0 < a then (Scalar.max p.1 ((bound - rest) / a), p.2)
    else (p.1, Scalar.min p.2 ((bound - rest) / a))
  else p

theorem limits_eq (bounds : RowBounds Exact) (g : ActivityRange Exact) (a lower upper : Exact) :
    limits bounds g a lower upper =
      capBelow bounds.lower (g.maxWithout (ActivityRange.contribution a lower upper).2) a
        (capAbove bounds.upper (g.minWithout (ActivityRange.contribution a lower upper).1) a
          (lower, upper)) := by
  by_cases habove : (Scalar.isBound bounds.upper && Scalar.isFinite
      (g.minWithout (ActivityRange.contribution a lower upper).1)) = true <;>
    by_cases hbelow : (Scalar.isBound bounds.lower && Scalar.isFinite
      (g.maxWithout (ActivityRange.contribution a lower upper).2)) = true <;>
    by_cases ha : 0 < a <;>
    simp only [limits, capAbove, capBelow, habove, hbelow, ha, if_true, if_false,
      Bool.false_eq_true]

section Caps

variable {bound rest : Exact} {a v r : ℚ} {p : Exact × Exact}

theorem le_min_finite {x : Exact} {q : ℚ} (hx : finite v ≤ x) (hq : v ≤ q) :
    finite v ≤ Scalar.min x (finite q) := by
  unfold Scalar.min
  rw [isNaN_finite, if_neg Bool.false_ne_true]
  split
  · exact hx
  · simpa using hq

theorem max_finite_le {x : Exact} {q : ℚ} (hx : x ≤ finite v) (hq : q ≤ v) :
    Scalar.max x (finite q) ≤ finite v := by
  unfold Scalar.max
  rw [isNaN_finite, if_neg Bool.false_ne_true]
  split
  · exact hx
  · simpa using hq

/-- What is left is a limit for the activity without the column, taken off the bound of the row. -/
theorem exists_limit (ha : a ≠ 0) (h : (Scalar.isBound bound && Scalar.isFinite rest) = true) :
    ∃ u q : ℚ, bound = finite u ∧ rest = finite q ∧
      (bound - rest) / finite a = finite ((u - q) / a) := by
  rw [Bool.and_eq_true] at h
  have hb := eq_finite_of_isBound h.1
  have hr := isFinite_iff.1 h.2
  refine ⟨bound.toRat, rest.toRat, hb, hr, ?_⟩
  rw [hb, hr, finite_sub, finite_div _ _ ha]
  rfl

theorem capAbove_sound (ha : a ≠ 0) (hp : p.1 ≤ finite v ∧ finite v ≤ p.2)
    (hbound : finite (a * v + r) ≤ bound) (hrest : ∀ q, rest = finite q → q ≤ r) :
    (capAbove bound rest (finite a) p).1 ≤ finite v ∧
      finite v ≤ (capAbove bound rest (finite a) p).2 := by
  unfold capAbove
  split
  · obtain ⟨u, q, rfl, rfl, hlimit⟩ := exists_limit ha ‹_›
    have hq := hrest q rfl
    have hu : a * v + r ≤ u := by simpa using hbound
    rw [hlimit]
    by_cases hpos : 0 < a
    · rw [if_pos (by simpa [zero_eq] using hpos)]
      refine ⟨hp.1, le_min_finite hp.2 ?_⟩
      rw [le_div_iff₀ hpos]
      linarith
    · have hneg : a < 0 := lt_of_le_of_ne (not_lt.1 hpos) ha
      rw [if_neg (by simpa [zero_eq] using hpos)]
      refine ⟨max_finite_le hp.1 ?_, hp.2⟩
      rw [div_le_iff_of_neg hneg]
      linarith
  · exact hp

theorem capBelow_sound (ha : a ≠ 0) (hp : p.1 ≤ finite v ∧ finite v ≤ p.2)
    (hbound : bound ≤ finite (a * v + r)) (hrest : ∀ q, rest = finite q → r ≤ q) :
    (capBelow bound rest (finite a) p).1 ≤ finite v ∧
      finite v ≤ (capBelow bound rest (finite a) p).2 := by
  unfold capBelow
  split
  · obtain ⟨u, q, rfl, rfl, hlimit⟩ := exists_limit ha ‹_›
    have hq := hrest q rfl
    have hu : u ≤ a * v + r := by simpa using hbound
    rw [hlimit]
    by_cases hpos : 0 < a
    · rw [if_pos (by simpa [zero_eq] using hpos)]
      refine ⟨max_finite_le hp.1 ?_, hp.2⟩
      rw [div_le_iff₀ hpos]
      linarith
    · have hneg : a < 0 := lt_of_le_of_ne (not_lt.1 hpos) ha
      rw [if_neg (by simpa [zero_eq] using hpos)]
      refine ⟨hp.1, le_min_finite hp.2 ?_⟩
      rw [le_div_iff_of_neg hneg]
      linarith
  · exact hp

theorem ceil_sub_le {x : Exact} {z : ℤ} (h : x ≤ finite z) :
    Scalar.ceil (x - Scalar.intTol) ≤ finite z := by
  rcases x with q | (_ | _) | _
  · have hq : q ≤ z := by simpa using h
    rw [intTol_eq, finite_sub, ceil_finite, finite_le, Int.cast_le, Int.ceil_le]
    linarith
  · simp at h
  · exact le_iff.2 rfl
  · simp at h

theorem le_floor_add {x : Exact} {z : ℤ} (h : finite z ≤ x) :
    finite z ≤ Scalar.floor (x + Scalar.intTol) := by
  rcases x with q | (_ | _) | _
  · have hq : z ≤ q := by simpa using h
    rw [intTol_eq, finite_add, floor_finite, finite_le, Int.cast_le, Int.le_floor]
    linarith
  · exact le_iff.2 rfl
  · simp at h
  · simp at h

theorem toWhole_sound {integer : Bool} (hp : p.1 ≤ finite v ∧ finite v ≤ p.2)
    (hv : integer = true → ∃ z : ℤ, v = z) :
    (toWhole integer p).1 ≤ finite v ∧ finite v ≤ (toWhole integer p).2 := by
  cases integer with
  | false => exact hp
  | true =>
    obtain ⟨z, rfl⟩ := hv rfl
    exact ⟨ceil_sub_le hp.1, le_floor_add hp.2⟩

/-- Bounds with a point between them are not crossed. -/
theorem not_crossed (hp : p.1 ≤ finite v ∧ finite v ≤ p.2) : ¬ p.2 + Scalar.feasTol < p.1 := by
  obtain ⟨l, u⟩ := p
  rcases l with l | (_ | _) | _ <;> rcases u with u | (_ | _) | _ <;>
    simp_all [feasTol_eq]
  linarith

end Caps

/-! ### One entry -/

theorem lt_of_add_feasTol_lt {x y : Exact} (h : x + Scalar.feasTol < y) : x < y :=
  lt_of_add_finite_lt (by norm_num) h

theorem lt_of_lt_sub_feasTol {x y : Exact} (h : x < y - Scalar.feasTol) : x < y :=
  lt_of_lt_sub_finite (by norm_num) h

variable {s : SubProblem Exact}

/-- A column is only ever tightened. -/
theorem tightens_tighten {p : Progress Exact} {c : Nat} {l : Exact × Exact}
    (hp : p.box.HasSize s.numCols) (hc : c < s.numCols) :
    (p.tighten c (p.box.lower.getD c 0) (p.box.upper.getD c 0) l).box.Tightens p.box := by
  intro j
  rw [getD_lower_tighten (hp.1 ▸ hc), getD_upper_tighten (hp.2 ▸ hc)]
  constructor
  · split
    · obtain ⟨rfl, h⟩ := ‹_ ∧ _›
      exact .inr (lt_of_add_feasTol_lt h)
    · exact .inl rfl
  · split
    · obtain ⟨rfl, h⟩ := ‹_ ∧ _›
      exact .inr (lt_of_lt_sub_feasTol h)
    · exact .inl rfl

/-- Bounds that a point keeps may replace those of its column. -/
theorem contains_tighten {p : Progress Exact} {c : Nat} {l : Exact × Exact} {v : Nat → ℚ}
    (hp : p.box.HasSize s.numCols) (hc : c < s.numCols) (hv : p.box.Contains s.numCols v)
    (hl : l.1 ≤ finite (v c) ∧ finite (v c) ≤ l.2) :
    (p.tighten c (p.box.lower.getD c 0) (p.box.upper.getD c 0) l).box.Contains s.numCols v := by
  intro j hj
  rw [getD_lower_tighten (hp.1 ▸ hc), getD_upper_tighten (hp.2 ▸ hc)]
  constructor
  · split
    · obtain ⟨rfl, -⟩ := ‹_ ∧ _›
      exact hl.1
    · exact (hv j hj).1
  · split
    · obtain ⟨rfl, -⟩ := ‹_ ∧ _›
      exact hl.2
    · exact (hv j hj).2

/-! ### One row -/

/-- The rest of a row and one of its entries make up the row. -/
theorem valueAt_split (l k : Line Exact) (e : Nat × Exact) (v : Nat → ℚ) :
    (l ++ e :: k).valueAt v = e.2.toRat * v e.1 + (l ++ k).valueAt v := by
  simp only [Line.valueAt, List.map_append, List.map_cons, List.sum_append, List.sum_cons]
  ring

theorem isInside_row (hs : s.IsRational) {b : Box Exact} {v : Nat → ℚ}
    (hv : b.Contains s.numCols v) (r : Nat) :
    ActivityRange.IsInside (s.matrix.row r) b v :=
  fun e he => ⟨(hs.eq_finite he).1, hv e.1 (SubProblem.lt_of_mem_row he)⟩

/-- The bounds that a row leaves to a column hold for every point that satisfies the row. The range
of the row was taken over a box `b` that still has the bounds of the column. -/
theorem leftTo_sound (hs : s.IsRational) {b c : Box Exact} {v : Nat → ℚ} (hsat : s.Satisfies v)
    (hv : b.Contains s.numCols v) {r : Nat} (hr : r < s.numRows) {e : Nat × Exact}
    (he : e ∈ s.matrix.row r) (hlower : c.lower.getD e.1 0 = b.lower.getD e.1 0)
    (hupper : c.upper.getD e.1 0 = b.upper.getD e.1 0) :
    (leftTo s (s.boundsOf r) (.onBox (s.matrix.row r) b) c e).1 ≤ finite (v e.1) ∧
      finite (v e.1) ≤ (leftTo s (s.boundsOf r) (.onBox (s.matrix.row r) b) c e).2 := by
  obtain ⟨hfinite, hne⟩ := hs.eq_finite he
  have hinside := isInside_row hs hv r
  obtain ⟨hrl, hru⟩ := hsat.rows r hr
  -- the row is the entry and the rest, and the rest keeps the range without the entry
  obtain ⟨l, k, hrow⟩ := List.append_of_mem he
  have hrest : ActivityRange.IsInside (l ++ k) b v := fun d hd => hinside d (by
    rw [hrow]
    rcases List.mem_append.1 hd with hd | hd <;> simp [hd])
  rw [hrow] at hrl hru ⊢
  rw [valueAt_split] at hrl hru
  have hmin := fun q => ActivityRange.minWithout_le (e := e) (q := q) hrest
  have hmax := fun q => ActivityRange.le_maxWithout (e := e) (q := q) hrest
  obtain ⟨j, a⟩ := e
  obtain ⟨q, rfl⟩ : ∃ q, a = finite q := ⟨_, hfinite⟩
  unfold leftTo
  refine toWhole_sound ?_ (hsat.integral _ (SubProblem.lt_of_mem_row he))
  rw [limits_eq, hlower, hupper]
  have hinside := hv _ (SubProblem.lt_of_mem_row he)
  exact capBelow_sound hne (capAbove_sound hne hinside hru hmin) hrl hmax

theorem not_below {m l : Exact} {q : ℚ} (hl : l ≤ finite q) (hm : finite q ≤ m) :
    ¬ m < l - Scalar.feasTol := fun h =>
  Exact.lt_irrefl l (Exact.lt_of_le_of_lt (Exact.le_trans hl hm) (lt_of_lt_sub_feasTol h))

/-- The state of a row between two of its entries. The range of the row was taken over the box `b`;
entries that are still to come have the bounds that they had then. -/
structure RowInvariant (s : SubProblem Exact) (r : Nat) (b : Box Exact) (l : Line Exact)
    (c : Box Exact) : Prop where
  suffix : ∃ k, s.matrix.row r = k ++ l
  hasSize : c.HasSize s.numCols
  same : ∀ e ∈ l, c.lower.getD e.1 0 = b.lower.getD e.1 0 ∧
    c.upper.getD e.1 0 = b.upper.getD e.1 0
  tightens : c.Tightens b
  keeps : ∀ v, s.Satisfies v → b.Contains s.numCols v → c.Contains s.numCols v

/-- One entry of a row keeps the points that satisfy the row. -/
theorem tightenEntry_sound (hs : s.IsRational) {r : Nat} (hr : r < s.numRows) {b : Box Exact}
    {e : Nat × Exact} {l : Line Exact} {p : Progress Exact}
    (hp : RowInvariant s r b (e :: l) p.box) :
    ∃ a, tightenEntry s (s.boundsOf r) (.onBox (s.matrix.row r) b) p e = .ok a ∧
      Ends (fun _ => ∀ v, s.Satisfies v → ¬ b.Contains s.numCols v)
        (fun q : Progress Exact => RowInvariant s r b l q.box) a := by
  obtain ⟨k, hrow⟩ := hp.suffix
  have he : e ∈ s.matrix.row r := by simp [hrow]
  have hc : e.1 < s.numCols := SubProblem.lt_of_mem_row he
  obtain ⟨hlower, hupper⟩ := hp.same e (by simp)
  have hleft := fun v hsat hv => leftTo_sound hs (v := v) hsat hv hr he hlower hupper
  refine ⟨_, tightenEntry_eq hp.hasSize hc, ?_⟩
  split
  · exact fun v hsat hv => not_crossed (hleft v hsat hv) ‹_›
  · refine ⟨⟨k ++ [e], by simp [hrow]⟩, hasSize_tighten hp.hasSize .., fun d hd => ?_,
      (tightens_tighten hp.hasSize hc).trans hp.tightens,
      fun v hsat hv => contains_tighten hp.hasSize hc (hp.keeps v hsat hv) (hleft v hsat hv)⟩
    -- the columns of a row are different
    have hne : e.1 ≠ d.1 := by
      have hordered := (s.matrix.ordered_row r).1
      rw [hrow] at hordered
      exact ((List.pairwise_cons.1 (List.pairwise_append.1 hordered).2.1).1 d hd).ne
    rw [getD_lower_tighten (hp.hasSize.1 ▸ hc), getD_upper_tighten (hp.hasSize.2 ▸ hc),
      if_neg fun h => hne h.1, if_neg fun h => hne h.1]
    exact hp.same d (by simp [hd])

/-- One row keeps the points that satisfy it. -/
theorem tightenRow_sound (hs : s.IsRational) {r : Nat} (hr : r < s.numRows) {p : Progress Exact}
    (hp : p.box.HasSize s.numCols) :
    ∃ a, tightenRow s p r = .ok a ∧
      Ends (fun _ => ∀ v, s.Satisfies v → ¬ p.box.Contains s.numCols v)
        (fun q : Progress Exact => RowInvariant s r p.box [] q.box) a := by
  rw [tightenRow_eq hp]
  split
  · refine ⟨_, rfl, fun v hsat hv => ?_⟩
    have hinside := isInside_row hs hv r
    obtain ⟨hrl, hru⟩ := hsat.rows r hr
    rcases ‹_ ∨ _› with h | h
    · exact not_crossed (p := (_, _)) ⟨ActivityRange.min_onBox_le hinside, hru⟩ h
    · exact not_below hrl (ActivityRange.le_max_onBox hinside) h
  · exact foldUntil_rule (I := fun l q => RowInvariant s r p.box l q.box)
      (fun e l q hq => tightenEntry_sound hs hr hq) (s.matrix.row r) p
      ⟨⟨[], rfl⟩, hp, fun _ _ => ⟨rfl, rfl⟩, .refl _, fun _ _ hv => hv⟩

/-- The relaxation is sound: if it answers that a box is infeasible, no point of the box satisfies
all rows; otherwise it has only tightened bounds, and it has kept all these points. -/
theorem bound_sound (hs : s.IsRational) (passes : Nat) {b : Box Exact}
    (hb : b.HasSize s.numCols) :
    ∃ c, (bound passes s b = .ok (.infeasible, c) ∧
        ∀ v, s.Satisfies v → ¬ b.Contains s.numCols v) ∨
      (bound passes s b = .ok (.bounded (s.cornerBound c) (s.corner c), c) ∧
        c.HasSize s.numCols ∧ c.Tightens b ∧
        ∀ v, s.Satisfies v → b.Contains s.numCols v → c.Contains s.numCols v) := by
  obtain ⟨c, ⟨hc, h⟩ | ⟨hc, h⟩⟩ := bound_rule (s := s)
    (E := fun _ => ∀ v, s.Satisfies v → ¬ b.Contains s.numCols v)
    (I := fun c => c.HasSize s.numCols ∧ c.Tightens b ∧
      ∀ v, s.Satisfies v → b.Contains s.numCols v → c.Contains s.numCols v)
    (fun c hc => hc.1)
    (fun p r hr ⟨hsize, htightens, hkeeps⟩ => by
      obtain ⟨a, ha, hends⟩ := tightenRow_sound hs hr hsize
      refine ⟨a, ha, ?_⟩
      cases a with
      | error c => exact fun v hsat hv => hends v hsat (hkeeps v hsat hv)
      | ok q => exact ⟨hends.hasSize, hends.tightens.trans htightens,
          fun v hsat hv => hends.keeps v hsat (hkeeps v hsat hv)⟩)
    passes ⟨hb, .refl b, fun _ _ hv => hv⟩
  · exact ⟨c, .inl ⟨h, hc⟩⟩
  · exact ⟨c, .inr ⟨h, hc⟩⟩

variable {passes : Nat} {b c : Box Exact} (hs : s.IsRational) (hb : b.HasSize s.numCols)

include hs hb

theorem not_contains_of_infeasible (h : bound passes s b = .ok (.infeasible, c)) {v : Nat → ℚ}
    (hsat : s.Satisfies v) : ¬ b.Contains s.numCols v := by
  obtain ⟨d, ⟨-, hnone⟩ | ⟨hd, -⟩⟩ := bound_sound hs passes hb
  · exact hnone v hsat
  · rw [h] at hd
    cases hd

theorem keeps_of_bounded {o : Exact} {x : Array Exact}
    (h : bound passes s b = .ok (.bounded o x, c)) : c.Tightens b ∧
      ∀ v, s.Satisfies v → b.Contains s.numCols v → c.Contains s.numCols v := by
  obtain ⟨d, ⟨hd, -⟩ | ⟨hd, -, htightens, hkeeps⟩⟩ := bound_sound hs passes hb
  · rw [h] at hd
    cases hd
  · rw [h] at hd
    cases hd
    exact ⟨htightens, hkeeps⟩

end Propagation

/-! ### The cheapest corner -/

namespace SubProblem

variable {s : SubProblem Exact} {b : Box Exact} {v : Nat → ℚ}

/-- The cheapest value costs at most as much as any value between the bounds. -/
theorem cheapest_le {c w : ℚ} {lower upper : Exact} (hl : lower ≤ finite w)
    (hu : finite w ≤ upper) (hlimited : (cheapest (finite c) lower upper).2 = true) :
    c * (cheapest (finite c) lower upper).1.toRat ≤ c * w := by
  unfold cheapest at hlimited ⊢
  by_cases hc : (0 : Exact) ≤ finite c
  · simp only [hc, if_true] at hlimited ⊢
    have hc : 0 ≤ c := by simpa [zero_eq] using hc
    by_cases hbound : Scalar.isBound lower = true
    · rw [if_pos hbound]
      rw [eq_finite_of_isBound hbound, finite_le] at hl
      exact mul_le_mul_of_nonneg_left hl hc
    · rw [if_neg hbound, finite_beq_zero, decide_eq_true_iff] at hlimited
      simp [hlimited]
  · simp only [hc, if_false] at hlimited ⊢
    have hc : c < 0 := by simpa [zero_eq] using hc
    by_cases hbound : Scalar.isBound upper = true
    · rw [if_pos hbound]
      rw [eq_finite_of_isBound hbound, finite_le] at hu
      exact mul_le_mul_of_nonpos_left hu hc.le
    · rw [if_neg hbound, finite_beq_zero, decide_eq_true_iff] at hlimited
      simp [hlimited]

theorem isFinite_cheapest (cost lower upper : Exact) :
    Scalar.isFinite (cheapest cost lower upper).1 = true := by
  have hbound : ∀ x : Exact, Scalar.isBound x = true → Scalar.isFinite x = true := fun x hx => by
    rw [eq_finite_of_isBound hx]
    rfl
  have hentry : ∀ (x y : Exact) (f : Bool), Scalar.isFinite (if Scalar.isBound x then (x, true)
      else (if Scalar.isBound y then y else 0, f)).1 = true := by
    intro x y f
    split
    · exact hbound x ‹_›
    · show Scalar.isFinite (if Scalar.isBound y then y else 0) = true
      split
      · exact hbound y ‹_›
      · rfl
  exact hentry _ _ _

theorem getD_corner_eq_finite {j : Nat} (hj : j < s.numCols) :
    (s.corner b).getD j 0 = finite ((s.corner b).getD j 0).toRat := by
  obtain ⟨k, -, hk, -⟩ := exists_column hj
  rw [getD_corner hk]
  exact isFinite_iff.1 (isFinite_cheapest ..)

/-- The bound of the cheapest corner is at most the cost of any point of the box. -/
theorem cornerBound_le (hs : s.IsRational) (hv : b.Contains s.numCols v) :
    s.cornerBound b ≤ finite (s.costAt v) := by
  unfold cornerBound
  split
  · rw [objectiveValue_eq_costAt hs (s.size_corner b) fun j hj => getD_corner_eq_finite hj,
      finite_le]
    refine add_le_add_right (List.sum_le_sum fun j hj => ?_) _
    have hj := List.mem_range.1 hj
    obtain ⟨k, hk, hget, hcost⟩ := exists_column hj
    show (s.cost j).toRat * ((s.corner b).getD j 0).toRat ≤ (s.cost j).toRat * v j
    have hlimited := isLimited_iff.1 ‹_› j k hget
    rw [hcost, getD_corner hget]
    rw [cornerEntry] at hlimited ⊢
    obtain ⟨q, hq⟩ : ∃ q, k.objective = finite q := ⟨_, isFinite_iff.1 (hs.cost k hk)⟩
    rw [hq] at hlimited ⊢
    exact cheapest_le (hv j hj).1 (hv j hj).2 hlimited
  · simp [infinity_eq]

end SubProblem

/-! ### Answers at a node -/

/-- A vector of rational numbers in the box that is integral in the integer columns and satisfies all
rows, without any tolerance. -/
structure SubProblem.IsPoint (s : SubProblem Exact) (b : Box Exact) (y : Array Exact) : Prop where
  size : y.size = s.numCols
  isFinite : ∀ j < s.numCols, Scalar.isFinite (y.getD j 0) = true
  within : ∀ j < s.numCols, b.lower.getD j 0 ≤ y.getD j 0 ∧ y.getD j 0 ≤ b.upper.getD j 0
  integral : ∀ j < s.numCols, s.isInteger j = true → ∃ z : ℤ, y.getD j 0 = finite z
  rows : ∀ r < s.numRows, ∃ a, (s.matrix.row r).activity y = .ok a ∧
    (s.boundsOf r).lower ≤ a ∧ a ≤ (s.boundsOf r).upper

/-- An answer at a node, with the box `c` that is left of the box `b`, is sound: it bounds the cost of
all points of the node, and none of them is cut off. Column bounds only get tighter. -/
structure NodeBound.IsSound (a : NodeBound Exact) (s : SubProblem Exact) (b c : Box Exact) :
    Prop where
  keeps : ∀ y, s.IsPoint b y → a ≠ .infeasible ∧
    ∀ j < s.numCols, c.lower.getD j 0 ≤ y.getD j 0 ∧ y.getD j 0 ≤ c.upper.getD j 0
  le_objective : ∀ y, s.IsPoint b y → ∀ o x, a = .bounded o x → o ≤ s.objectiveValue y
  tightens : ∀ o x, a = .bounded o x → c.Tightens b

section Answers

variable {s : SubProblem Exact} {b : Box Exact}

/-- The vectors of a node are its points. -/
theorem SubProblem.IsPoint.exists_point (hs : s.IsRational) {y : Array Exact}
    (hy : s.IsPoint b y) : ∃ v, s.Satisfies v ∧ b.Contains s.numCols v ∧
      (∀ j < s.numCols, y.getD j 0 = finite (v j)) ∧ s.objectiveValue y = finite (s.costAt v) := by
  have hfinite : ∀ j < s.numCols, y.getD j 0 = finite (y.getD j 0).toRat :=
    fun j hj => isFinite_iff.1 (hy.isFinite j hj)
  refine ⟨fun j => (y.getD j 0).toRat, ⟨fun j hj hi => ?_, fun r hr => ?_⟩, fun j hj => ?_, hfinite,
    objectiveValue_eq_costAt hs hy.size hfinite⟩
  · obtain ⟨z, hz⟩ := hy.integral j hj hi
    exact ⟨z, by rw [hz, toRat_finite]⟩
  · obtain ⟨a, ha, hrow⟩ := hy.rows r hr
    rw [Line.activity_eq fun e he => (lt_of_mem_row he).trans_eq hy.size.symm] at ha
    rw [← dot_eq_valueAt hs hfinite, Except.ok.inj ha]
    exact hrow
  · rw [← hfinite j hj]
    exact hy.within j hj

end Answers

end PrimalHeuristics
