import PrimalHeuristics.Proofs.Points
import PrimalHeuristics.Proofs.Propagation.Runs

/-!
# The range of a row

The range of a row over a box adds up the contributions that have a limit and counts the others, so
the contribution of one entry can be taken off again. Over exact numbers, the activity of the row at
every point of the box lies in this range, and so does the activity of all entries but one.

* `ActivityRange.onBox_eq`: the range, from the lists of contributions;
* `ActivityRange.min_onBox_le`, `ActivityRange.le_max_onBox`: the activity of the row;
* `ActivityRange.minWithout_le`, `ActivityRange.le_maxWithout`: that of all entries but one.
-/

namespace PrimalHeuristics

open Exact

namespace ActivityRange

/-- The bounds among some contributions, added up. -/
def boundSum (cs : List Exact) : ℚ :=
  ((cs.filter Scalar.isBound).map toRat).sum

/-- The number of contributions without a limit. -/
def numMissing (cs : List Exact) : Nat :=
  cs.countP fun c => !Scalar.isBound c

/-- The least contributions of the entries of a row. -/
def lows (l : Line Exact) (b : Box Exact) : List Exact :=
  l.map fun e => (contribution e.2 (b.lower.getD e.1 0) (b.upper.getD e.1 0)).1

/-- The greatest contributions of the entries of a row. -/
def highs (l : Line Exact) (b : Box Exact) : List Exact :=
  l.map fun e => (contribution e.2 (b.lower.getD e.1 0) (b.upper.getD e.1 0)).2

theorem lows_cons (e : Nat × Exact) (l : Line Exact) (b : Box Exact) : lows (e :: l) b =
    [(contribution e.2 (b.lower.getD e.1 0) (b.upper.getD e.1 0)).1] ++ lows l b := rfl

theorem highs_cons (e : Nat × Exact) (l : Line Exact) (b : Box Exact) : highs (e :: l) b =
    [(contribution e.2 (b.lower.getD e.1 0) (b.upper.getD e.1 0)).2] ++ highs l b := rfl

theorem boundSum_append (cs ds : List Exact) :
    boundSum (cs ++ ds) = boundSum cs + boundSum ds := by
  simp [boundSum]

theorem numMissing_append (cs ds : List Exact) :
    numMissing (cs ++ ds) = numMissing cs + numMissing ds := by
  simp [numMissing]

theorem boundSum_of_numMissing {cs : List Exact} (h : numMissing cs = 0) :
    boundSum cs = (cs.map toRat).sum := by
  have : cs.filter Scalar.isBound = cs := by
    simpa [numMissing, List.countP_eq_zero] using h
  rw [boundSum, this]

theorem isBound_of_numMissing {cs : List Exact} (h : numMissing cs = 0) :
    ∀ c ∈ cs, Scalar.isBound c = true := by
  simpa [numMissing, List.countP_eq_zero] using h

theorem boundSum_singleton (c : Exact) :
    boundSum [c] = if Scalar.isBound c then c.toRat else 0 := by
  cases h : Scalar.isBound c <;> simp [boundSum, h]

theorem numMissing_singleton (c : Exact) :
    numMissing [c] = if Scalar.isBound c then 0 else 1 := by
  cases h : Scalar.isBound c <;> simp [numMissing, h]

theorem addMin_finite (a : ℚ) (i : Nat) (c : Exact) (j : Nat) (low : Exact) :
    addMin ⟨finite a, i, c, j⟩ low = ⟨finite (a + boundSum [low]), i + numMissing [low], c, j⟩ := by
  rw [addMin, boundSum_singleton, numMissing_singleton]
  cases h : Scalar.isBound low with
  | true =>
    obtain ⟨q, rfl, -⟩ := isBound_iff.1 h
    rfl
  | false => simp

theorem addMax_finite (a : Exact) (i : Nat) (c : ℚ) (j : Nat) (high : Exact) :
    addMax ⟨a, i, finite c, j⟩ high =
      ⟨a, i, finite (c + boundSum [high]), j + numMissing [high]⟩ := by
  rw [addMax, boundSum_singleton, numMissing_singleton]
  cases h : Scalar.isBound high with
  | true =>
    obtain ⟨q, rfl, -⟩ := isBound_iff.1 h
    rfl
  | false => simp

/-- The range of a row adds up the bounds among its contributions, and counts the others. -/
theorem onBox_eq (l : Line Exact) (b : Box Exact) :
    onBox l b = ⟨finite (boundSum (lows l b)), numMissing (lows l b),
      finite (boundSum (highs l b)), numMissing (highs l b)⟩ := by
  suffices ∀ (a : ℚ) (i : Nat) (c : ℚ) (j : Nat),
      l.foldl (fun (g : ActivityRange Exact) (e : Nat × Exact) =>
        let k := contribution e.2 (b.lower.getD e.1 0) (b.upper.getD e.1 0)
        (g.addMin k.1).addMax k.2) ⟨finite a, i, finite c, j⟩ =
          ⟨finite (a + boundSum (lows l b)), i + numMissing (lows l b),
            finite (c + boundSum (highs l b)), j + numMissing (highs l b)⟩ by
    have h := this 0 0 0 0
    simp only [zero_add] at h
    exact h
  induction l with
  | nil => simp [lows, highs, boundSum, numMissing]
  | cons e l ih =>
    intro a i c j
    rw [List.foldl_cons]
    simp only [addMin_finite, addMax_finite]
    rw [ih, lows_cons, highs_cons]
    simp only [boundSum_append, numMissing_append, add_assoc]

/-- The common form of `minWithout` and `maxWithout`. -/
def without (sum : Exact) (count : Nat) (own none : Exact) : Exact :=
  if Scalar.isBound own then if 0 < count then none else sum - own
  else if count = 1 then sum else none

/-- A limit for all contributions but one is the sum of these, which all have a limit. -/
theorem without_eq_finite {cs ds : List Exact} {own none : Exact} {q : ℚ}
    (hnone : Scalar.isFinite none = false)
    (h : without (finite (boundSum (cs ++ own :: ds))) (numMissing (cs ++ own :: ds)) own none =
      finite q) : numMissing (cs ++ ds) = 0 ∧ q = boundSum (cs ++ ds) := by
  have hne : none ≠ finite q := fun e => by
    rw [e] at hnone
    contradiction
  have hsum : boundSum (cs ++ own :: ds) = boundSum [own] + boundSum (cs ++ ds) := by
    rw [← List.singleton_append, boundSum_append, boundSum_append, boundSum_append]
    ring
  have hcount : numMissing (cs ++ own :: ds) = numMissing [own] + numMissing (cs ++ ds) := by
    rw [← List.singleton_append, numMissing_append, numMissing_append, numMissing_append]
    ring
  rw [hsum, hcount, boundSum_singleton, numMissing_singleton] at h
  unfold without at h
  cases hown : Scalar.isBound own with
  | true =>
    simp only [hown, if_true, zero_add] at h
    split at h
    · exact absurd h hne
    · rw [eq_finite_of_isBound hown] at h
      have : q = boundSum (cs ++ ds) := by simpa using h.symm
      exact ⟨by omega, this⟩
  | false =>
    simp only [hown, Bool.false_eq_true, if_false, zero_add] at h
    split at h
    · exact ⟨by omega, by simpa using h.symm⟩
    · exact absurd h hne

/-! ### Points and the range of a row -/

variable {a : ℚ} {lower upper : Exact}

theorem isBound_mul_infinite (a : ℚ) (t : Bool) :
    Scalar.isBound (finite a * infinite t) = false := by
  show Scalar.isBound (if a = 0 then nan else infinite (decide (a < 0) != t)) = false
  split <;> simp

theorem toRat_low_le {v : ℚ} (hl : lower ≤ finite v) (hu : finite v ≤ upper)
    (h : Scalar.isBound (contribution (finite a) lower upper).1 = true) :
    (contribution (finite a) lower upper).1.toRat ≤ a * v := by
  unfold contribution at h ⊢
  by_cases ha : (0 : Exact) < finite a
  · simp only [ha, if_true] at h ⊢
    rcases lower with l | s | _
    · have ha : 0 < a := by simpa [zero_eq] using ha
      exact mul_le_mul_of_nonneg_left (finite_le _ _ |>.1 hl) ha.le
    · rw [isBound_mul_infinite] at h
      contradiction
    · simp at hl
  · simp only [ha, if_false] at h ⊢
    rcases upper with u | s | _
    · have ha : a ≤ 0 := by simpa [zero_eq] using ha
      exact mul_le_mul_of_nonpos_left (finite_le _ _ |>.1 hu) ha
    · rw [isBound_mul_infinite] at h
      contradiction
    · simp at hu

theorem le_toRat_high {v : ℚ} (hl : lower ≤ finite v) (hu : finite v ≤ upper)
    (h : Scalar.isBound (contribution (finite a) lower upper).2 = true) :
    a * v ≤ (contribution (finite a) lower upper).2.toRat := by
  unfold contribution at h ⊢
  by_cases ha : (0 : Exact) < finite a
  · simp only [ha, if_true] at h ⊢
    rcases upper with u | s | _
    · have ha : 0 < a := by simpa [zero_eq] using ha
      exact mul_le_mul_of_nonneg_left (finite_le _ _ |>.1 hu) ha.le
    · rw [isBound_mul_infinite] at h
      contradiction
    · simp at hu
  · simp only [ha, if_false] at h ⊢
    rcases lower with l | s | _
    · have ha : a ≤ 0 := by simpa [zero_eq] using ha
      exact mul_le_mul_of_nonpos_left (finite_le _ _ |>.1 hl) ha
    · rw [isBound_mul_infinite] at h
      contradiction
    · simp at hl

/-- The entries of a row are rational, and the point lies in the box at their columns. -/
def IsInside (l : Line Exact) (b : Box Exact) (v : Nat → ℚ) : Prop :=
  ∀ e ∈ l, e.2 = finite e.2.toRat ∧ b.lower.getD e.1 0 ≤ finite (v e.1) ∧
    finite (v e.1) ≤ b.upper.getD e.1 0

variable {l k : Line Exact} {e : Nat × Exact} {b : Box Exact} {v : Nat → ℚ}

theorem boundSum_lows_le (h : IsInside l b v) (hmissing : numMissing (lows l b) = 0) :
    boundSum (lows l b) ≤ l.valueAt v := by
  rw [boundSum_of_numMissing hmissing, lows, List.map_map, Line.valueAt]
  refine List.sum_le_sum fun e he => ?_
  obtain ⟨hfinite, hl, hu⟩ := h e he
  have hbound := isBound_of_numMissing hmissing _ (List.mem_map_of_mem he)
  simp only [Function.comp_apply]
  rw [hfinite] at hbound ⊢
  exact toRat_low_le hl hu hbound

theorem le_boundSum_highs (h : IsInside l b v) (hmissing : numMissing (highs l b) = 0) :
    l.valueAt v ≤ boundSum (highs l b) := by
  rw [boundSum_of_numMissing hmissing, highs, List.map_map, Line.valueAt]
  refine List.sum_le_sum fun e he => ?_
  obtain ⟨hfinite, hl, hu⟩ := h e he
  have hbound := isBound_of_numMissing hmissing _ (List.mem_map_of_mem he)
  simp only [Function.comp_apply]
  rw [hfinite] at hbound ⊢
  exact le_toRat_high hl hu hbound

theorem min_onBox_le (h : IsInside l b v) : (onBox l b).min ≤ finite (l.valueAt v) := by
  rw [onBox_eq, ActivityRange.min]
  split
  · simp [infinity_eq]
  · simpa using boundSum_lows_le h (Nat.eq_zero_of_not_pos ‹_›)

theorem le_max_onBox (h : IsInside l b v) : finite (l.valueAt v) ≤ (onBox l b).max := by
  rw [onBox_eq, ActivityRange.max]
  split
  · simp [infinity_eq]
  · simpa using le_boundSum_highs h (Nat.eq_zero_of_not_pos ‹_›)

/-- A limit for the least activity of all entries but one is one for the rest of the row. -/
theorem minWithout_le (h : IsInside (l ++ k) b v) {q : ℚ}
    (hq : (onBox (l ++ e :: k) b).minWithout
      (contribution e.2 (b.lower.getD e.1 0) (b.upper.getD e.1 0)).1 = finite q) :
    q ≤ (l ++ k).valueAt v := by
  rw [onBox_eq, lows, List.map_append, List.map_cons, ← lows, ← lows] at hq
  obtain ⟨hmissing, rfl⟩ := without_eq_finite rfl
    (show without _ _ _ (-Scalar.infinity) = finite q from hq)
  rw [show lows l b ++ lows k b = lows (l ++ k) b from List.map_append.symm] at hmissing ⊢
  exact boundSum_lows_le h hmissing

/-- A limit for the greatest activity of all entries but one is one for the rest of the row. -/
theorem le_maxWithout (h : IsInside (l ++ k) b v) {q : ℚ}
    (hq : (onBox (l ++ e :: k) b).maxWithout
      (contribution e.2 (b.lower.getD e.1 0) (b.upper.getD e.1 0)).2 = finite q) :
    (l ++ k).valueAt v ≤ q := by
  rw [onBox_eq, highs, List.map_append, List.map_cons, ← highs, ← highs] at hq
  obtain ⟨hmissing, rfl⟩ := without_eq_finite rfl
    (show without _ _ _ Scalar.infinity = finite q from hq)
  rw [show highs l b ++ highs k b = highs (l ++ k) b from List.map_append.symm] at hmissing ⊢
  exact le_boundSum_highs h hmissing

end ActivityRange

end PrimalHeuristics
