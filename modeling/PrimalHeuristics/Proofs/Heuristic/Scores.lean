import Mathlib.Tactic
import PrimalHeuristics.Heuristic.Rounding
import PrimalHeuristics.Proofs.Heuristic.Blocking

/-!
# Scores of columns without cost

Over exact numbers, the random terms of a score are below one, and one lock more weighs as much. So
a value without cost that some direction has no locks for is rounded in such a direction, whatever
the random numbers are.

* `Direction.whole`: the whole numbers next to a value, which whole bounds leave to it;
* `Stream.exists_uniform_eq`: random numbers are from zero on and below one;
* `Rounding.chooseWhole_eq`: random numbers do not decide against locks.
-/

namespace PrimalHeuristics

open Exact

/-! ### Whole numbers next to a value -/

namespace Exact

/-- A whole number that is nearest is next to the value. -/
theorem nearest_eq_floor_or_ceil (q : ℚ) : nearest q = ⌊q⌋ ∨ nearest q = ⌈q⌉ := by
  have hbetween : ⌊q⌋ ≤ nearest q ∧ nearest q ≤ ⌈q⌉ := by
    have hfloor := Int.floor_le q
    have hceil := Int.le_ceil q
    unfold nearest
    split
    · constructor
      · exact Int.floor_le_floor (by linarith)
      · apply Int.lt_add_one_iff.1
        rw [Int.floor_lt]
        push_cast
        linarith
    · constructor
      · apply Int.le_of_sub_one_lt
        rw [Int.lt_ceil]
        push_cast
        linarith
      · exact Int.ceil_le_ceil (by linarith)
  have hnext := Int.ceil_le_floor_add_one q
  omega

/-- A number between bounds is the nearest one to itself. -/
theorem clamp_eq_self {x : ℚ} {l u : Exact} (hl : l ≤ finite x) (hu : finite x ≤ u) :
    Scalar.clamp (finite x) l u = .ok (finite x) := by
  have hlow : ¬ finite x < l := fun h => Exact.lt_irrefl _ (Exact.lt_of_lt_of_le h hl)
  have hhigh : ¬ u < finite x := fun h => Exact.lt_irrefl _ (Exact.lt_of_lt_of_le h hu)
  unfold Scalar.clamp
  rw [if_pos (Exact.le_trans hl hu)]
  simp only [if_neg hlow, if_neg hhigh]

end Exact

namespace Direction

/-- The whole number next to a value in a direction. -/
def whole : Direction → ℚ → ℤ
  | down, q => ⌊q⌋
  | up, q => ⌈q⌉

theorem exists_whole_eq (d : Direction) (q : ℚ) :
    ∃ t, 0 ≤ t ∧ (d.whole q : ℚ) = q + d.sign * t := by
  cases d with
  | down =>
    refine ⟨q - ⌊q⌋, sub_nonneg.2 (Int.floor_le q), ?_⟩
    simp only [whole, sign]
    ring
  | up =>
    refine ⟨⌈q⌉ - q, sub_nonneg.2 (Int.le_ceil q), ?_⟩
    simp only [whole, sign]
    ring

/-- Whole bounds that hold a value hold the whole numbers next to it. -/
theorem le_whole (d : Direction) {l : Exact} {q : ℚ} (hl : l ≤ finite q)
    (hwhole : Scalar.ceil l = l) : l ≤ finite (d.whole q) := by
  rcases l with a | (_ | _) | _
  · rw [ceil_finite, finite.injEq] at hwhole
    rw [finite_le] at hl ⊢
    cases d with
    | down =>
      rw [← hwhole] at hl ⊢
      exact_mod_cast Int.le_floor.2 hl
    | up => exact hl.trans (Int.le_ceil q)
  · simp at hl
  · simp
  · simp at hl

theorem whole_le (d : Direction) {u : Exact} {q : ℚ} (hu : finite q ≤ u)
    (hwhole : Scalar.floor u = u) : finite (d.whole q) ≤ u := by
  rcases u with a | (_ | _) | _
  · rw [floor_finite, finite.injEq] at hwhole
    rw [finite_le] at hu ⊢
    cases d with
    | down => exact (Int.floor_le q).trans hu
    | up =>
      rw [← hwhole] at hu ⊢
      exact_mod_cast Int.ceil_le.2 hu
  · simp
  · simp at hu
  · simp at hu

end Direction

/-! ### Scores -/

/-- Random numbers lie in the unit interval, without its upper end. -/
theorem Stream.exists_uniform_eq (s : Stream) :
    ∃ q, (s.uniform Exact).1 = finite q ∧ 0 ≤ q ∧ q < 1 := by
  have hpow : (0 : ℚ) < (Nat.pow 2 53 : ℕ) := by norm_num
  refine ⟨((s.next.1 >>> 11).toNat : ℚ) / (Nat.pow 2 53 : ℕ), finite_div _ _ hpow.ne', ?_, ?_⟩
  · positivity
  · rw [div_lt_one hpow]
    have hlt := s.next.1.toNat_lt
    have hshift : (s.next.1 >>> 11).toNat = s.next.1.toNat / 2 ^ 11 := by
      simp [Nat.shiftRight_eq_div_pow]
    rw [hshift]
    exact_mod_cast Nat.div_lt_of_lt_mul (by omega)

/-- The random terms of scores are at most as large as one lock. -/
def Weights.IsModerate (w : Weights Exact) : Prop :=
  0 ≤ w.lockJitter ∧ w.lockJitter ≤ 1

namespace Rounding

variable {w : Weights Exact}

theorem score_eq {j : ℚ} (hw : w.lockJitter = finite j) (hj : 0 ≤ j) (locks : ℕ) {r : ℚ}
    (hr : 0 ≤ r) : w.score locks (finite 0) (finite r) = finite (1 / (1 + locks + j * r)) := by
  have hpos : (0 : ℚ) < 1 + locks + j * r := by positivity
  have hone : w.ofChange (finite 0) = finite 1 := by
    simp [Weights.ofChange, zero_eq, one_eq]
  have hlocks : (Scalar.ofNat locks : Exact) = finite locks := rfl
  rw [Weights.score, hone, hw, one_eq, hlocks, finite_mul, finite_add, finite_add,
    finite_div _ _ hpos.ne']

/-- Without cost a value is rounded in a direction without locks, if there is one, whatever the
random numbers are. -/
theorem chooseWhole_eq (hw : w.IsModerate) {l : LockCount} {d : Direction}
    (hl : l.inDirection d = 0) (v : ℚ) (s t : Stream) : ∃ e, l.inDirection e = 0 ∧
      chooseWhole w l 0 (finite v) (s.uniform Exact).1 (t.uniform Exact).1 =
        finite (e.whole v) := by
  obtain ⟨hlow, hhigh⟩ := hw
  obtain ⟨j, hj⟩ : ∃ j, w.lockJitter = finite j := ⟨_, eq_finite_of_between hlow hhigh⟩
  rw [hj] at hlow hhigh
  have hj0 : 0 ≤ j := (finite_le 0 j).1 hlow
  have hj1 : j ≤ 1 := (finite_le j 1).1 hhigh
  obtain ⟨r, hr, hr0, hr1⟩ := s.exists_uniform_eq
  obtain ⟨q, hq, hq0, hq1⟩ := t.exists_uniform_eq
  have hdown : w.score l.down (0 * (Scalar.floor (finite v) - finite v)) (finite r) =
      finite (1 / (1 + l.down + j * r)) := by
    rw [floor_finite, finite_sub, zero_eq, finite_mul, zero_mul, score_eq hj hj0 _ hr0]
  have hup : w.score l.up (0 * (Scalar.ceil (finite v) - finite v)) (finite q) =
      finite (1 / (1 + l.up + j * q)) := by
    rw [ceil_finite, finite_sub, zero_eq, finite_mul, zero_mul, score_eq hj hj0 _ hq0]
  -- one lock outweighs every random term
  have hjr : j * r < 1 := by nlinarith
  have hjq : j * q < 1 := by nlinarith
  have hjr0 : 0 ≤ j * r := mul_nonneg hj0 hr0
  have hjq0 : 0 ≤ j * q := mul_nonneg hj0 hq0
  unfold chooseWhole
  simp only [hr, hq, hdown, hup, finite_lt]
  rcases Nat.eq_zero_or_pos l.down with hd | hd
  · rcases Nat.eq_zero_or_pos l.up with hu | hu
    · -- both directions are free, and all outcomes are next to the value
      have hfree : ∀ e, l.inDirection e = 0 := fun e => by cases e <;> assumption
      split
      · exact ⟨.up, hfree _, rfl⟩
      · split
        · exact ⟨.down, hfree _, rfl⟩
        · split
          · rw [round_finite]
            rcases nearest_eq_floor_or_ceil v with h | h
            · exact ⟨.down, hfree _, by rw [h]; rfl⟩
            · exact ⟨.up, hfree _, by rw [h]; rfl⟩
          · exact ⟨.down, hfree _, rfl⟩
    · have hu : (1 : ℚ) ≤ l.up := by exact_mod_cast hu
      have hless : 1 / (1 + l.up + j * q) < 1 / (1 + l.down + j * r) := by
        rw [hd, Nat.cast_zero]
        exact one_div_lt_one_div_of_lt (by linarith) (by linarith)
      rw [if_neg hless.not_gt, if_pos hless]
      exact ⟨.down, hd, rfl⟩
  · have hu : l.up = 0 := by
      cases d with
      | down => exact absurd hl hd.ne'
      | up => exact hl
    have hd : (1 : ℚ) ≤ l.down := by exact_mod_cast hd
    have hless : 1 / (1 + l.down + j * r) < 1 / (1 + l.up + j * q) := by
      rw [hu, Nat.cast_zero]
      exact one_div_lt_one_div_of_lt (by linarith) (by linarith)
    rw [if_pos hless]
    exact ⟨.up, hu, rfl⟩

end Rounding

end PrimalHeuristics
