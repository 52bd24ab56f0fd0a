import Mathlib.Tactic
import PrimalHeuristics.Proofs.Heuristic.Locks
import PrimalHeuristics.Proofs.Heuristic.Moves
import PrimalHeuristics.Proofs.Restriction
import PrimalHeuristics.Tree.Decision

/-!
# What locks mean

Over exact numbers a row locks a column in a direction exactly if it blocks it: some activity
between the bounds of the row leaves them when the column is moved that way. Whether it does depends
on the signs of the coefficient and of the move, and on which bounds are infinite. So a column
without locks in a direction may be moved that way as far as one likes.

* `RowBounds.Admits`, `Problem.KeepsRows`: activities between bounds, and points that keep all rows;
* `RowBounds.IsLeft`, `Problem.Blocks`: the rows that block a column;
* `RowBounds.Tolerates`: the signs of changes that never leave the bounds;
* `LockCount.locks_eq_false_iff`, `RowBounds.isLeft_iff`: locking and blocking by these signs;
* `Locks.countBlockingRows`: the counts of locks are those of blocking rows.
-/

namespace PrimalHeuristics

open Exact

/-- The sign of a move. -/
def Direction.sign : Direction → ℚ
  | down => -1
  | up => 1

/-! ### Locks by direction -/

namespace LockCount

/-- The row locks the column in a direction. -/
def locks {α : Type} [Scalar α] : Direction → α → RowBounds α → Bool
  | .down => locksDown
  | .up => locksUp

/-- The number of locks in a direction. -/
def inDirection (l : LockCount) : Direction → ℕ
  | .down => l.down
  | .up => l.up

end LockCount

namespace RowBounds

/-! ### Activities that leave the bounds -/

/-- The activity lies between the bounds. -/
def Admits (b : RowBounds Exact) (y : ℚ) : Prop :=
  b.lower ≤ finite y ∧ finite y ≤ b.upper

/-- Some activity between the bounds leaves them when a column with coefficient `a` is moved. -/
def IsLeft (b : RowBounds Exact) (a : ℚ) (d : Direction) : Prop :=
  ∃ y, b.Admits y ∧ ∃ t > 0, ¬ b.Admits (y + a * (d.sign * t))

/-- No activity leaves the bounds by changes of the sign of `s`: those to that side are infinite. -/
def Tolerates (b : RowBounds Exact) (s : ℚ) : Prop :=
  (b.lower = infinite true ∨ 0 ≤ s) ∧ (b.upper = infinite false ∨ s ≤ 0)

variable {b : RowBounds Exact} {s y : ℚ}

theorem Tolerates.admits (h : b.Tolerates s) (hy : b.Admits y) {t : ℚ} (ht : 0 ≤ t) :
    b.Admits (y + s * t) := by
  obtain ⟨hlower, hupper⟩ := h
  constructor
  · rcases hlower with hl | hs
    · rw [hl]
      simp
    · have hle : finite y ≤ finite (y + s * t) :=
        (finite_le _ _).2 (le_add_of_nonneg_right (mul_nonneg hs ht))
      exact Exact.le_trans hy.1 hle
  · rcases hupper with hu | hs
    · rw [hu]
      simp
    · have hle : finite (y + s * t) ≤ finite y :=
        (finite_le _ _).2 (add_le_of_nonpos_right (mul_nonpos_of_nonpos_of_nonneg hs ht))
      exact Exact.le_trans hle hy.2

/-- Moves that a row tolerates do not violate it more. -/
theorem Tolerates.violation_le (hb : b.IsProper) (h : b.Tolerates s) (y : ℚ) {t : ℚ}
    (ht : 0 ≤ t) :
    b.violation (finite (y + s * t)) ≤ b.violation (finite y) := by
  have hraise : 0 ≤ s → y ≤ y + s * t := fun hs => le_add_of_nonneg_right (mul_nonneg hs ht)
  have hlower : s ≤ 0 → y + s * t ≤ y := fun hs =>
    add_le_of_nonpos_right (mul_nonpos_of_nonpos_of_nonneg hs ht)
  generalize y + s * t = z at hraise hlower
  obtain ⟨lower, upper⟩ := b
  obtain ⟨hl, hu⟩ := hb
  obtain ⟨hdown, hup⟩ := h
  -- a finite bound on the side to which the activity moves would not be tolerated
  rcases hl with hl | rfl <;> rcases hu with hu | rfl
  · obtain ⟨l, rfl, -⟩ := isBound_iff.1 hl
    obtain ⟨u, rfl, -⟩ := isBound_iff.1 hu
    have hyz := hraise (hdown.resolve_left (by simp))
    have hzy := hlower (hup.resolve_left (by simp))
    simp only [violation, finite_lt, finite_sub, zero_eq]
    split_ifs <;> rw [finite_le] <;> linarith
  · obtain ⟨l, rfl, -⟩ := isBound_iff.1 hl
    have hyz := hraise (hdown.resolve_left (by simp))
    simp only [violation, finite_lt, finite_sub, zero_eq, not_infinite_false_lt, if_false]
    split_ifs <;> rw [finite_le] <;> linarith
  · obtain ⟨u, rfl, -⟩ := isBound_iff.1 hu
    have hzy := hlower (hup.resolve_left (by simp))
    simp only [violation, not_lt_infinite_true, finite_lt, finite_sub, zero_eq, if_false]
    split_ifs <;> rw [finite_le] <;> linarith
  · simp only [violation, not_lt_infinite_true, not_infinite_false_lt, if_false]
    exact (finite_le 0 0).2 le_rfl

/-- A change that is not tolerated goes towards a finite bound. -/
theorem IsProper.exists_of_not_tolerates (hb : b.IsProper) (h : ¬ b.Tolerates s) :
    (∃ l, b.lower = finite l ∧ s < 0) ∨ ∃ u, b.upper = finite u ∧ 0 < s := by
  obtain ⟨hlower, hupper⟩ := hb
  by_cases hleft : b.lower = infinite true ∨ 0 ≤ s
  · have hright : ¬ (b.upper = infinite false ∨ s ≤ 0) := fun hright => h ⟨hleft, hright⟩
    push Not at hright
    obtain ⟨u, hu, -⟩ := isBound_iff.1 (hupper.resolve_right hright.1)
    exact .inr ⟨u, hu, hright.2⟩
  · push Not at hleft
    obtain ⟨l, hl, -⟩ := isBound_iff.1 (hlower.resolve_right hleft.1)
    exact .inl ⟨l, hl, hleft.2⟩

/-- A row is left by moves that it does not tolerate, from its finite bound on that side. -/
theorem isLeft_iff (hb : b.IsProper) (hle : b.lower ≤ b.upper) {a : ℚ} {d : Direction} :
    b.IsLeft a d ↔ ¬ b.Tolerates (a * d.sign) := by
  constructor
  · rintro ⟨y, hy, t, ht, hleft⟩ htolerates
    rw [← mul_assoc] at hleft
    exact hleft (htolerates.admits hy ht.le)
  · intro h
    rcases hb.exists_of_not_tolerates h with ⟨l, hl, hs⟩ | ⟨u, hu, hs⟩
    · refine ⟨l, ⟨?_, hl ▸ hle⟩, 1, one_pos, fun hy => ?_⟩
      · rw [hl, finite_le]
      · have := hy.1
        rw [hl, finite_le, mul_one] at this
        linarith
    · refine ⟨u, ⟨hu ▸ hle, ?_⟩, 1, one_pos, fun hy => ?_⟩
      · rw [hu, finite_le]
      · have := hy.2
        rw [hu, finite_le, mul_one] at this
        linarith

/-- Equal bounds are a rational number. -/
theorem IsProper.exists_of_beq (hb : b.IsProper) (h : (b.lower == b.upper) = true) :
    ∃ q, b.lower = finite q ∧ b.upper = finite q := by
  obtain ⟨lower, upper⟩ := b
  obtain ⟨hlower, hupper⟩ := hb
  rcases hlower with hl | rfl
  · obtain ⟨l, rfl, -⟩ := isBound_iff.1 hl
    rcases hupper with hu | rfl
    · obtain ⟨u, rfl, -⟩ := isBound_iff.1 hu
      obtain rfl : l = u := of_decide_eq_true h
      exact ⟨l, rfl, rfl⟩
    · cases h
  · rcases hupper with hu | rfl
    · obtain ⟨u, rfl, -⟩ := isBound_iff.1 hu
      cases h
    · cases h

/-- The bounds are equal exactly if they leave a single activity. -/
theorem existsUnique_admits_iff (hb : b.IsProper) (hle : b.lower ≤ b.upper) :
    (∃! y, b.Admits y) ↔ (b.lower == b.upper) = true := by
  constructor
  · rintro ⟨y, hy, hunique⟩
    -- a change that is tolerated would lead to another activity
    have hnot : ∀ s ≠ 0, ¬ b.Tolerates s := by
      intro s hs htolerates
      have hmoved := hunique _ (htolerates.admits hy zero_le_one)
      rw [mul_one, add_eq_left] at hmoved
      exact hs hmoved
    obtain ⟨l, hl, -⟩ := (hb.exists_of_not_tolerates (hnot (-1) (by norm_num))).resolve_right
      fun ⟨_, _, hpos⟩ => absurd hpos (by norm_num)
    obtain ⟨u, hu, -⟩ := (hb.exists_of_not_tolerates (hnot 1 one_ne_zero)).resolve_left
      fun ⟨_, _, hneg⟩ => absurd hneg (by norm_num)
    have hly : l = y := hunique l ⟨by rw [hl, finite_le], hl ▸ hle⟩
    have huy : u = y := hunique u ⟨hu ▸ hle, by rw [hu, finite_le]⟩
    rw [hl, hu, hly, huy]
    exact decide_eq_true rfl
  · intro heq
    obtain ⟨q, hl, hu⟩ := hb.exists_of_beq heq
    refine ⟨q, ⟨by rw [hl, finite_le], by rw [hu, finite_le]⟩, fun z hz => ?_⟩
    obtain ⟨hlower, hupper⟩ := hz
    rw [hl, finite_le] at hlower
    rw [hu, finite_le] at hupper
    exact le_antisymm hupper hlower

end RowBounds

/-- A row does not lock exactly the moves that it tolerates. -/
theorem LockCount.locks_eq_false_iff {b : RowBounds Exact} (hb : b.IsProper) {a : ℚ} (ha : a ≠ 0)
    (d : Direction) : locks d (finite a) b = false ↔ b.Tolerates (a * d.sign) := by
  obtain ⟨lower, upper⟩ := b
  obtain ⟨hlower, hupper⟩ := hb
  have hsign := lt_or_gt_of_ne ha
  -- which bounds are finite, and then the direction
  rcases hlower with hl | rfl <;> rcases hupper with hu | rfl
  · obtain ⟨l, rfl, hl⟩ := isBound_iff.1 hl
    obtain ⟨u, rfl, hu⟩ := isBound_iff.1 hu
    cases d <;> simp [locks, locksDown, locksUp, RowBounds.Tolerates, Direction.sign, hl, hu] <;>
      grind
  · obtain ⟨l, rfl, hl⟩ := isBound_iff.1 hl
    cases d <;> simp [locks, locksDown, locksUp, RowBounds.Tolerates, Direction.sign, hl, zero_eq]
  · obtain ⟨u, rfl, hu⟩ := isBound_iff.1 hu
    cases d <;> simp [locks, locksDown, locksUp, RowBounds.Tolerates, Direction.sign, hu, zero_eq]
  · cases d <;> simp [locks, locksDown, locksUp, RowBounds.Tolerates]

/-! ### Rows that block a column -/

/-- A line without repeated indices, counted by its indices. -/
theorem Line.countP_eq_ncard {α : Type} {l : Line α} (hl : l.Increasing) {f : ℕ × α → Bool}
    {P : ℕ → Prop} (hf : ∀ e ∈ l, f e = true ↔ P e.1) (hP : ∀ r, P r → ∃ a, (r, a) ∈ l) :
    l.countP f = {r | P r}.ncard := by
  have hnodup : ((l.filter f).map (·.1)).Nodup :=
    (List.pairwise_map.2 (hl.filter f)).imp fun hlt => hlt.ne
  have hset : {r | P r} = ↑((l.filter f).map (·.1)).toFinset := by
    ext r
    rw [Set.mem_ofPred_eq, Finset.mem_coe, List.mem_toFinset, List.mem_map]
    constructor
    · intro hr
      obtain ⟨a, ha⟩ := hP r hr
      exact ⟨(r, a), List.mem_filter.2 ⟨ha, (hf _ ha).2 hr⟩, rfl⟩
    · rintro ⟨e, he, rfl⟩
      obtain ⟨he, hfe⟩ := List.mem_filter.1 he
      exact (hf e he).1 hfe
  rw [hset, Set.ncard_coe_finset, List.toFinset_card_of_nodup hnodup, List.length_map,
    List.countP_eq_length_filter]

namespace Problem

/-- All rows are kept at a point. -/
def KeepsRows (p : Problem Exact) (v : ℕ → ℚ) : Prop :=
  ∀ r < p.numRows, (p.boundsOf r).Admits ((p.matrix.row r).valueAt v)

/-- The row has an entry for the column that is not zero, and some activity between its bounds
leaves them when the column is moved. -/
def Blocks (p : Problem Exact) (d : Direction) (c r : ℕ) : Prop :=
  (p.matrix.row r).coefficient c ≠ 0 ∧ (p.boundsOf r).IsLeft ((p.matrix.row r).coefficient c) d

/-- The row has an entry for the column that is not zero, and a single activity. -/
def Fixes (p : Problem Exact) (c r : ℕ) : Prop :=
  (p.matrix.row r).coefficient c ≠ 0 ∧ ∃! y, (p.boundsOf r).Admits y

/-- All coefficients are rational numbers, and the bounds of each row are in order; those that are
none are the infinity of their own side. -/
structure HasIntervals (p : Problem Exact) : Prop where
  isRational : p.matrix.IsRational
  isProper : ∀ r < p.numRows, (p.boundsOf r).IsProper
  ordered : ∀ r < p.numRows, (p.boundsOf r).lower ≤ (p.boundsOf r).upper

end Problem

namespace Matrix

variable {m : Matrix Exact} {c r : ℕ}

theorem IsRational.eq_coefficient (hm : m.IsRational) {a : Exact} (ha : (r, a) ∈ m.column c) :
    a = finite ((m.row r).coefficient c) ∧ (m.row r).coefficient c ≠ 0 := by
  have hrow := mem_column.1 ha
  have hcoefficient : (m.row r).coefficient c = a.toRat := by
    rw [Line.coefficient, (Line.lookup_eq_some (m.increasing_row r)).2 hrow]
    rfl
  rw [hcoefficient]
  exact hm.eq_finite hrow

theorem exists_mem_column (h : (m.row r).coefficient c ≠ 0) : ∃ a, (r, a) ∈ m.column c := by
  by_contra hnone
  refine h (Line.coefficient_of_not_mem fun e he hec => hnone ⟨e.2, mem_column.2 ?_⟩)
  rwa [← hec]

end Matrix

namespace Locks

variable {p : Problem Exact} {c : ℕ}

theorem get_byColumn (hc : c < p.numCols) : (byColumn p).get c = ofColumn p c := by
  simp [get, byColumn, Array.getD_eq_getD_getElem?, hc]

theorem inDirection_ofColumn (p : Problem Exact) (c : ℕ) (d : Direction) :
    (ofColumn p c).inDirection d = min lockLimit
      ((p.matrix.column c).countP fun e => LockCount.locks d e.2 (p.boundsOf e.1)) := by
  rw [ofColumn, LockCount.foldl_addRow]
  cases d <;> rfl

theorem equal_ofColumn (p : Problem Exact) (c : ℕ) :
    (ofColumn p c).equal = min lockLimit
      ((p.matrix.column c).countP fun e => (p.boundsOf e.1).lower == (p.boundsOf e.1).upper) := by
  rw [ofColumn, LockCount.foldl_addRow]

/-- The counts of a column are those of the rows that block it, and a column that no row blocks in a
direction may be moved that way from every point that keeps all rows. -/
structure CountsBlockingRows (p : Problem Exact) (c : ℕ) (l : LockCount) : Prop where
  inDirection : ∀ d, l.inDirection d = min lockLimit {r | r < p.numRows ∧ p.Blocks d c r}.ncard
  equal : l.equal = min lockLimit {r | r < p.numRows ∧ p.Fixes c r}.ncard
  free : ∀ d, l.inDirection d = 0 → ∀ v, p.KeepsRows v → ∀ t, 0 ≤ t →
    p.KeepsRows (Function.update v c (v c + d.sign * t))

/-- All rows tolerate the moves of a column that has no locks in a direction. -/
theorem tolerates_of_eq_zero (hA : p.matrix.IsRational)
    (hb : ∀ r < p.numRows, (p.boundsOf r).IsProper) {d : Direction}
    (h : (ofColumn p c).inDirection d = 0) {r : ℕ} (hr : r < p.numRows) :
    (p.boundsOf r).Tolerates ((p.matrix.row r).coefficient c * d.sign) := by
  by_cases hzero : (p.matrix.row r).coefficient c = 0
  · rw [hzero, zero_mul]
    exact ⟨.inr le_rfl, .inr le_rfl⟩
  · obtain ⟨a, ha⟩ := Matrix.exists_mem_column hzero
    have hcount : (p.matrix.column c).countP
        (fun e => LockCount.locks d e.2 (p.boundsOf e.1)) = 0 := by
      rw [inDirection_ofColumn] at h
      unfold lockLimit at h
      omega
    have hfree := List.countP_eq_zero.1 hcount (r, a) ha
    rw [(hA.eq_coefficient ha).1] at hfree
    exact (LockCount.locks_eq_false_iff (hb r hr) hzero d).1 (by simpa using hfree)

/-- The locks of a column are the rows that block it. -/
theorem countP_locks_eq (hp : p.HasIntervals) (c : ℕ) (d : Direction) :
    (p.matrix.column c).countP (fun e => LockCount.locks d e.2 (p.boundsOf e.1)) =
      {r | r < p.numRows ∧ p.Blocks d c r}.ncard := by
  refine Line.countP_eq_ncard (p.matrix.increasing_column c) (fun e he => ?_) fun r hr =>
    Matrix.exists_mem_column hr.2.1
  have hr : e.1 < p.numRows := (Matrix.lt_of_mem_column he).trans_eq p.numRows_matrix
  obtain ⟨ha, hne⟩ := hp.isRational.eq_coefficient he
  have hlocks := LockCount.locks_eq_false_iff (hp.isProper _ hr) hne d
  rw [← ha] at hlocks
  rw [Problem.Blocks, RowBounds.isLeft_iff (hp.isProper _ hr) (hp.ordered _ hr), ← hlocks,
    Bool.not_eq_false]
  exact ⟨fun h => ⟨hr, hne, h⟩, fun h => h.2.2⟩

theorem countP_equal_eq (hp : p.HasIntervals) (c : ℕ) :
    (p.matrix.column c).countP (fun e => (p.boundsOf e.1).lower == (p.boundsOf e.1).upper) =
      {r | r < p.numRows ∧ p.Fixes c r}.ncard := by
  refine Line.countP_eq_ncard (p.matrix.increasing_column c) (fun e he => ?_) fun r hr =>
    Matrix.exists_mem_column hr.2.1
  have hr : e.1 < p.numRows := (Matrix.lt_of_mem_column he).trans_eq p.numRows_matrix
  rw [← RowBounds.existsUnique_admits_iff (hp.isProper _ hr) (hp.ordered _ hr)]
  exact ⟨fun h => ⟨hr, (hp.isRational.eq_coefficient he).2, h⟩, fun h => h.2.2⟩

/-- The locks of each column count the rows that block it. -/
theorem countBlockingRows (hp : p.HasIntervals) (hc : c < p.numCols) :
    CountsBlockingRows p c ((byColumn p).get c) where
  inDirection d := by
    rw [get_byColumn hc, inDirection_ofColumn, countP_locks_eq hp]
  equal := by
    rw [get_byColumn hc, equal_ofColumn, countP_equal_eq hp]
  free d hzero v hv t ht r hr := by
    rw [get_byColumn hc] at hzero
    have htolerates := tolerates_of_eq_zero hp.isRational hp.isProper hzero hr
    rw [Line.valueAt_update (p.matrix.increasing_row r), ← mul_assoc]
    exact htolerates.admits (hv r hr) ht

/-- A row with an upper bound, one with a lower bound and an equation. -/
def threeSenses : Problem Exact where
  columns := #[⟨1, 0, 1, true, 0⟩, ⟨1, 0, .finite 3, true, 0⟩]
  rowBounds := #[⟨infinite true, .finite 3⟩, ⟨.finite (-1), infinite false⟩, ⟨.finite 2, .finite 2⟩]
  matrix := .ofEntries 3 2
    [⟨0, 0, 1⟩, ⟨0, 1, 1⟩, ⟨1, 0, 1⟩, ⟨1, 1, .finite (-1)⟩, ⟨2, 0, 1⟩, ⟨2, 1, 1⟩]
  sosSets := []
  numCols_matrix := rfl
  numRows_matrix := by simp

theorem countBlockingRows_threeSenses : threeSenses.HasIntervals ∧ 1 < threeSenses.numCols ∧
    (byColumn threeSenses).get 1 = ⟨1, 3, 1⟩ ∧
      CountsBlockingRows threeSenses 1 ((byColumn threeSenses).get 1) := by
  have hp : threeSenses.HasIntervals := by
    constructor
    · unfold Matrix.IsRational
      decide +kernel
    · unfold RowBounds.IsProper
      decide +kernel
    · decide +kernel
  have hc : 1 < threeSenses.numCols := by decide
  exact ⟨hp, hc, by decide +kernel, countBlockingRows hp hc⟩

end Locks

end PrimalHeuristics
