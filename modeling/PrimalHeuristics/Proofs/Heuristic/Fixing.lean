import Mathlib.Tactic
import PrimalHeuristics.Proofs.Heuristic.Totality
import PrimalHeuristics.Proofs.Search.IntegerNodes

/-!
# Fixing columns

Partial fixing starts from a vector that is brought between the bounds of the node, and replaces its
entries in the fix set by whole numbers. If the bounds leave every column a choice, and every
integer column a whole one, this goes through, unless an entry is not integral to begin with.

* `Box.IsProper`: such bounds;
* `PartialFix.IsFixing`: the vectors that fixing may end with;
* `PartialFix.fixColumns_cases`: the columns of a list, one after another;
* `PartialFix.values_cases`: there is such a vector, or some entry was not integral;
* `Box.IsProper.emptyIntegerDomain_eq`: no integer column is left without a value.
-/

namespace PrimalHeuristics

open Exact

/-! ### Bounds -/

/-- The value lies between the bounds of a column. -/
def Box.Holds (b : Box Exact) (c : Nat) (v : Exact) : Prop :=
  b.lower.getD c 0 ≤ v ∧ v ≤ b.upper.getD c 0

/-- Every column has bounds that are in order and are numbers, and those of integer columns are whole
ones. -/
structure Box.IsProper (b : Box Exact) (p : Problem Exact) : Prop where
  hasSize : b.HasSize p.numCols
  isBound : ∀ c < p.numCols,
    Scalar.isBound (b.lower.getD c 0) = true ∧ Scalar.isBound (b.upper.getD c 0) = true
  le : ∀ c < p.numCols, b.lower.getD c 0 ≤ b.upper.getD c 0
  whole : ∀ c < p.numCols, p.isInteger c = true →
    ∃ l u : ℤ, b.lower.getD c 0 = finite l ∧ b.upper.getD c 0 = finite u

variable {p : Problem Exact} {b : Box Exact} {n : Node Exact}

theorem Box.IsProper.exists_finite (hb : b.IsProper p) {c : Nat} (hc : c < p.numCols) :
    ∃ l u : ℚ, b.lower.getD c 0 = finite l ∧ b.upper.getD c 0 = finite u ∧ l ≤ u := by
  obtain ⟨hl, hu⟩ := hb.isBound c hc
  obtain ⟨l, hl, -⟩ := isBound_iff.1 hl
  obtain ⟨u, hu, -⟩ := isBound_iff.1 hu
  have hle := hb.le c hc
  rw [hl, hu, finite_le] at hle
  exact ⟨l, u, hl, hu, hle⟩

/-- A value between the bounds of a column is a rational number. -/
theorem Box.IsProper.eq_finite (hb : b.IsProper p) {c : Nat} (hc : c < p.numCols) {v : Exact}
    (hv : b.Holds c v) : v = finite v.toRat := by
  obtain ⟨l, u, hl, hu, -⟩ := hb.exists_finite hc
  obtain ⟨hlv, hvu⟩ := hv
  rw [hl] at hlv
  rw [hu] at hvu
  exact eq_finite_of_between hlv hvu

theorem Box.IsProper.exists_whole (hb : b.IsProper p) {c : Nat} (hc : c < p.numCols)
    (hi : p.isInteger c = true) :
    ∃ l u : ℤ, b.lower.getD c 0 = finite l ∧ b.upper.getD c 0 = finite u ∧ l ≤ u := by
  obtain ⟨l, u, hl, hu⟩ := hb.whole c hc hi
  have hle := hb.le c hc
  rw [hl, hu, finite_le] at hle
  exact ⟨l, u, hl, hu, by exact_mod_cast hle⟩

/-- The value is within the bounds of its column, tolerances included. -/
theorem Box.Holds.isWithin {c : Nat} {v : ℚ} (h : b.Holds c (finite v)) {integer : Bool}
    (hi : integer = true → ∃ z : ℤ, v = z) :
    IsWithin integer (finite v) (b.lower.getD c 0) (b.upper.getD c 0) := by
  obtain ⟨hl, hu⟩ := h
  refine ⟨sub_finite_le_finite (by norm_num) hl, ?_, fun hinteger => ?_⟩
  · have hwide : b.upper.getD c 0 ≤ b.upper.getD c 0 + Scalar.feasTol := by
      generalize b.upper.getD c 0 = u at hu ⊢
      rcases u with q | (_ | _) | _ <;> simp_all [feasTol_eq]
    exact Exact.le_trans hu hwide
  · obtain ⟨z, rfl⟩ := hi hinteger
    exact isIntegral_intCast z

/-! ### The nearest point of an interval -/

/-- The nearest point of an interval that is not empty lies in it, and is the point itself or an end
of the interval. -/
theorem clamp_finite (v : ℚ) {l u : ℚ} (h : l ≤ u) :
    ∃ w, Scalar.clamp (finite v) (finite l) (finite u) = .ok (finite w) ∧ l ≤ w ∧ w ≤ u ∧
      (w = v ∨ w = l ∨ w = u) := by
  unfold Scalar.clamp
  rw [if_pos ((finite_le l u).2 h)]
  dsimp only
  simp only [finite_lt]
  by_cases hlow : v < l
  · rw [if_pos hlow, if_neg (by simpa using h)]
    exact ⟨l, rfl, le_rfl, h, .inr (.inl rfl)⟩
  · rw [if_neg hlow]
    by_cases hhigh : u < v
    · rw [if_pos ((finite_lt u v).2 hhigh)]
      exact ⟨u, rfl, h, le_rfl, .inr (.inr rfl)⟩
    · rw [if_neg (mt (finite_lt u v).1 hhigh)]
      exact ⟨v, rfl, not_lt.1 hlow, not_lt.1 hhigh, .inl rfl⟩

/-- The vector lies between the bounds of all columns. -/
def Box.HoldsAll (b : Box Exact) (n : Nat) (x : Array Exact) : Prop :=
  x.size = n ∧ ∀ c < n, b.Holds c (x.getD c 0)

/-- A vector of rational numbers can be brought between proper bounds. -/
theorem Box.IsProper.nearest_eq (hb : b.IsProper p) {x : Array Exact} (hx : x.size = p.numCols)
    (hfinite : ∀ c < p.numCols, Scalar.isFinite (x.getD c 0) = true) :
    ∃ y, b.nearest p.numCols x = .ok y ∧ b.HoldsAll p.numCols y := by
  obtain ⟨y, hy, hsize, hclamp⟩ := Box.exists_nearest_eq hx hb.hasSize hb.le
  refine ⟨y, hy, hsize, fun c hc => ?_⟩
  obtain ⟨l, u, hl, hu, hle⟩ := hb.exists_finite hc
  obtain ⟨w, hw, hlw, hwu, -⟩ := clamp_finite (x.getD c 0).toRat hle
  have hclamp := hclamp c hc
  rw [isFinite_iff.1 (hfinite c hc), hl, hu, hw] at hclamp
  unfold Box.Holds
  rw [← Except.ok.inj hclamp, hl, hu, finite_le, finite_le]
  exact ⟨hlw, hwu⟩

/-! ### Integer columns -/

/-- If all integer columns are left a value, there is none without. -/
theorem Problem.emptyIntegerDomain_eq_none {α : Type} [Scalar α] {p : Problem α} {b : Box α}
    (hb : b.HasSize p.numCols)
    (h : ∀ c < p.numCols, p.isInteger c = true →
      ¬ Scalar.floor (b.upper.getD c 0) + Scalar.intTol < Scalar.ceil (b.lower.getD c 0)) :
    p.emptyIntegerDomain b.lower b.upper = .ok none := by
  have hopen : ∀ c ∈ p.integerColumns, (do
      let l ← Checked.read b.lower c
      let u ← Checked.read b.upper c
      return decide (Scalar.floor u + Scalar.intTol < Scalar.ceil l)) = .ok false := by
    intro c hc
    obtain ⟨hc, hi⟩ := Problem.mem_integerColumns.1 hc
    rw [Checked.read_eq_getD (hb.1 ▸ hc) 0, Checked.read_eq_getD (hb.2 ▸ hc) 0]
    simp only [Checked.ok_bind, Checked.pure_eq, decide_eq_false (h c hc hi)]
  unfold Problem.emptyIntegerDomain
  rw [Checked.findM?_eq hopen, List.find?_eq_none.2 fun c _ => Bool.false_ne_true]

/-- Proper bounds leave every integer column a value. -/
theorem Box.IsProper.emptyIntegerDomain_eq (hb : b.IsProper p) :
    p.emptyIntegerDomain b.lower b.upper = .ok none := by
  apply Problem.emptyIntegerDomain_eq_none hb.hasSize
  intro c hc hi
  obtain ⟨lo, up, hl, hu, hle⟩ := hb.exists_whole hc hi
  rw [hl, hu, floor_finite, ceil_finite, intTol_eq, finite_add, finite_lt, Int.floor_intCast,
    Int.ceil_intCast]
  have hle : (lo : ℚ) ≤ up := by exact_mod_cast hle
  have htol : (0 : ℚ) < 1 / 10 ^ 5 := by norm_num
  linarith

/-! ### The fix set -/

namespace PartialFix

/-- The vector lies between the bounds, and is whole in the columns of a list. -/
structure IsFixing (p : Problem Exact) (b : Box Exact) (l : List Nat) (x : Array Exact) :
    Prop where
  holds : b.HoldsAll p.numCols x
  whole : ∀ c ∈ l, ∃ z : ℤ, x.getD c 0 = finite z

/-- Columns that are fixed one after another: some entry is not integral, or all of them are whole,
and the others are as they were. -/
theorem fixColumns_cases (hb : b.IsProper p) {x : Array Exact} (hx : x.size = p.numCols)
    (hfinite : ∀ c < p.numCols, Scalar.isFinite (x.getD c 0) = true) (l : List Nat)
    (hl : ∀ c ∈ l, c < p.numCols ∧ p.isInteger c = true) (done : List Nat) {y : Array Exact}
    (hy : IsFixing p b done y) :
    fixColumns b x l y = .ok none ∨
      ∃ z, fixColumns b x l y = .ok (some z) ∧ IsFixing p b (done ++ l) z := by
  -- the columns in `done` stay whole, for an entry that is replaced again becomes whole again
  induction l generalizing done y with
  | nil => exact .inr ⟨y, rfl, by rwa [List.append_nil]⟩
  | cons c l ih =>
    obtain ⟨hc, hi⟩ := hl c List.mem_cons_self
    obtain ⟨lo, up, hlo, hup, hle⟩ := hb.exists_whole hc hi
    obtain ⟨q, hq⟩ : ∃ q, x.getD c 0 = finite q := ⟨_, isFinite_iff.1 (hfinite c hc)⟩
    unfold fixColumns
    rw [Checked.read_eq_getD (hx ▸ hc) 0, Checked.read_eq_getD (hb.hasSize.1 ▸ hc) 0,
      Checked.read_eq_getD (hb.hasSize.2 ▸ hc) 0, hq, hlo, hup]
    simp only [Checked.ok_bind]
    split
    · exact .inl rfl
    · -- the rounded entry and both bounds are whole, so the nearest point is
      obtain ⟨w, hw, hlw, hwu, hcases⟩ :=
        clamp_finite (Exact.nearest q : ℚ) (show (lo : ℚ) ≤ up by exact_mod_cast hle)
      obtain ⟨z, rfl⟩ : ∃ z : ℤ, w = z := by
        rcases hcases with h | h | h <;> exact ⟨_, h⟩
      rw [round_finite, ceil_finite, floor_finite, Int.ceil_intCast, Int.floor_intCast, hw,
        Checked.ok_bind, List.append_cons]
      refine ih (fun d hd => hl d (List.mem_cons_of_mem c hd)) (done ++ [c]) ?_
      obtain ⟨⟨hsize, hholds⟩, hwhole⟩ := hy
      have hget (d : Nat) : (y.setIfInBounds c (finite z)).getD d 0 =
          if c = d then finite z else y.getD d 0 := getD_setIfInBounds (hsize ▸ hc)
      refine ⟨⟨by simpa using hsize, fun d hd => ?_⟩, fun d hd => ?_⟩
      · rw [hget]
        by_cases heq : c = d
        · subst heq
          rw [if_pos rfl]
          unfold Box.Holds
          rw [hlo, hup, finite_le, finite_le]
          exact ⟨hlw, hwu⟩
        · rw [if_neg heq]
          exact hholds d hd
      · rw [hget]
        by_cases heq : c = d
        · rw [if_pos heq]
          exact ⟨z, rfl⟩
        · rw [if_neg heq]
          rcases List.mem_append.1 hd with hd | hd
          · exact hwhole d hd
          · exact absurd (List.mem_singleton.1 hd).symm heq

/-- The columns of the fix set of a problem are integer columns of it. -/
theorem mem_fixSet {f : PartialFix} (hf : f = f.derive p) {c : Nat} (hc : c ∈ f.fixSet) :
    c < p.numCols ∧ p.isInteger c = true := by
  rw [hf] at hc
  exact Problem.mem_integerColumns.1 (mem_fixSetOf hc)

/-- All columns are fixed, unless an entry is not integral. -/
theorem values_cases {f : PartialFix} (hf : f = f.derive p) (hb : n.box.IsProper p)
    (hsize : (source p n).size = p.numCols)
    (hfinite : ∀ c < p.numCols, Scalar.isFinite ((source p n).getD c 0) = true) :
    f.values p n = .ok none ∨
      ∃ x, f.values p n = .ok (some x) ∧ IsFixing p n.box f.fixSet x := by
  obtain ⟨y, hy, hholds⟩ := hb.nearest_eq hsize hfinite
  have hcases := fixColumns_cases hb hsize hfinite f.fixSet (fun c hc => mem_fixSet hf hc) []
    ⟨hholds, nofun⟩
  unfold values
  rw [hy, Checked.ok_bind]
  exact hcases

end PartialFix

end PrimalHeuristics
