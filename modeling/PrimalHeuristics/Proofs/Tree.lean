import PrimalHeuristics.Proofs.Binary64.Sums
import PrimalHeuristics.Proofs.Feasibility
import PrimalHeuristics.Tree.Node

/-!
# The bounds of nodes

Going down the search tree only ever tightens bounds. So the bounds of a node lie within those of
the problem, and what is feasible at a node is feasible for the problem, rounding included.

* `Node.OfTree`: the nodes of the search tree of a problem;
* `Box.LiesIn`: bounds within those of the problem, which every decision keeps;
* `Node.OfTree.liesIn`: the bounds of every node;
* `Box.LiesIn.isFeasible`: feasible at a node, so feasible for the problem.
-/

namespace PrimalHeuristics

/-- The nodes of the search tree: the root, and what decisions make of a node. The solutions that a
node carries along may come from anywhere. -/
inductive Node.OfTree {α : Type} [Scalar α] (p : Problem α) : Node α → Prop
  | root (solution : Array α) (objective : α) : OfTree p (.root p solution objective)
  | child {n k : Node α} {d : Decision α} {solution : Array α} {objective : α} (h : OfTree p n)
    (hk : n.child d solution objective = .ok k) : OfTree p k
  | supply {n : Node α} (h : OfTree p n) (solverSolution : Option (α × Array α))
    (hotstart : Option (Array α)) : OfTree p { n with solverSolution, hotstart }

/-- All bounds of the columns are numbers. -/
def Problem.HasNumberBounds (p : Problem Binary64) : Prop :=
  ∀ c < p.numCols, (p.lower.getD c 0).isNaN = false ∧ (p.upper.getD c 0).isNaN = false

/-- The bounds have one entry for each column, and lie within those of the problem. -/
structure Box.LiesIn (b : Box Binary64) (p : Problem Binary64) : Prop where
  hasSize : b.HasSize p.numCols
  le_lower : ∀ c < p.numCols, p.lower.getD c 0 ≤ b.lower.getD c 0
  upper_le : ∀ c < p.numCols, b.upper.getD c 0 ≤ p.upper.getD c 0

/-! ### Decisions -/

namespace Binary64

variable {x : Binary64}

/-- The smaller of a number and any value is not above the number. -/
theorem min_le (hx : x.isNaN = false) (y : Binary64) : Scalar.min x y ≤ x := by
  unfold Scalar.min
  split
  · exact Binary64.le_refl hx
  · rename_i hy
    split
    · exact Binary64.le_refl hx
    · rename_i hlt
      exact le_of_not_lt hx (Bool.eq_false_iff.2 hy) hlt

/-- The larger of a number and any value is not below the number. -/
theorem le_max (hx : x.isNaN = false) (y : Binary64) : x ≤ Scalar.max x y := by
  unfold Scalar.max
  split
  · exact Binary64.le_refl hx
  · rename_i hy
    split
    · exact Binary64.le_refl hx
    · rename_i hlt
      exact le_of_not_lt (Bool.eq_false_iff.2 hy) hx hlt

end Binary64

variable {p : Problem Binary64} {b c : Box Binary64}

theorem Box.liesIn_root (hp : p.HasNumberBounds) : Box.LiesIn ⟨p.lower, p.upper⟩ p where
  hasSize := ⟨p.size_lower, p.size_upper⟩
  le_lower c hc := Binary64.le_refl (hp c hc).1
  upper_le c hc := Binary64.le_refl (hp c hc).2

/-- A decision keeps the bounds within those of the problem. -/
theorem Box.LiesIn.restrict (h : b.LiesIn p) {d : Decision Binary64}
    (hd : Node.restrictBox b d = .ok c) : c.LiesIn p := by
  obtain ⟨⟨hl, hu⟩, hlower, hupper⟩ := h
  have hread {x : Array Binary64} {v : Binary64} (hv : Checked.read x d.column = .ok v) :
      d.column < x.size ∧ v = x.getD d.column 0 := by
    by_cases hlt : d.column < x.size
    · rw [Checked.read_eq_getD hlt 0] at hv
      cases hv
      exact ⟨hlt, rfl⟩
    · rw [Checked.read_of_le (by omega)] at hv
      cases hv
  unfold Node.restrictBox at hd
  cases hway : d.direction with
  | down =>
    rw [hway] at hd
    obtain ⟨u, hv, hd⟩ := Checked.bind_eq_ok.1 hd
    obtain ⟨hlt, rfl⟩ := hread hv
    cases hd
    refine ⟨⟨hl, by simpa using hu⟩, hlower, fun c hc => ?_⟩
    show (b.upper.setIfInBounds d.column (Scalar.min (b.upper.getD d.column 0) d.bound)).getD c 0 ≤
      p.upper.getD c 0
    rw [getD_setIfInBounds hlt]
    by_cases heq : d.column = c
    · subst heq
      rw [if_pos rfl]
      have hle := hupper d.column hc
      have hnumber := (Binary64.isNaN_of_le hle).1
      have hmin := Binary64.min_le hnumber d.bound
      exact Binary64.le_trans hmin hle
    · rw [if_neg heq]
      exact hupper c hc
  | up =>
    rw [hway] at hd
    obtain ⟨l, hv, hd⟩ := Checked.bind_eq_ok.1 hd
    obtain ⟨hlt, rfl⟩ := hread hv
    cases hd
    refine ⟨⟨by simpa using hl, hu⟩, fun c hc => ?_, hupper⟩
    show p.lower.getD c 0 ≤
      (b.lower.setIfInBounds d.column (Scalar.max (b.lower.getD d.column 0) d.bound)).getD c 0
    rw [getD_setIfInBounds hlt]
    by_cases heq : d.column = c
    · subst heq
      rw [if_pos rfl]
      have hle := hlower d.column hc
      have hnumber := (Binary64.isNaN_of_le hle).2
      have hmax := Binary64.le_max hnumber d.bound
      exact Binary64.le_trans hle hmax
    · rw [if_neg heq]
      exact hlower c hc

/-- The bounds of every node lie within those of the problem. -/
theorem Node.OfTree.liesIn (hp : p.HasNumberBounds) {n : Node Binary64} (h : Node.OfTree p n) :
    n.box.LiesIn p := by
  induction h with
  | root => exact Box.liesIn_root hp
  | child _ hk ih =>
    obtain ⟨b, hb, hk⟩ := Checked.bind_eq_ok.1 hk
    cases hk
    exact ih.restrict hb
  | supply _ _ _ ih => exact ih

/-! ### Feasible vectors -/

/-- What is within bounds is within wider ones; a rounded tolerance makes no difference. -/
theorem IsWithin.mono {integer : Bool} {v l u l' u' : Binary64} (h : IsWithin integer v l u)
    (hl : l' ≤ l) (hu : u ≤ u') : IsWithin integer v l' u' := by
  obtain ⟨hlower, hupper, hintegral⟩ := h
  obtain ⟨hfinite, hneg⟩ := Binary64.feasTol_isFinite
  exact ⟨Binary64.le_trans (Binary64.sub_le_sub_right hl hfinite hneg) hlower,
    Binary64.le_trans hupper (Binary64.add_le_add_right hu hfinite), hintegral⟩

theorem Problem.size_of_isFeasible {α : Type} [Scalar α] {p : Problem α} {x l u : Array α}
    (h : p.isFeasible x l u = .ok true) : x.size = p.numCols := by
  unfold isFeasible at h
  by_contra hne
  rw [if_pos hne] at h
  cases h

/-- A vector that is feasible at a node is feasible for the problem. -/
theorem Box.LiesIn.isFeasible (hb : b.LiesIn p) {x : Array Binary64}
    (h : p.isFeasible x b.lower b.upper = .ok true) :
    p.isFeasible x p.lower p.upper = .ok true := by
  have hx := Problem.size_of_isFeasible h
  have hroot : Box.HasSize ⟨p.lower, p.upper⟩ p.numCols := ⟨p.size_lower, p.size_upper⟩
  rw [Problem.isFeasible_eq hx hb.hasSize, Except.ok.injEq, decide_eq_true_iff] at h
  have hglobal := Problem.isFeasible_eq hx hroot
  dsimp only at hglobal
  rw [hglobal, Except.ok.injEq, decide_eq_true_iff]
  exact ⟨fun c hc => (h.1 c hc).mono (hb.le_lower c hc) (hb.upper_le c hc), h.2⟩

end PrimalHeuristics
