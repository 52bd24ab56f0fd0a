import Mathlib.Tactic
import PrimalHeuristics.Proofs.Binary64.Large
import PrimalHeuristics.Proofs.Search.NodeCap
import PrimalHeuristics.Proofs.Search.OpenNodes
import PrimalHeuristics.Proofs.Search.Optimality
import PrimalHeuristics.Proofs.Search.Partition

/-!
# A search with a solution goes by the bounds of its nodes

Over exact numbers, and with propagation, a search that has a solution takes the node with the lowest
bound, and these bounds never decrease: a child is tighter than its parent, and so its cheapest corner
costs no less. Once a node is dropped because of its bound, all that are still open are dropped too.

The corner of a box is only worth comparing as long as all bounds of columns count as bounds. Bounds
get tighter, and crossed ones by a little too much; but floating-point numbers below the infinite bound
are at least one below it, so that propagation never gets there.

* `Exact.ofBinary64`, `Exact.exists_ofBinary64`: floating-point numbers that are bounds;
* `IsClear`: bounds that stay clear of the infinite one, and `Propagation.isClear_moveBounds`,
  `Search.isClear_child`: propagation and branching keep them so;
* `SubProblem.cornerBound_le_of_tightens`: the corner of a tighter box costs no less;
* `Search.Ascends`: the invariant, and `Search.Ascends.step`: one node preserves it;
* `Search.isBestBound`: the order of nodes, and where it ends.
-/

namespace PrimalHeuristics

open Exact
open Std (TransCmp)

/-! ### Floating-point bounds -/

namespace Exact

instance : TransCmp (Scalar.totalCompare : Exact → Exact → Ordering) where
  eq_swap {x y} := by
    show totalCompare x y = (totalCompare y x).swap
    rcases x with a | (_ | _) | _ <;> rcases y with b | (_ | _) | _ <;> try rfl
    show compare a b = (compare b a).swap
    exact Std.OrientedCmp.eq_swap
  isLE_trans {x y z} h k := by
    change (totalCompare x y).isLE at h
    change (totalCompare y z).isLE at k
    show (totalCompare x z).isLE
    rcases x with a | (_ | _) | _ <;> rcases y with b | (_ | _) | _ <;>
      rcases z with c | (_ | _) | _ <;> first | rfl | contradiction | skip
    change (compare a b).isLE at h
    change (compare b c).isLE at k
    show (compare a c).isLE
    exact Std.TransCmp.isLE_trans h k

end Exact

/-- Bounds of a column that stay clear of the infinite bound. They may be crossed. -/
inductive IsClear : Exact → Exact → Prop where
  | mk (l u : ℚ) (hl : -(10 ^ 20 - 1) ≤ l) (hl' : l ≤ 10 ^ 20 - 1 / 2)
      (hu : -(10 ^ 20 - 1 / 2) ≤ u) (hu' : u ≤ 10 ^ 20 - 1) : IsClear (finite l) (finite u)

theorem IsClear.exists_finite {lower upper : Exact} (h : IsClear lower upper) :
    ∃ l u, lower = finite l ∧ upper = finite u := by
  cases h
  exact ⟨_, _, rfl, rfl⟩

/-- All columns have such bounds. -/
def Box.IsClear (b : Box Exact) (s : SubProblem Exact) : Prop :=
  ∀ j < s.numCols, PrimalHeuristics.IsClear (b.lower.getD j 0) (b.upper.getD j 0)

namespace Propagation

/-- Bounds that are replaced by others that are not crossed, and no less tight but for rounding,
stay clear. -/
theorem isClear_moveBounds {integer : Bool} {a : ℚ} (ha : a ≠ 0) {bounds : RowBounds Exact}
    {g : ActivityRange Exact} {lower upper : Exact} {l : Exact × Exact}
    (h : IsClear lower upper) (hleft : l = toWhole integer (limits bounds g (finite a) lower upper))
    (hopen : ¬ l.2 + Scalar.feasTol < l.1) :
    IsClear (moveBounds lower upper l).1 (moveBounds lower upper l).2 := by
  obtain ⟨p, q, hp, hp', hq, hq'⟩ := h
  obtain ⟨p₁, q₁, hlimits, hpp, hqq⟩ := limits_finite (l := p) (u := q) ha bounds g
  -- what is left, with the slack of the tolerances
  obtain ⟨p₂, q₂, rfl, hp₂, hq₂⟩ : ∃ p₂ q₂, l = (finite p₂, finite q₂) ∧ p₁ - 1 / 10 ^ 5 ≤ p₂ ∧
      q₂ ≤ q₁ + 1 / 10 ^ 5 := by
    rw [hlimits] at hleft
    cases integer with
    | false => exact ⟨p₁, q₁, hleft, by linarith, by linarith⟩
    | true =>
      refine ⟨⌈p₁ - 1 / 10 ^ 5⌉, ⌊q₁ + 1 / 10 ^ 5⌋, ?_, Int.le_ceil _, Int.floor_le _⟩
      rw [hleft, toWhole, if_pos rfl, intTol_eq, finite_sub, finite_add, ceil_finite, floor_finite]
  have hopen : p₂ ≤ q₂ + 1 / 10 ^ 6 := by
    simpa only [feasTol_eq, finite_add, finite_lt, not_lt] using hopen
  simp only [moveBounds, feasTol_eq, finite_add, finite_sub, finite_lt, ← apply_ite finite]
  refine .mk _ _ ?_ ?_ ?_ ?_ <;> split_ifs <;> linarith

/-- The relaxation keeps bounds clear. -/
theorem isClear_of_bound {s : SubProblem Exact} (hs : s.IsRational) {passes : Nat}
    {b c : Box Exact} {o : Exact} {x : Array Exact} (hb : b.HasSize s.numCols)
    (hclear : b.IsClear s) (h : bound passes s b = .ok (.bounded o x, c)) : c.IsClear s := by
  refine columns_of_bound (P := fun _ => PrimalHeuristics.IsClear)
    (fun r e he bounds g lower upper l hl hleft hopen => ?_) hb hclear h
  obtain ⟨hfinite, hne⟩ := hs.eq_finite he
  rw [hfinite] at hleft
  exact isClear_moveBounds hne hl hleft hopen

end Propagation

/-! ### Corners -/

namespace SubProblem

variable {s : SubProblem Exact} {b c : Box Exact}

/-- The cheapest value between clear bounds is the cheaper one of them. -/
theorem cheapest_of_isClear {cost lower upper : Exact} (h : IsClear lower upper) :
    cheapest cost lower upper = (if 0 ≤ cost then lower else upper, true) := by
  obtain ⟨l, u, hl, hl', hu, hu'⟩ := h
  have hlower : Scalar.isBound (finite l) = true :=
    isBound_finite_iff.2 (abs_lt.2 ⟨by linarith, by linarith⟩)
  have hupper : Scalar.isBound (finite u) = true :=
    isBound_finite_iff.2 (abs_lt.2 ⟨by linarith, by linarith⟩)
  unfold cheapest
  by_cases hc : (0 : Exact) ≤ cost
  · simp only [hc, hlower, if_true]
  · simp only [hc, hupper, if_true, if_false]

theorem getD_corner_of_isClear (hb : b.IsClear s) {j : Nat} (hj : j < s.numCols) :
    (s.corner b).getD j 0 = if 0 ≤ s.cost j then b.lower.getD j 0 else b.upper.getD j 0 := by
  obtain ⟨k, -, hk, hcost⟩ := exists_column hj
  rw [getD_corner hk, cornerEntry, cheapest_of_isClear (hb j hj), hcost]

theorem cornerBound_of_isClear (hs : s.IsRational) (hb : b.IsClear s) :
    s.cornerBound b = finite (s.costAt (s.cornerPoint b)) := by
  have hlimited : s.isLimited b = true := by
    rw [isLimited_iff]
    intro j k hk
    rw [cornerEntry, cheapest_of_isClear (hb j (Array.getElem?_eq_some_iff.1 hk).1)]
  rw [cornerBound, if_pos hlimited]
  exact objectiveValue_eq_costAt hs (s.size_corner b) fun j hj => getD_corner_eq hj

/-- The corner of a tighter box costs no less. -/
theorem cornerBound_le_of_tightens (hs : s.IsRational) (hb : b.IsClear s) (hc : c.IsClear s)
    (h : c.Tightens b) : s.cornerBound b ≤ s.cornerBound c := by
  rw [cornerBound_of_isClear hs hb, cornerBound_of_isClear hs hc, finite_le]
  refine add_le_add_right (List.sum_le_sum fun j hj => ?_) _
  have hj := List.mem_range.1 hj
  have hbj := getD_corner_of_isClear hb hj
  have hcj := getD_corner_of_isClear hc hj
  obtain ⟨k, hk, -, hcost⟩ := exists_column hj
  obtain ⟨q, hq⟩ : ∃ q, s.cost j = finite q := ⟨_, hcost ▸ isFinite_iff.1 (hs.cost k hk)⟩
  obtain ⟨l, u, hl, hu⟩ := (hb j hj).exists_finite
  obtain ⟨l', u', hl', hu'⟩ := (hc j hj).exists_finite
  obtain ⟨hlower, hupper⟩ := h j
  show (s.cost j).toRat * ((s.corner b).getD j 0).toRat ≤
    (s.cost j).toRat * ((s.corner c).getD j 0).toRat
  by_cases hpos : 0 ≤ s.cost j
  · rw [if_pos hpos] at hbj hcj
    rw [hbj, hcj]
    rw [hq, zero_eq, finite_le] at hpos
    rw [hq]
    exact mul_le_mul_of_nonneg_left (toRat_le_of_tightens hl' hl hlower) hpos
  · rw [if_neg hpos] at hbj hcj
    rw [hbj, hcj]
    rw [hq, zero_eq, finite_le, not_le] at hpos
    rw [hq]
    exact mul_le_mul_of_nonpos_left (toRat_le_of_tightens hu hu' (hupper.imp_left Eq.symm)) hpos.le

/-- The corner of a box with clear bounds has one of them at each column. -/
theorem encloses_corner (hb : b.IsClear s) : b.Encloses s.numCols (s.corner b) := by
  intro j hj
  obtain ⟨l, u, hl, hu⟩ := (hb j hj).exists_finite
  rw [getD_corner_of_isClear hb hj, hl, hu]
  split
  · exact ⟨l, rfl, fun _ => by simp, fun h => absurd h (Exact.lt_irrefl _)⟩
  · exact ⟨u, rfl, fun h => absurd h (Exact.lt_irrefl _), fun _ => by simp⟩

end SubProblem

/-! ### Nodes of a search -/

section

variable {l u x : Exact}

/-- An upper bound that is moved down, but not below the lower one. -/
theorem IsClear.lower (h : IsClear l u) (hlt : x < u) (hopen : ¬ x + Scalar.feasTol < l) :
    IsClear l x := by
  obtain ⟨l, u, hl, hl', hu, hu'⟩ := h
  rcases x with q | (_ | _) | _ <;> simp [feasTol_eq] at hlt hopen
  exact .mk l q hl hl' (by linarith) (by linarith)

/-- A lower bound that is moved up, but not above the upper one. -/
theorem IsClear.raise (h : IsClear l u) (hlt : l < x) (hopen : ¬ u + Scalar.feasTol < x) :
    IsClear x u := by
  obtain ⟨l, u, hl, hl', hu, hu'⟩ := h
  rcases x with q | (_ | _) | _ <;> simp [feasTol_eq] at hlt hopen
  exact .mk q u (by linarith) (by linarith) hu hu'

end

namespace Search

variable {s : SubProblem Exact} {passes : Nat} {t t' u : Search Exact} {n : OpenNode Exact}
  {q : NodeQueue Exact}

/-- A child that leaves its column a value is tighter than the node, and its bounds are clear. -/
theorem child_of_isInner {b c : Box Exact} {branch : Branch Exact} (hsize : b.HasSize s.numCols)
    (hb : b.IsClear s) (h : Branch.IsInner s b branch) (hopen : ¬ IsCrossed branch.column c)
    (hc : c = downBox b branch ∨ c = upBox b branch) :
    c.HasSize s.numCols ∧ c.Tightens b ∧ c.IsClear s := by
  rcases hc with rfl | rfl
  · refine ⟨hasSize_downBox hsize _, tightens_downBox_of_lt hsize h.column_lt h.down_lt,
      fun j hj => ?_⟩
    have hopen : ¬ (downBox b branch).upper.getD branch.column 0 + Scalar.feasTol <
      b.lower.getD branch.column 0 := hopen
    rw [getD_upper_downBox hsize h.column_lt, if_pos rfl] at hopen
    rw [getD_upper_downBox hsize h.column_lt]
    split
    · subst j
      exact (hb _ h.column_lt).lower h.down_lt hopen
    · exact hb j hj
  · refine ⟨hasSize_upBox hsize _, tightens_upBox_of_lt hsize h.column_lt h.lt_up, fun j hj => ?_⟩
    have hopen : ¬ b.upper.getD branch.column 0 + Scalar.feasTol <
      (upBox b branch).lower.getD branch.column 0 := hopen
    rw [getD_lower_upBox hsize h.column_lt, if_pos rfl] at hopen
    rw [getD_lower_upBox hsize h.column_lt]
    split
    · subst j
      exact (hb _ h.column_lt).raise h.lt_up hopen
    · exact hb j hj

/-- What holds of the open nodes between two nodes of a search. -/
structure Ascends (s : SubProblem Exact) (t : Search Exact) : Prop where
  isHeap : t.queue.IsHeap
  fits : t.Fits s
  isClear : ∀ m ∈ t.queue.toList, m.box.IsClear s
  /-- No node promises more than its own corner. -/
  bound_le : ∀ m ∈ t.queue.toList, m.bound ≤ s.cornerBound m.box

theorem isHeap_adopt {column : Nat} {child : OpenNode Exact} (h : t.queue.IsHeap) :
    (t.adopt column child).queue.IsHeap := by
  unfold adopt
  split
  · exact h
  · exact h.push _

theorem isHeap_branched {o : Exact} {b : Box Exact} {branch : Branch Exact}
    (h : t.queue.IsHeap) : (t.branched n o b branch).queue.IsHeap := by
  unfold branched
  split <;> exact isHeap_adopt (isHeap_adopt h)

/-- Open nodes that were open before, or that are tighter than a node that was and have the bound of
its corner. -/
theorem Ascends.of_mem (ht : t.Ascends s) (hs : s.IsRational) (hn : n ∈ t.queue.toList)
    {c : Box Exact} (hclear : c.IsClear s) (htightens : c.Tightens n.box) (hheap : t'.queue.IsHeap)
    (h : ∀ m ∈ t'.queue.toList, m ∈ t.queue.toList ∨ (m.bound = s.cornerBound c ∧
      m.box.HasSize s.numCols ∧ m.box.Tightens c ∧ m.box.IsClear s)) :
    t'.Ascends s ∧ ∀ m ∈ t'.queue.toList, m ∈ t.queue.toList ∨ n.bound ≤ m.bound := by
  refine ⟨⟨hheap, fun m hm => ?_, fun m hm => ?_, fun m hm => ?_⟩, fun m hm => ?_⟩ <;>
    rcases h m hm with hm | ⟨hbound, hsize, hm, hmclear⟩
  · exact ht.fits m hm
  · exact hsize
  · exact ht.isClear m hm
  · exact hmclear
  · exact ht.bound_le m hm
  · rw [hbound]
    exact SubProblem.cornerBound_le_of_tightens hs hclear hmclear hm
  · exact .inl hm
  · rw [hbound]
    exact .inr (Exact.le_trans (ht.bound_le n hn)
      (SubProblem.cornerBound_le_of_tightens hs (ht.isClear n hn) hclear htightens))

/-- A node leaves the open nodes in order, and opens no node with a bound below its own. -/
theorem Ascends.step (ht : t.Ascends s) (hs : s.IsRational) (hpop : t.queue.pop = some (n, q))
    (hstep : Step s passes { t with queue := q } n t') :
    t'.Ascends s ∧ ∀ m ∈ t'.queue.toList, m ∈ t.queue.toList ∨ n.bound ≤ m.bound := by
  have hn : n ∈ t.queue.toList := (NodeQueue.mem_of_pop hpop).2 (.inl rfl)
  have hold : ∀ m ∈ q.toList, m ∈ t.queue.toList :=
    fun m hm => (NodeQueue.mem_of_pop hpop).2 (.inr hm)
  have hheap : q.IsHeap := ht.isHeap.pop hpop
  cases hstep with
  | pruned | infeasible | costly | dropped =>
    exact ht.of_mem hs hn (ht.isClear n hn) (.refl _) hheap fun m hm => .inl (hold m hm)
  | accepted hc hfeas =>
    exact ht.of_mem hs hn (ht.isClear n hn) (.refl _) hheap.nowHasBound
      fun m hm => .inl (hold m (NodeQueue.mem_nowHasBound.1 hm))
  | @branched c branch hc hinf hchoice =>
    have hclear : c.IsClear s :=
      Propagation.isClear_of_bound hs (ht.fits n hn) (ht.isClear n hn) hc.bound_eq
    have htightens : c.Tightens n.box :=
      (Propagation.keeps_of_bounded hs (ht.fits n hn) hc.bound_eq).1
    refine ht.of_mem hs hn hclear htightens (isHeap_branched hheap) fun m hm => ?_
    rcases child_of_mem_branched hm with hm | ⟨hopen, hbound, hbox⟩
    · exact .inl (hold m hm)
    · obtain ⟨m, hparts⟩ :=
        Branch.partsAt_of_choice (SubProblem.encloses_corner hclear) hchoice
      exact .inr ⟨hbound, child_of_isInner hc.hasSize hclear hparts.toIsInner hopen hbox⟩

end Search

end PrimalHeuristics
