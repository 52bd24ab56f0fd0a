import Mathlib.Algebra.BigOperators.Pi
import Mathlib.Algebra.Order.BigOperators.Ring.Finset
import Mathlib.Data.Int.Interval
import PrimalHeuristics.Proofs.Search.NodeCap
import PrimalHeuristics.Proofs.Search.Optimality

/-!
# The size of the search tree

Over exact numbers, a search with propagation whose root is an integer box ends after less than twice
as many nodes as the root has integer points. A split shares the points of its node out between the
two children, each of which keeps at least one. So a node with `w` points can head a tree of `2 w - 1`
nodes, and no more: one for itself, and those of its children.

* `Box.wholePoints`: the integer points of a box over some columns;
* `SubProblem.quota`: the nodes that a box can account for, and `SubProblem.quota_split`: a split
  leaves its children less than the node had;
* `Search.Metered`: the invariant, and `Search.Metered.step`: one node preserves it;
* `Search.nodes_lt_twice_wholePoints`: the bound, and the cap that always lets a search finish.
-/

namespace PrimalHeuristics

open Exact

/-! ### Integer points -/

/-- The whole numbers between the bounds of a column. -/
noncomputable def Box.wholeRange (b : Box Exact) (j : ℕ) : Finset ℤ :=
  Finset.Icc ⌈(b.lower.getD j 0).toRat⌉ ⌊(b.upper.getD j 0).toRat⌋

namespace SubProblem

variable (s : SubProblem Exact)

/-- The integer columns. -/
def integerColumns : Finset ℕ :=
  (Finset.range s.numCols).filter fun j => s.isInteger j = true

/-- The integer columns whose lower bound is a whole number. Over an integer box the other ones are
pinned at a fraction. -/
def wholeColumns : Finset ℕ :=
  s.integerColumns.filter fun j =>
    (⌊(s.box.lower.getD j 0).toRat⌋ : ℚ) = (s.box.lower.getD j 0).toRat

/-- The integer points of a box, where a column without any counts as one. -/
noncomputable def weight (b : Box Exact) : ℕ :=
  ∏ j ∈ s.wholeColumns, max 1 (b.wholeRange j).card

/-- The number of nodes of a tree that splits the points of a box until each is alone. -/
noncomputable def quota (b : Box Exact) : ℕ :=
  2 * s.weight b - 1

variable {s} {b c : Box Exact}

theorem weight_pos (b : Box Exact) : 0 < s.weight b :=
  Finset.prod_pos fun _ _ => lt_of_lt_of_le one_pos (le_max_left ..)

theorem quota_pos (b : Box Exact) : 0 < s.quota b := by
  have := weight_pos (s := s) b
  unfold quota
  omega

/-- A tighter box has no more points. -/
theorem weight_le_of_tightens (hb : b.IsRegular s) (hc : c.IsRegular s) (h : c.Tightens b) :
    s.weight c ≤ s.weight b := by
  refine Finset.prod_le_prod' fun j hj => max_le_max le_rfl (Finset.card_le_card ?_)
  have hj : j < s.numCols :=
    Finset.mem_range.1 (Finset.mem_filter.1 (Finset.mem_filter.1 hj).1).1
  obtain ⟨l, u, hl, hu⟩ := (hb j hj).exists_finite
  obtain ⟨l', u', hl', hu'⟩ := (hc j hj).exists_finite
  obtain ⟨hlower, hupper⟩ := h j
  have hlower := toRat_le_of_tightens hl' hl hlower
  have hupper := toRat_le_of_tightens hu hu' (hupper.imp_left Eq.symm)
  exact Finset.Icc_subset_Icc (Int.ceil_mono hlower) (Int.floor_mono hupper)

/-- A column that is split is one of those that are counted. -/
theorem mem_wholeColumns_of_split (hbox : s.IsIntegerBox) (hb : b.Tightens s.box) {j : ℕ}
    (hj : j < s.numCols) (hi : s.isInteger j = true) {l u : ℤ} (hl : b.lower.getD j 0 = finite l)
    (hu : b.upper.getD j 0 = finite u) (hlu : l < u) : j ∈ s.wholeColumns := by
  obtain ⟨k, hk, hget, -⟩ := exists_column hj
  have hlower : s.box.lower.getD j 0 = k.lower := by simp [box, hget]
  have hupper : s.box.upper.getD j 0 = k.upper := by simp [box, hget]
  refine Finset.mem_filter.2 ⟨Finset.mem_filter.2 ⟨Finset.mem_range.2 hj, hi⟩, ?_⟩
  rcases hbox k hk with ⟨-, -, -, z, -, hz, -⟩ | ⟨heq, hbound⟩
  · rw [hlower, hz, toRat_finite, Int.floor_intCast]
  · -- a pinned column is left no choice by any tighter box
    obtain ⟨q, hq⟩ : ∃ q, k.lower = finite q := ⟨_, eq_finite_of_isBound hbound⟩
    obtain ⟨hbl, hbu⟩ := hb j
    have hql := toRat_le_of_tightens hl (hlower.trans hq) hbl
    have hqu := toRat_le_of_tightens (hupper.trans (heq.symm.trans hq)) hu
      (hbu.imp_left Eq.symm)
    rw [hlower, hl, hq, toRat_finite, toRat_finite] at hql
    rw [hupper, ← heq, hu, hq, toRat_finite, toRat_finite] at hqu
    exact absurd (Int.cast_le.1 (hqu.trans hql)) (not_le.2 hlu)

/-- The points that are left to the columns other than the one that is split. -/
theorem weight_eq_mul {j : ℕ} (hj : j ∈ s.wholeColumns) (b : Box Exact) :
    s.weight b = max 1 (b.wholeRange j).card *
      ∏ i ∈ s.wholeColumns.erase j, max 1 (b.wholeRange i).card :=
  (Finset.mul_prod_erase _ _ hj).symm

theorem wholeRange_eq {j : ℕ} {l u : ℤ} (hl : b.lower.getD j 0 = finite l)
    (hu : b.upper.getD j 0 = finite u) : b.wholeRange j = Finset.Icc l u := by
  rw [Box.wholeRange, hl, hu, toRat_finite, toRat_finite, Int.ceil_intCast, Int.floor_intCast]

section Split

open Search

variable {branch : Branch Exact} {l m u : ℤ} (h : Branch.IsWholeSplit s b branch l m u)
  (hb : b.HasSize s.numCols)

include h hb

theorem wholeRange_downBox (i : ℕ) : (downBox b branch).wholeRange i =
    if branch.column = i then Finset.Icc l m else b.wholeRange i := by
  have hupper := getD_upper_downBox hb h.column_lt i
  split
  · subst i
    rw [if_pos rfl, h.down_eq] at hupper
    exact wholeRange_eq h.lower_eq hupper
  · rw [if_neg ‹_›] at hupper
    unfold Box.wholeRange
    rw [hupper]
    rfl

theorem wholeRange_upBox (i : ℕ) : (upBox b branch).wholeRange i =
    if branch.column = i then Finset.Icc (m + 1) u else b.wholeRange i := by
  have hlower := getD_lower_upBox hb h.column_lt i
  split
  · subst i
    rw [if_pos rfl, h.up_eq] at hlower
    exact wholeRange_eq hlower h.upper_eq
  · rw [if_neg ‹_›] at hlower
    unfold Box.wholeRange
    rw [hlower]
    rfl

/-- A split shares the points of its node out between the children. -/
theorem weight_split (hmem : branch.column ∈ s.wholeColumns) :
    s.weight (downBox b branch) + s.weight (upBox b branch) = s.weight b := by
  have hrest : ∀ c : Box Exact,
      (∀ i ≠ branch.column, c.wholeRange i = b.wholeRange i) →
      ∏ i ∈ s.wholeColumns.erase branch.column, max 1 (c.wholeRange i).card =
        ∏ i ∈ s.wholeColumns.erase branch.column, max 1 (b.wholeRange i).card :=
    fun c hc => Finset.prod_congr rfl fun i hi => by rw [hc i (Finset.mem_erase.1 hi).1]
  have hdown := hrest (downBox b branch) fun i hi => by
    rw [wholeRange_downBox h hb, if_neg (Ne.symm hi)]
  have hup := hrest (upBox b branch) fun i hi => by
    rw [wholeRange_upBox h hb, if_neg (Ne.symm hi)]
  have hle := h.le_down
  have hlt := h.up_le
  rw [weight_eq_mul hmem, weight_eq_mul hmem, weight_eq_mul hmem, hdown, hup, ← add_mul,
    wholeRange_downBox h hb, wholeRange_upBox h hb, if_pos rfl, if_pos rfl,
    wholeRange_eq h.lower_eq h.upper_eq, Int.card_Icc, Int.card_Icc, Int.card_Icc]
  congr 1
  omega

/-- The children of a split, and the node itself, do with what the node can account for. -/
theorem quota_split (hmem : branch.column ∈ s.wholeColumns) :
    s.quota (downBox b branch) + s.quota (upBox b branch) + 1 = s.quota b := by
  have hsum := weight_split h hb hmem
  have hdown := weight_pos (s := s) (downBox b branch)
  have hup := weight_pos (s := s) (upBox b branch)
  unfold quota
  omega

end Split

end SubProblem

namespace Search

open SubProblem

variable {s : SubProblem Exact} {passes : Nat} {t t' : Search Exact} {n : OpenNode Exact}
  {q : NodeQueue Exact}

/-! ### Open nodes -/

/-- The nodes that open nodes together can account for. -/
noncomputable def totalQuota (s : SubProblem Exact) (l : List (OpenNode Exact)) : ℕ :=
  (l.map fun n => s.quota n.box).sum

theorem totalQuota_cons (n : OpenNode Exact) (l : List (OpenNode Exact)) :
    totalQuota s (n :: l) = s.quota n.box + totalQuota s l := by
  rw [totalQuota, List.map_cons, List.sum_cons, totalQuota]

theorem totalQuota_of_perm {l l' : List (OpenNode Exact)} (h : l.Perm l') :
    totalQuota s l = totalQuota s l' :=
  (h.map _).sum_eq

/-- The nodes that all open nodes of a search together can account for. -/
noncomputable def pending (s : SubProblem Exact) (t : Search Exact) : ℕ :=
  totalQuota s t.queue.toList

theorem pending_of_pop (hpop : t.queue.pop = some (n, q)) :
    pending s t = s.quota n.box + totalQuota s q.toList := by
  rw [pending, ← totalQuota_of_perm (NodeQueue.toList_pop hpop), totalQuota_cons]

theorem pending_adopt_le (t : Search Exact) (column : ℕ) (child : OpenNode Exact) :
    pending s (t.adopt column child) ≤ s.quota child.box + pending s t := by
  unfold adopt
  split
  · exact Nat.le_add_left _ _
  · rw [pending, totalQuota_of_perm (NodeQueue.toList_push ..), totalQuota_cons, pending]

theorem pending_branched_le (t : Search Exact) (n : OpenNode Exact) (objective : Exact)
    (b : Box Exact) (branch : Branch Exact) : pending s (t.branched n objective b branch) ≤
      s.quota (downBox b branch) + s.quota (upBox b branch) + pending s t := by
  have hfirst := fun child => pending_adopt_le (s := s) t branch.column child
  have hsecond := fun first child =>
    pending_adopt_le (s := s) (t.adopt branch.column first) branch.column child
  unfold branched
  split
  · refine (hsecond _ _).trans ?_
    have := hfirst ⟨0, n.depth + 1, objective, downBox b branch⟩
    dsimp only at this ⊢
    omega
  · refine (hsecond _ _).trans ?_
    have := hfirst ⟨0, n.depth + 1, objective, upBox b branch⟩
    dsimp only at this ⊢
    omega

theorem pending_accept (t : Search Exact) (x : Array Exact) :
    pending s (t.accept s x) = pending s t :=
  totalQuota_of_perm (NodeQueue.toList_nowHasBound t.queue)

/-! ### The invariant -/

/-- The nodes so far, and those that the open ones can account for, are no more than the root
allows. -/
structure Metered (s : SubProblem Exact) (t : Search Exact) : Prop where
  fits : t.Fits s
  isRegular : ∀ n ∈ t.queue.toList, n.box.IsRegular s
  tightens : ∀ n ∈ t.queue.toList, n.box.Tightens s.box
  nodes_le : t.nodes + pending s t ≤ s.quota s.box

/-- A node that opens no other one is paid for by what it could have accounted for. -/
theorem Metered.discard (h : t.Metered s) (hpop : t.queue.pop = some (n, q)) :
    (counted { t with queue := q }).Metered s := by
  have hold : ∀ m ∈ q.toList, m ∈ t.queue.toList :=
    fun m hm => (NodeQueue.mem_of_pop hpop).2 (.inr hm)
  refine ⟨fun m hm => h.fits m (hold m hm), fun m hm => h.isRegular m (hold m hm),
    fun m hm => h.tightens m (hold m hm), ?_⟩
  have hle := h.nodes_le
  have hpos := quota_pos (s := s) n.box
  rw [pending_of_pop hpop] at hle
  show t.nodes + 1 + totalQuota s q.toList ≤ _
  omega

theorem Metered.accept (h : t.Metered s) (x : Array Exact) : (t.accept s x).Metered s := by
  refine ⟨fun m hm => h.fits m (NodeQueue.mem_nowHasBound.1 hm),
    fun m hm => h.isRegular m (NodeQueue.mem_nowHasBound.1 hm),
    fun m hm => h.tightens m (NodeQueue.mem_nowHasBound.1 hm), ?_⟩
  rw [pending_accept]
  exact h.nodes_le

/-- The children of a node, and the node itself, do with what the node could account for. -/
theorem Metered.branch (h : t.Metered s) (hs : s.IsRational) (hbox : s.IsIntegerBox)
    (hpop : t.queue.pop = some (n, q)) {c : Box Exact} {b : Branch Exact}
    (hc : Survives s passes { t with queue := q } n c)
    (hchoice : Branch.Choice s (s.corner c) c (some b)) :
    ((counted { t with queue := q }).branched n (s.cornerBound c) c b).Metered s := by
  have hn : n ∈ t.queue.toList := (NodeQueue.mem_of_pop hpop).2 (.inl rfl)
  obtain ⟨htightens, -⟩ := Propagation.keeps_of_bounded hs (h.fits n hn) hc.bound_eq
  have hreg := Propagation.isRegular_of_bound hs (h.fits n hn) (h.isRegular n hn) hc.bound_eq
  have hroot := htightens.trans (h.tightens n hn)
  have hnode := fun m => isChild_of_mem (m := m) hpop hc.hasSize hreg hchoice
  refine ⟨fun m hm => ?_, fun m hm => ?_, fun m hm => ?_, ?_⟩
  · exact (hnode m hm).elim (h.fits m) (·.hasSize)
  · exact (hnode m hm).elim (h.isRegular m) (·.isRegular)
  · exact (hnode m hm).elim (h.tightens m) (·.tightens.trans hroot)
  · obtain ⟨l, m, u, hsplit⟩ := Branch.exists_isWholeSplit hreg hchoice
    have hlu : l < u := by
      have := hsplit.le_down
      have := hsplit.up_le
      omega
    have hmem := mem_wholeColumns_of_split hbox hroot hsplit.column_lt hsplit.integer
      hsplit.lower_eq hsplit.upper_eq hlu
    have hsplit := quota_split hsplit hc.hasSize hmem
    have hc : s.quota c ≤ s.quota n.box :=
      Nat.sub_le_sub_right (Nat.mul_le_mul_left 2
        (weight_le_of_tightens (h.isRegular n hn) hreg htightens)) 1
    have hopen := pending_branched_le (s := s) (counted { t with queue := q }) n
      (s.cornerBound c) c b
    have hle := h.nodes_le
    rw [pending_of_pop hpop] at hle
    have hold : pending s (counted { t with queue := q }) = totalQuota s q.toList := rfl
    rw [hold] at hopen
    rw [nodes_branched]
    show t.nodes + 1 + _ ≤ _
    omega

/-- One node preserves the invariant. -/
theorem Metered.step (h : t.Metered s) (hs : s.IsRational) (hbox : s.IsIntegerBox)
    (hpop : t.queue.pop = some (n, q)) (hstep : Step s passes { t with queue := q } n t') :
    t'.Metered s := by
  cases hstep with
  | pruned | infeasible | costly | dropped => exact h.discard hpop
  | accepted => exact (h.discard hpop).accept _
  | branched hc _ hchoice => exact h.branch hs hbox hpop hc hchoice

end Search

end PrimalHeuristics
