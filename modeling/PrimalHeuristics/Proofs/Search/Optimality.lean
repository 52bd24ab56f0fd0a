import PrimalHeuristics.Proofs.Search.IntegerNodes

/-!
# Finished searches are optimal

Over exact numbers, and if every column is an integer one between whole numbers or is pinned, a
search with propagation that finishes has found a best point, up to the tolerance by which nodes are
pruned. The invariant is that every point that satisfies all rows lies in the box of an open node,
or costs at least the best value less the tolerance.

* `Search.Invariant`: the invariant;
* `Search.Invariant.step`: one node preserves it, in each of the six cases of `Search.Step`;
* `Search.isOptimal_run`: what follows for the result.
-/

namespace PrimalHeuristics

open Exact

/-! ### The least bound -/

namespace Exact

theorem le_of_totalCompare {x m : Exact} (hx : x ≠ nan) (h : totalCompare x m ≠ .lt) : m ≤ x := by
  rcases x with q | (_ | _) | _ <;> rcases m with t | (_ | _) | _ <;>
    simp_all [totalCompare, compare_lt_iff_lt]

theorem totalCompare_trans {x c d : Exact} (hd : totalCompare d c = .lt)
    (hx : totalCompare x c ≠ .lt) : totalCompare x d ≠ .lt := by
  rcases x with q | (_ | _) | _ <;> rcases c with t | (_ | _) | _ <;>
    rcases d with w | (_ | _) | _ <;> simp_all [totalCompare, compare_lt_iff_lt]
  · exact hd.le.trans hx
  · exact absurd hd (by decide)
  · exact absurd hd (by decide)

theorem totalCompare_self (x : Exact) : totalCompare x x ≠ .lt := by
  rcases x with q | (_ | _) | _ <;> simp [totalCompare]

/-- The least number of a list is below all of them. -/
theorem firstLeast_le {l : List Exact} {m x : Exact} (h : Scalar.firstLeast id l = some m)
    (hx : x ∈ l) (hne : x ≠ nan) : m ≤ x :=
  le_of_totalCompare hne (Scalar.not_lt_firstLeast totalCompare_self
    (fun _ _ _ => totalCompare_trans) h hx)

end Exact

namespace SubProblem

/-! ### Statements about results -/

/-- Every column is an integer one between whole numbers, or is pinned at a value. -/
def IsIntegerBox (s : SubProblem Exact) : Prop :=
  ∀ k ∈ s.columns,
    (k.integer = true ∧ Scalar.isBound k.lower = true ∧ Scalar.isBound k.upper = true ∧
      ∃ l u : ℤ, k.lower = finite l ∧ k.upper = finite u) ∨
    (k.lower = k.upper ∧ Scalar.isBound k.lower = true)

/-- The vector keeps the bounds, integrality and all rows, without any tolerance. -/
structure IsExactlyFeasible (s : SubProblem Exact) (y : Array Exact) : Prop where
  size : y.size = s.numCols
  within : ∀ j < s.numCols, s.box.lower.getD j 0 ≤ y.getD j 0 ∧ y.getD j 0 ≤ s.box.upper.getD j 0
  integral : ∀ j < s.numCols, s.isInteger j = true → ∃ z : ℤ, y.getD j 0 = finite z
  rows : ∀ r < s.numRows, ∃ a, (s.matrix.row r).activity y = .ok a ∧
    (s.boundsOf r).lower ≤ a ∧ a ≤ (s.boundsOf r).upper

theorem isRegular_box {s : SubProblem Exact} (h : s.IsIntegerBox) : s.box.IsRegular s := by
  intro j hj
  obtain ⟨k, hk, hget, -⟩ := exists_column hj
  have hlower : s.box.lower.getD j 0 = k.lower := by simp [box, hget]
  have hupper : s.box.upper.getD j 0 = k.upper := by simp [box, hget]
  have hinteger : s.isInteger j = k.integer := by simp [isInteger, hget]
  rw [hlower, hupper, hinteger]
  rcases h k hk with ⟨hi, hl, hu, l, u, hlower, hupper⟩ | ⟨heq, hbound⟩
  · rw [hlower] at hl ⊢
    rw [hupper] at hu ⊢
    exact .integral l u hi (isBound_finite_iff.1 hl) (isBound_finite_iff.1 hu)
  · obtain ⟨c, hc, hlt⟩ := isBound_iff.1 hbound
    rw [← heq, hc]
    exact .pinned c hlt

/-- An exactly feasible vector of an integer box is a point. -/
theorem IsExactlyFeasible.isPoint {s : SubProblem Exact} (hbox : s.IsIntegerBox)
    {y : Array Exact} (hy : s.IsExactlyFeasible y) : s.IsPoint s.box y where
  size := hy.size
  isFinite j hj := by
    obtain ⟨hl, hu⟩ := hy.within j hj
    obtain ⟨l, u, hlower, hupper⟩ := (isRegular_box hbox j hj).exists_finite
    rw [hlower] at hl
    rw [hupper] at hu
    exact isFinite_iff.2 (eq_finite_of_between hl hu)
  within := hy.within
  integral := hy.integral
  rows := hy.rows

end SubProblem

namespace Search

open SubProblem

/-! ### The invariant -/

/-- What holds between two nodes of a search over an integer box. -/
structure Invariant (s : SubProblem Exact) (cutoff : Exact) (t : Search Exact) : Prop where
  fits : t.Fits s
  isRegular : ∀ n ∈ t.queue.toList, n.box.IsRegular s
  tightens : ∀ n ∈ t.queue.toList, n.box.Tightens s.box
  bound_le : ∀ n ∈ t.queue.toList, ∀ v, n.box.Contains s.numCols v →
    n.bound ≤ finite (s.costAt v)
  isNumber : t.value ≠ nan
  noSolution : t.incumbent = none → t.value = cutoff
  solution : ∀ x, t.incumbent = some x → x.size = s.numCols ∧ s.IsFeasible x s.box ∧
    t.value = s.objectiveValue x ∧ t.value < cutoff - Scalar.objTol
  /-- Every point is in an open node, or is of no use. -/
  covers : ∀ v, s.Satisfies v → s.box.Contains s.numCols v →
    (∃ n ∈ t.queue.toList, n.box.Contains s.numCols v) ∨
      t.value - Scalar.objTol ≤ finite (s.costAt v)

variable {s : SubProblem Exact} {cutoff : Exact} {passes : Nat} {t t' : Search Exact}
  {n : OpenNode Exact} {q : NodeQueue Exact}

theorem invariant_start (hbox : s.IsIntegerBox) (hcutoff : cutoff ≠ nan) :
    (start s cutoff).Invariant s cutoff := by
  have hroot : ∀ n ∈ (start s cutoff).queue.toList, n = ⟨0, 0, -Scalar.infinity, s.box⟩ := by
    intro n hn
    rw [start, NodeQueue.mem_push] at hn
    exact hn.resolve_right List.not_mem_nil
  refine ⟨fits_start s cutoff, fun n hn => ?_, fun n hn => ?_, fun n hn v _ => ?_, hcutoff,
    fun _ => rfl, fun x hx => ?_, fun v _ hv => .inl ⟨⟨0, 0, -Scalar.infinity, s.box⟩, ?_, hv⟩⟩
  · rw [hroot n hn]
    exact isRegular_box hbox
  · rw [hroot n hn]
    exact .refl _
  · rw [hroot n hn]
    simp [infinity_eq]
  · cases hx
  · rw [start, NodeQueue.mem_push]
    exact .inl rfl

/-- A node whose points are of no use may be left out. -/
theorem Invariant.discard (h : t.Invariant s cutoff) (hpop : t.queue.pop = some (n, q))
    (hn : ∀ v, s.Satisfies v → n.box.Contains s.numCols v →
      t.value - Scalar.objTol ≤ finite (s.costAt v)) :
    (counted { t with queue := q }).Invariant s cutoff := by
  have hold : ∀ m ∈ q.toList, m ∈ t.queue.toList :=
    fun m hm => (NodeQueue.mem_of_pop hpop).2 (.inr hm)
  refine ⟨fun m hm => h.fits m (hold m hm), fun m hm => h.isRegular m (hold m hm),
    fun m hm => h.tightens m (hold m hm), fun m hm => h.bound_le m (hold m hm), h.isNumber,
    h.noSolution, h.solution, fun v hsat hv => ?_⟩
  rcases h.covers v hsat hv with ⟨m, hm, hmv⟩ | hvalue
  · rcases (NodeQueue.mem_of_pop hpop).1 hm with rfl | hm
    · exact .inr (hn v hsat hmv)
    · exact .inl ⟨m, hm, hmv⟩
  · exact .inr hvalue

/-- What is known of a node that the propagation leaves a corner. -/
structure Kept (s : SubProblem Exact) (n : OpenNode Exact) (c : Box Exact) : Prop where
  isRegular : c.IsRegular s
  tightens : c.Tightens n.box
  keeps : ∀ v, s.Satisfies v → n.box.Contains s.numCols v → c.Contains s.numCols v

theorem Invariant.kept (h : t.Invariant s cutoff) (hs : s.IsRational)
    (hn : n ∈ t.queue.toList) {c : Box Exact} {o : Exact} {x : Array Exact}
    (hbound : Propagation.bound passes s n.box = .ok (.bounded o x, c)) : Kept s n c := by
  obtain ⟨htightens, hkeeps⟩ := Propagation.keeps_of_bounded hs (h.fits n hn) hbound
  exact ⟨Propagation.isRegular_of_bound hs (h.fits n hn) (h.isRegular n hn) hbound, htightens,
    hkeeps⟩

theorem isFeasible_of_tightens {x : Array Exact} {b c : Box Exact} (hc : c.Tightens b)
    (h : s.IsFeasible x c) : s.IsFeasible x b := by
  refine ⟨fun j hj => ?_, h.2⟩
  obtain ⟨hl, hu, hi⟩ := h.1 j hj
  obtain ⟨hlower, hupper⟩ := hc j
  refine ⟨?_, ?_, hi⟩
  · rcases hlower with hlower | hlower
    · rwa [← hlower]
    · exact Exact.le_trans (sub_finite_le (Exact.le_of_lt hlower)) hl
  · rcases hupper with hupper | hupper
    · rwa [← hupper]
    · exact Exact.le_trans hu (add_finite_le (Exact.le_of_lt hupper))

/-- A feasible corner whose bound was not good enough to prune its node is better than the best
value, by more than the tolerance. -/
theorem Invariant.corner_lt (h : t.Invariant s cutoff) (hs : s.IsRational) {c : Box Exact}
    (hreg : c.IsRegular s) (hpromising : t.isPruned (s.cornerBound c) = false)
    (hfeas : s.IsFeasible (s.corner c) c) :
    s.objectiveValue (s.corner c) < t.value - Scalar.objTol := by
  have hvalue := objectiveValue_eq_costAt hs (s.size_corner c) fun j hj =>
    getD_corner_eq (b := c) hj
  have hopen : ¬ t.value - Scalar.objTol ≤ s.cornerBound c := of_decide_eq_false hpromising
  rw [cornerBound_of_isFeasible hreg hfeas, hvalue] at hopen
  rw [hvalue]
  refine lt_of_not_le ?_ hopen
  have := h.isNumber
  rcases hv : t.value with a | (_ | _) | _ <;> simp_all [objTol_eq]

/-- A corner that is accepted becomes a better solution, and no point is lost. -/
theorem Invariant.accept (h : t.Invariant s cutoff) (hs : s.IsRational)
    (hpop : t.queue.pop = some (n, q)) {c : Box Exact}
    (hc : Survives s passes { t with queue := q } n c) (hfeas : s.IsFeasible (s.corner c) c) :
    ((counted { t with queue := q }).accept s (s.corner c)).Invariant s cutoff := by
  have hn : n ∈ t.queue.toList := (NodeQueue.mem_of_pop hpop).2 (.inl rfl)
  have hold : ∀ m ∈ q.nowHasBound.toList, m ∈ t.queue.toList :=
    fun m hm => (NodeQueue.mem_of_pop hpop).2 (.inr (NodeQueue.mem_nowHasBound.1 hm))
  have hkept := h.kept hs hn hc.bound_eq
  have hbetter := h.corner_lt hs hkept.isRegular hc.promising hfeas
  have hless : s.objectiveValue (s.corner c) < t.value :=
    lt_of_lt_sub_finite (by norm_num) hbetter
  refine ⟨fun m hm => h.fits m (hold m hm), fun m hm => h.isRegular m (hold m hm),
    fun m hm => h.tightens m (hold m hm), fun m hm => h.bound_le m (hold m hm), ?_,
    fun hnone => ?_, ?_, ?_⟩
  · intro hnan
    rw [show s.objectiveValue (s.corner c) = nan from hnan] at hless
    exact not_nan_lt _ hless
  · cases hnone
  · rintro x ⟨⟩
    have hbox := isFeasible_of_tightens (hkept.tightens.trans (h.tightens n hn)) hfeas
    refine ⟨s.size_corner c, hbox, rfl, ?_⟩
    show s.objectiveValue (s.corner c) < cutoff - Scalar.objTol
    cases hinc : t.incumbent with
    | none => exact h.noSolution hinc ▸ hbetter
    | some x => exact Exact.lt_of_lt_of_le hless (Exact.le_of_lt (h.solution x hinc).2.2.2)
  · intro v hsat hv
    rcases h.covers v hsat hv with ⟨m, hm, hmv⟩ | hcost
    · rcases (NodeQueue.mem_of_pop hpop).1 hm with rfl | hm
      · -- the points of the node itself are no cheaper than its corner
        refine .inr (sub_finite_le_finite (by norm_num) ?_)
        show s.objectiveValue (s.corner c) ≤ _
        rw [← cornerBound_of_isFeasible hkept.isRegular hfeas]
        exact cornerBound_le hs (hkept.keeps v hsat hmv)
      · exact .inl ⟨m, NodeQueue.mem_nowHasBound.2 hm, hmv⟩
    · exact .inr (Exact.le_trans (sub_finite_le (Exact.le_of_lt hless)) hcost)

/-- A child of a node that the propagation left the box `c`. -/
structure IsChild (s : SubProblem Exact) (c : Box Exact) (m : OpenNode Exact) : Prop where
  bound_eq : m.bound = s.cornerBound c
  hasSize : m.box.HasSize s.numCols
  isRegular : m.box.IsRegular s
  tightens : m.box.Tightens c

/-- An open node after a split was open before, or is a child. -/
theorem isChild_of_mem {c : Box Exact} {b : Branch Exact} (hpop : t.queue.pop = some (n, q))
    (hc : c.HasSize s.numCols) (hreg : c.IsRegular s)
    (hchoice : Branch.Choice s (s.corner c) c (some b)) {m : OpenNode Exact}
    (hm : m ∈ ((counted { t with queue := q }).branched n (s.cornerBound c) c b).queue.toList) :
    m ∈ t.queue.toList ∨ IsChild s c m := by
  obtain ⟨l, w, u, hsplit⟩ := Branch.exists_isWholeSplit hreg hchoice
  rcases of_mem_branched hm with hm | ⟨hbound, hm | hm⟩
  · exact .inl ((NodeQueue.mem_of_pop hpop).2 (.inr hm))
  · refine .inr ⟨hbound, ?_, ?_, ?_⟩ <;> rw [hm]
    · exact hasSize_downBox hc b
    · exact isRegular_downBox hsplit hc hreg
    · exact tightens_downBox hsplit hc
  · refine .inr ⟨hbound, ?_, ?_, ?_⟩ <;> rw [hm]
    · exact hasSize_upBox hc b
    · exact isRegular_upBox hsplit hc hreg
    · exact tightens_upBox hsplit hc

/-- The points of a node that is split are in its children. -/
theorem Invariant.branch (h : t.Invariant s cutoff) (hs : s.IsRational)
    (hpop : t.queue.pop = some (n, q)) {c : Box Exact} {b : Branch Exact}
    (hc : Survives s passes { t with queue := q } n c)
    (hchoice : Branch.Choice s (s.corner c) c (some b)) :
    ((counted { t with queue := q }).branched n (s.cornerBound c) c b).Invariant s cutoff := by
  have hn : n ∈ t.queue.toList := (NodeQueue.mem_of_pop hpop).2 (.inl rfl)
  have hkept := h.kept hs hn hc.bound_eq
  have hnode := fun m => isChild_of_mem (m := m) hpop hc.hasSize hkept.isRegular hchoice
  refine ⟨fun m hm => ?_, fun m hm => ?_, fun m hm => ?_, fun m hm v hv => ?_, ?_, ?_, ?_,
    fun v hsat hv => ?_⟩
  · rcases hnode m hm with hm | hm
    · exact h.fits m hm
    · exact hm.hasSize
  · rcases hnode m hm with hm | hm
    · exact h.isRegular m hm
    · exact hm.isRegular
  · rcases hnode m hm with hm | hm
    · exact h.tightens m hm
    · exact hm.tightens.trans (hkept.tightens.trans (h.tightens n hn))
  · rcases hnode m hm with hm | hm
    · exact h.bound_le m hm v hv
    · rw [hm.bound_eq]
      exact cornerBound_le hs (hm.tightens.contains hv)
  · rw [value_branched]
    exact h.isNumber
  · rw [value_branched, incumbent_branched]
    exact h.noSolution
  · rw [value_branched, incumbent_branched]
    exact h.solution
  · rw [value_branched]
    rcases h.covers v hsat hv with ⟨k, hk, hkv⟩ | hcost
    · rcases (NodeQueue.mem_of_pop hpop).1 hk with rfl | hk
      · -- a child that holds the point is not left out, for its bounds do not cross
        obtain ⟨l, w, u, hsplit⟩ := Branch.exists_isWholeSplit hkept.isRegular hchoice
        obtain ⟨d, hd, hdv, hopen⟩ := contains_child hsplit hc.hasSize hsat (hkept.keeps v hsat hkv)
        obtain ⟨m, hm, rfl⟩ : ∃ m ∈ ((counted { t with queue := q }).branched k
            (s.cornerBound c) c b).queue.toList, m.box = d := exists_child hd hopen
        exact .inl ⟨m, hm, hdv⟩
      · exact .inl ⟨k, mem_branched_of_mem hk, hkv⟩
    · exact .inr hcost

/-- One node preserves the invariant. -/
theorem Invariant.step (h : t.Invariant s cutoff) (hs : s.IsRational)
    (hpop : t.queue.pop = some (n, q)) (hstep : Step s passes { t with queue := q } n t') :
    t'.Invariant s cutoff := by
  have hn : n ∈ t.queue.toList := (NodeQueue.mem_of_pop hpop).2 (.inl rfl)
  cases hstep with
  | pruned hpruned =>
    refine h.discard hpop fun v _ hv => ?_
    exact Exact.le_trans (of_decide_eq_true hpruned) (h.bound_le n hn v hv)
  | infeasible hbound =>
    refine h.discard hpop fun v hsat hv => ?_
    exact (Propagation.not_contains_of_infeasible hs (h.fits n hn) hbound hsat hv).elim
  | costly hc hbound hcostly =>
    -- the propagation has kept the points, and none is cheaper than the corner
    refine h.discard hpop fun v hsat hv => ?_
    have hv := (h.kept hs hn hbound).keeps v hsat hv
    exact Exact.le_trans (of_decide_eq_true hcostly) (cornerBound_le hs hv)
  | accepted hc hfeas => exact h.accept hs hpop hc hfeas
  | dropped hc hinf hchoice =>
    have hkept := h.kept hs hn hc.bound_eq
    refine h.discard hpop fun v hsat hv => ?_
    exact (Branch.not_contains_of_none hs hkept.isRegular hinf hchoice hsat
      (hkept.keeps v hsat hv)).elim
  | branched hc hinf hchoice => exact h.branch hs hpop hc hchoice

/-- The invariant holds throughout a search. -/
theorem invariant_loop (hs : s.IsRational) (hbox : s.IsIntegerBox) (hcutoff : cutoff ≠ nan)
    (passes cap : Nat) :
    ∃ t, loop s (.activity passes) cap (start s cutoff) () = (.ok t, ()) ∧ t.Invariant s cutoff :=
  loop_rule (fun _ h => h.fits) (fun _ _ _ _ h hpop hstep => h.step hs hpop hstep) cap
    (invariant_start hbox hcutoff)

/-- No point is better by more than the tolerance if no open node promises anything better. -/
theorem Invariant.le_of_isFinished (h : t.Invariant s cutoff) (hfinished : t.isFinished = true)
    {v : Nat → ℚ} (hsat : s.Satisfies v) (hv : s.box.Contains s.numCols v) :
    t.value - Scalar.objTol ≤ finite (s.costAt v) := by
  rcases h.covers v hsat hv with ⟨n, hn, hnv⟩ | hcost
  · have hbound := h.bound_le n hn v hnv
    have hmem : n.bound ∈ t.queue.nodes.toList.map (·.bound) := List.mem_map_of_mem hn
    unfold isFinished NodeQueue.lowestBy at hfinished
    cases hlowest : Scalar.firstLeast id (t.queue.nodes.toList.map (·.bound)) with
    | none =>
      rw [Scalar.firstLeast_eq_none.1 hlowest] at hmem
      contradiction
    | some lowest =>
      rw [hlowest] at hfinished
      have hle : lowest ≤ n.bound := firstLeast_le hlowest hmem fun hnan => by
        rw [hnan] at hbound
        exact not_nan_le _ hbound
      exact Exact.le_trans (of_decide_eq_true hfinished) (Exact.le_trans hle hbound)
  · exact hcost

end Search

/-! ### Results -/

/-- A result that keeps its promises: the solution is feasible in the bounds of the sub-problem, its
cost is the one that is reported, and it is better than the cutoff; and once the search is finished,
no exactly feasible vector is better by more than the tolerance. -/
structure SearchResult.IsOptimal (s : SubProblem Exact) (cutoff : Exact)
    (r : SearchResult Exact) : Prop where
  hasSolution : r.status.hasSolution = r.solution.isSome
  isFeasible : ∀ x, r.solution = some x → s.isFeasible x s.box = .ok true
  objective_eq : ∀ x, r.solution = some x → r.objective = s.objectiveValue x
  lt_cutoff : r.solution.isSome → r.objective < cutoff ∧
    (0 < s.numCols → r.objective < cutoff - Scalar.objTol)
  best : r.status.isFinished = true → ∀ y, s.IsExactlyFeasible y →
    (r.solution.isSome → r.objective - Scalar.objTol ≤ s.objectiveValue y) ∧
      (r.solution = none → cutoff - Scalar.objTol ≤ s.objectiveValue y)

namespace Search

variable {s : SubProblem Exact} {cutoff : Exact}

theorem Invariant.isOptimal_result {t : Search Exact} (h : t.Invariant s cutoff)
    (hs : s.IsRational) (hbox : s.IsIntegerBox) : t.result.IsOptimal s cutoff where
  hasSolution := by simp [result]
  isFeasible x hx := by
    obtain ⟨hsize, hfeas, -⟩ := h.solution x hx
    rw [SubProblem.isFeasible_eq hsize s.hasSize_box]
    simp [hfeas]
  objective_eq x hx := (h.solution x hx).2.2.1
  lt_cutoff hsome := by
    obtain ⟨x, hx⟩ := Option.isSome_iff_exists.1 hsome
    have hlt := (h.solution x hx).2.2.2
    exact ⟨lt_of_lt_sub_finite (by norm_num) hlt, fun _ => hlt⟩
  best hfinished y hy := by
    obtain ⟨v, hsat, hv, -, hcost⟩ := (hy.isPoint hbox).exists_point hs
    have hbest := h.le_of_isFinished (by simpa [result] using hfinished) hsat hv
    rw [hcost]
    exact ⟨fun _ => hbest, fun hnone => h.noSolution hnone ▸ hbest⟩

/-- Without columns, the fixed columns alone are the only point. -/
theorem isOptimal_fixedResult (hs : s.IsRational) (hcutoff : cutoff ≠ nan) (hn : s.numCols = 0) :
    (fixedResult s cutoff).IsOptimal s cutoff := by
  have hcost : ∀ y : Array Exact, y.size = s.numCols → s.objectiveValue y = s.offset := by
    intro y hy
    rw [s.objectiveValue_eq hy, hn, sum_eq]
    exact add_zero s.offset
  have hoffset : s.offset = finite s.offset.toRat := isFinite_iff.1 hs.offset
  unfold fixedResult
  by_cases hlt : s.offset < cutoff
  · rw [if_pos hlt]
    refine ⟨rfl, ?_, ?_, fun _ => ⟨hlt, fun hpos => by omega⟩, fun _ y hy => ⟨fun _ => ?_, nofun⟩⟩
    · rintro x ⟨⟩
      rw [SubProblem.isFeasible_eq (by simp [hn]) s.hasSize_box]
      have : s.IsFeasible #[] s.box :=
        ⟨fun j hj => by omega, fun k hk => by rw [SubProblem.numRows_eq_zero hn] at hk; omega⟩
      simp [this]
    · rintro x ⟨⟩
      exact (hcost #[] (by simp [hn])).symm
    · rw [hcost y hy.size, hoffset]
      exact sub_finite_le_finite (by norm_num) ((finite_le _ _).2 le_rfl)
  · rw [if_neg hlt]
    refine ⟨rfl, nofun, nofun, nofun, fun _ y hy => ⟨nofun, fun _ => ?_⟩⟩
    rw [hcost y hy.size, hoffset]
    rw [hoffset] at hlt
    exact sub_finite_le_finite (by norm_num) (le_of_not_lt hcutoff hlt)

/-- A search ends with a result. A solution has one entry for each column, and once the search is
finished it is optimal. -/
theorem exists_optimal_result (hs : s.IsRational) (hbox : s.IsIntegerBox) (hcutoff : cutoff ≠ nan)
    (passes cap : Nat) : ∃ r, run s (.activity passes) cap cutoff () = (.ok r, ()) ∧
      r.IsOptimal s cutoff ∧ ∀ x, r.solution = some x → x.size = s.numCols := by
  unfold run
  by_cases hn : s.numCols = 0
  · refine ⟨_, by rw [if_pos hn], isOptimal_fixedResult hs hcutoff hn, fun x hx => ?_⟩
    unfold fixedResult at hx
    split at hx
    · cases hx
      exact hn.symm
    · cases hx
  · obtain ⟨t, ht, hinv⟩ := invariant_loop hs hbox hcutoff passes cap
    exact ⟨t.result, by rw [if_neg hn, ht], hinv.isOptimal_result hs hbox,
      fun x hx => (hinv.solution x hx).1⟩

/-- The greatest whole number between zero and three whose double is at most five. -/
def oneColumn : SubProblem Exact where
  columns := #[⟨0, finite (-1), 0, finite 3, true⟩]
  rows := #[⟨0, infinite true, finite 5⟩]
  matrix := .ofRows 1 #[[(0, finite 2)]] (by simp [Line.Ordered])
    (by simp [Line.NoZeros, finite_beq_zero])
  offset := 0
  originalSize := 2
  numCols_matrix := rfl
  numRows_matrix := rfl
  rows_nonempty := by simp [Matrix.ofRows]

end Search

end PrimalHeuristics
