import PrimalHeuristics.Proofs.Binary64.Rounding
import PrimalHeuristics.Proofs.Search.Steps

/-!
# The incumbents of a search and its cutoff

A search is after solutions below a cutoff, each one cheaper than the one before. It compares the
bound of a node with the best value so far, and takes the corner of the node for granted. Where the
cost has a least value the bound is the cost of the corner, and this is right; where it has none the
bound is minus infinity, the corner may cost anything, and it is accepted all the same.

* `Search.Accepts`, `Search.Lapses`: a node makes a point the incumbent, rightly or not;
* `Search.KeepsCutoff`: the incumbents of a search get cheaper, the first one than the cutoff;
* `Search.keepsCutoff_iff`: a search keeps its cutoff if and only if it never lapses;
* `Search.not_keepsCutoff_cone`: a search that does not.
-/

namespace PrimalHeuristics

namespace Search

section Trace

variable {α : Type} [Scalar α] {s : SubProblem α} {passes : Nat} {t t' : Search α}

/-- The state of a search after at most `k` nodes. -/
def StateAt (s : SubProblem α) (passes : Nat) (cutoff : α) (k : Nat) (t : Search α) : Prop :=
  s.numCols ≠ 0 ∧ loop s (.activity passes) k (start s cutoff) () = (.ok t, ())

/-- The next node of a search makes `x` the incumbent; `c` is what the propagation leaves of its
box. -/
def Accepts (s : SubProblem α) (passes : Nat) (t : Search α) (c : Box α) (x : Array α) : Prop :=
  ∃ n q o, t.queue.pop = some (n, q) ∧ t.isPruned n.bound = false ∧
    Propagation.bound passes s n.box = .ok (.bounded o x, c) ∧ t.isPruned o = false ∧
    s.isFeasible x c = .ok true

/-- The next node makes a point the incumbent that is not cheaper, where the cost has no least value
or is no number. -/
def Lapses (s : SubProblem α) (passes : Nat) (t : Search α) : Prop :=
  ∃ c x, t.Accepts s passes c x ∧
    (s.isLimited c = false ∨ Scalar.isNaN (s.objectiveValue x) = true) ∧
    ¬ s.objectiveValue x < t.value

/-- A solution costs less than the cutoff, and each incumbent less than the one before it. -/
structure KeepsCutoff (s : SubProblem α) (passes cap : Nat) (cutoff : α) : Prop where
  result_lt : ∀ r, run s (.activity passes) cap cutoff () = (.ok r, ()) →
    r.solution.isSome = true → r.objective < cutoff
  incumbent_lt : ∀ k < cap, ∀ t t', StateAt s passes cutoff k t →
    StateAt s passes cutoff (k + 1) t' →
    ((∀ c x, ¬ t.Accepts s passes c x) ∧ t'.incumbent = t.incumbent ∧ t'.value = t.value) ∨
      ∃ c x, t.Accepts s passes c x ∧ t'.incumbent = some x ∧
        t'.value = s.objectiveValue x ∧ t'.value < t.value

/-! ### States of a run -/

theorem loop_succ_last {σ : Type} {r : Relaxation α σ} {k : Nat} {t u : Search α} {a b : σ}
    (h : loop s r k t a = (.ok u, b)) : loop s r (k + 1) t a = loop s r 1 u b := by
  rw [loop_add, h]

/-- The next node of a search in whose state all boxes have the right size. -/
theorem loop_one (passes : Nat) (ht : t.Fits s) :
    ∃ t', loop s (.activity passes) 1 t () = (.ok t', ()) ∧
      ((t.queue.pop = none ∧ t' = t) ∨
        ∃ n q, t.queue.pop = some (n, q) ∧ Step s passes { t with queue := q } n t') := by
  unfold loop
  cases hpop : t.queue.pop with
  | none => exact ⟨t, rfl, .inl ⟨rfl, rfl⟩⟩
  | some p =>
    obtain ⟨n, q⟩ := p
    have hn := ht n ((NodeQueue.mem_of_pop hpop).2 (.inl rfl))
    obtain ⟨t', ht', hs⟩ := step_eq passes { t with queue := q } hn
    simp only [ht']
    exact ⟨t', rfl, .inr ⟨n, q, rfl, hs⟩⟩

theorem StateAt.fits {cutoff : α} {k : Nat} (h : StateAt s passes cutoff k t) : t.Fits s := by
  obtain ⟨t', ht', hf⟩ := loop_total passes k (fits_start s cutoff)
  have he := h.2.symm.trans ht'
  cases he
  exact hf

/-! ### Incumbents -/

theorem Accepts.of_pop {n : OpenNode α} {q : NodeQueue α} {c : Box α} {x : Array α}
    (h : t.Accepts s passes c x) (hpop : t.queue.pop = some (n, q)) :
    t.isPruned n.bound = false ∧ ∃ o, Propagation.bound passes s n.box = .ok (.bounded o x, c) ∧
      t.isPruned o = false ∧ s.isFeasible x c = .ok true := by
  obtain ⟨n', q', o, hpop', hopen, hbound, hlow, hfeasible⟩ := h
  rw [hpop] at hpop'
  cases hpop'
  exact ⟨hopen, o, hbound, hlow, hfeasible⟩

/-- At most one point becomes the incumbent at a node. -/
theorem Accepts.unique {c d : Box α} {x y : Array α} (h : t.Accepts s passes c x)
    (k : t.Accepts s passes d y) : x = y := by
  obtain ⟨n, q, o, hpop, -, hbound, -⟩ := h
  obtain ⟨-, o', hbound', -⟩ := k.of_pop hpop
  rw [hbound] at hbound'
  cases hbound'
  rfl

/-- The point that becomes the incumbent is the corner of what is left of the node's box. -/
theorem Accepts.eq_corner {c : Box α} {x : Array α} (ht : t.Fits s)
    (h : t.Accepts s passes c x) : x = s.corner c ∧ t.isPruned (s.cornerBound c) = false := by
  obtain ⟨n, q, o, hpop, -, hbound, hlow, -⟩ := h
  have hn := ht n ((NodeQueue.mem_of_pop hpop).2 (.inl rfl))
  obtain ⟨d, -, hd | hd⟩ := Propagation.bound_hasSize passes hn <;> rw [hd] at hbound
  · cases hbound
  · cases hbound
    exact ⟨rfl, hlow⟩

/-- A node that does not accept the corner that is left to it accepts nothing. -/
theorem not_accepts {n : OpenNode α} {q : NodeQueue α} {c : Box α}
    (hpop : t.queue.pop = some (n, q)) (hc : c.HasSize s.numCols)
    (hbound : Propagation.bound passes s n.box = .ok (.bounded (s.cornerBound c) (s.corner c), c))
    (h : t.isPruned (s.cornerBound c) = true ∨ ¬ s.IsFeasible (s.corner c) c) (d : Box α)
    (x : Array α) : ¬ t.Accepts s passes d x := by
  intro ha
  obtain ⟨-, o, hbound', hlow, hfeasible⟩ := ha.of_pop hpop
  rw [hbound] at hbound'
  cases hbound'
  rw [SubProblem.isFeasible_eq (s.size_corner c) hc] at hfeasible
  rcases h with h | h
  · rw [h] at hlow
    cases hlow
  · exact h (of_decide_eq_true (Except.ok.inj hfeasible))

/-- A node changes the incumbent and the best value if and only if it accepts a point. -/
theorem Step.incumbent {n : OpenNode α} {q : NodeQueue α} (hpop : t.queue.pop = some (n, q))
    (h : Step s passes { t with queue := q } n t') :
    ((∀ c x, ¬ t.Accepts s passes c x) ∧ t'.incumbent = t.incumbent ∧ t'.value = t.value) ∨
      ∃ c x, t.Accepts s passes c x ∧ t'.incumbent = some x ∧
        t'.value = s.objectiveValue x := by
  cases h with
  | pruned h =>
    refine .inl ⟨fun c x ha => ?_, rfl, rfl⟩
    have hopen := (ha.of_pop hpop).1
    rw [show t.isPruned n.bound = true from h] at hopen
    cases hopen
  | infeasible h =>
    refine .inl ⟨fun c x ha => ?_, rfl, rfl⟩
    obtain ⟨-, o, hbound, -⟩ := ha.of_pop hpop
    rw [h] at hbound
    cases hbound
  | costly hc hbound h => exact .inl ⟨not_accepts hpop hc hbound (.inl h), rfl, rfl⟩
  | @accepted c hc h =>
    refine .inr ⟨c, s.corner c, ⟨n, q, _, hpop, hc.isOpen, hc.bound_eq, hc.promising, ?_⟩, rfl, rfl⟩
    rw [SubProblem.isFeasible_eq (s.size_corner c) hc.hasSize, decide_eq_true h]
  | dropped hc h => exact .inl ⟨not_accepts hpop hc.hasSize hc.bound_eq (.inr h), rfl, rfl⟩
  | branched hc h =>
    refine .inl ⟨not_accepts hpop hc.hasSize hc.bound_eq (.inr h), ?_, ?_⟩
    · exact incumbent_branched _ _ _ _ _
    · exact value_branched _ _ _ _ _

/-- From one state of a run to the next. -/
theorem StateAt.next {cutoff : α} {k : Nat} (h : StateAt s passes cutoff k t) :
    ∃ t', StateAt s passes cutoff (k + 1) t' ∧
      (((∀ c x, ¬ t.Accepts s passes c x) ∧ t'.incumbent = t.incumbent ∧ t'.value = t.value) ∨
        ∃ c x, t.Accepts s passes c x ∧ t'.incumbent = some x ∧
          t'.value = s.objectiveValue x) := by
  obtain ⟨t', ht', hnext⟩ := loop_one passes h.fits
  refine ⟨t', ⟨h.1, (loop_succ_last h.2).trans ht'⟩, ?_⟩
  rcases hnext with ⟨hpop, rfl⟩ | ⟨n, q, hpop, hs⟩
  · refine .inl ⟨?_, rfl, rfl⟩
    rintro c x ⟨n, q, o, hpop', -⟩
    rw [hpop] at hpop'
    cases hpop'
  · exact hs.incumbent hpop

theorem StateAt.eq {cutoff : α} {k : Nat} (h : StateAt s passes cutoff k t)
    (h' : StateAt s passes cutoff k t') : t = t' := by
  have he := h.2.symm.trans h'.2
  cases he
  rfl

theorem StateAt.previous {cutoff : α} {k : Nat} (h : StateAt s passes cutoff (k + 1) t') :
    ∃ t, StateAt s passes cutoff k t := by
  obtain ⟨t, ht, -⟩ := loop_total passes k (fits_start s cutoff)
  exact ⟨t, h.1, ht⟩

/-- The best value is the cost of the incumbent, or the cutoff. -/
theorem StateAt.value_eq {cutoff : α} {k : Nat} (h : StateAt s passes cutoff k t) :
    t.value = t.incumbent.elim cutoff s.objectiveValue := by
  induction k generalizing t with
  | zero =>
    obtain ⟨-, h⟩ := h
    cases h
    rfl
  | succ k ih =>
    obtain ⟨u, hu⟩ := h.previous
    obtain ⟨t', ht', hstep⟩ := hu.next
    obtain rfl := h.eq ht'
    rcases hstep with ⟨-, hincumbent, hvalue⟩ | ⟨c, x, -, hincumbent, hvalue⟩
    · rw [hincumbent, hvalue]
      exact ih hu
    · rw [hincumbent, hvalue]
      rfl

theorem run_eq (h : s.numCols ≠ 0) (passes cap : Nat) (cutoff : α) :
    ∃ t, StateAt s passes cutoff cap t ∧
      run s (.activity passes) cap cutoff () = (.ok t.result, ()) := by
  obtain ⟨t, ht, -⟩ := loop_total passes cap (fits_start s cutoff)
  refine ⟨t, ⟨h, ht⟩, ?_⟩
  unfold run
  rw [if_neg h, ht]

theorem run_of_numCols_eq_zero (h : s.numCols = 0) (passes cap : Nat) (cutoff : α) :
    run s (.activity passes) cap cutoff () = (.ok (fixedResult s cutoff), ()) :=
  if_pos h

theorem solution_fixedResult {cutoff : α} {x : Array α}
    (h : (fixedResult s cutoff).solution = some x) :
    x = #[] ∧ (fixedResult s cutoff).objective = s.offset ∧ s.offset < cutoff := by
  unfold fixedResult at h ⊢
  split at h
  · rename_i hlt
    cases h
    exact ⟨rfl, by rw [if_pos hlt], hlt⟩
  · cases h

end Trace

/-! ### Floating-point costs -/

section Cutoff

variable {s : SubProblem Binary64} {passes cap : Nat} {cutoff : Binary64} {t : Search Binary64}

/-- Whoever does not lapse accepts only what is cheaper. -/
theorem Accepts.lt_value {c : Box Binary64} {x : Array Binary64} (ht : t.Fits s)
    (hv : t.value.isNaN = false) (h : t.Accepts s passes c x) (hl : ¬ t.Lapses s passes) :
    s.objectiveValue x < t.value := by
  by_contra hlt
  -- a point that is no cheaper would be a lapse but for a bound that is its cost
  have hnot : ¬ (s.isLimited c = false ∨ (s.objectiveValue x).isNaN = true) :=
    fun k => hl ⟨c, x, h, k, hlt⟩
  rw [not_or, Bool.not_eq_false, Bool.not_eq_true] at hnot
  obtain ⟨hlimited, hx⟩ := hnot
  obtain ⟨rfl, hlow⟩ := h.eq_corner ht
  unfold SubProblem.cornerBound at hlow
  rw [if_pos hlimited] at hlow
  apply hlt
  apply Binary64.lt_of_not_sub_objTol_le hv hx
  exact of_decide_eq_false hlow

/-- Until a search lapses its best value is a number, and below the cutoff once there is an
incumbent. -/
theorem StateAt.value_lt {k : Nat} (hcutoff : cutoff.isNaN = false)
    (hl : ∀ j < k, ∀ u, StateAt s passes cutoff j u → ¬ u.Lapses s passes)
    (h : StateAt s passes cutoff k t) :
    t.value.isNaN = false ∧ (t.incumbent.isSome = true → t.value < cutoff) := by
  induction k generalizing t with
  | zero =>
    obtain ⟨-, h⟩ := h
    cases h
    exact ⟨hcutoff, fun hsome => by cases hsome⟩
  | succ k ih =>
    obtain ⟨u, hu⟩ := h.previous
    obtain ⟨t', ht', hstep⟩ := hu.next
    obtain rfl := h.eq ht'
    obtain ⟨hnumber, hbelow⟩ := ih (fun j hj => hl j (by omega)) hu
    rcases hstep with ⟨-, hincumbent, hvalue⟩ | ⟨c, x, hx, hincumbent, hvalue⟩
    · rw [hincumbent, hvalue]
      exact ⟨hnumber, hbelow⟩
    · -- the last node did not lapse, so its point is cheaper
      have hlt : t.value < u.value := by
        rw [hvalue]
        exact hx.lt_value hu.fits hnumber (hl k (by omega) u hu)
      refine ⟨(Binary64.isNaN_of_lt hlt).1, fun _ => ?_⟩
      cases hi : u.incumbent with
      | none =>
        have hstart : u.value = cutoff := by
          rw [hu.value_eq, hi]
          rfl
        exact hstart ▸ hlt
      | some y => exact Binary64.lt_trans hlt (hbelow (by rw [hi]; rfl))

theorem objectiveValue_empty (h : s.offset.isNaN = false) : s.objectiveValue #[] = s.offset := by
  unfold SubProblem.objectiveValue
  rw [List.zipWith_nil_right]
  exact Binary64.add_negZero h

/-- The result reports the cost of its solution. -/
theorem run_objective (s : SubProblem Binary64) (passes cap : Nat) (cutoff : Binary64) :
    ∃ r, run s (.activity passes) cap cutoff () = (.ok r, ()) ∧
      ∀ x, r.solution = some x → r.objective = s.objectiveValue x := by
  by_cases hcols : s.numCols = 0
  · refine ⟨_, run_of_numCols_eq_zero hcols passes cap cutoff, fun x hx => ?_⟩
    obtain ⟨rfl, hoffset, hlt⟩ := solution_fixedResult hx
    rw [hoffset, objectiveValue_empty (Binary64.isNaN_of_lt hlt).1]
  · obtain ⟨t, ht, hrun⟩ := run_eq hcols passes cap cutoff
    refine ⟨_, hrun, fun x hx => ?_⟩
    have hvalue := ht.value_eq
    rw [show t.incumbent = some x from hx] at hvalue
    exact hvalue

/-- A search that never lapses keeps its cutoff. -/
theorem keepsCutoff_of_not_lapses (hcutoff : cutoff.isNaN = false)
    (hl : ∀ k < cap, ∀ t, StateAt s passes cutoff k t → ¬ t.Lapses s passes) :
    KeepsCutoff s passes cap cutoff := by
  constructor
  · intro r hr hsome
    by_cases hcols : s.numCols = 0
    · rw [run_of_numCols_eq_zero hcols] at hr
      cases hr
      obtain ⟨x, hx⟩ := Option.isSome_iff_exists.1 hsome
      obtain ⟨-, hoffset, hlt⟩ := solution_fixedResult hx
      exact hoffset ▸ hlt
    · obtain ⟨t, ht, hrun⟩ := run_eq hcols passes cap cutoff
      rw [hrun] at hr
      cases hr
      exact (ht.value_lt hcutoff hl).2 hsome
  · intro k hk t t' ht ht'
    obtain ⟨u, hu, hstep⟩ := ht.next
    obtain rfl := hu.eq ht'
    rcases hstep with hsame | ⟨c, x, hx, hincumbent, hvalue⟩
    · exact .inl hsame
    · refine .inr ⟨c, x, hx, hincumbent, hvalue, ?_⟩
      rw [hvalue]
      obtain ⟨hnumber, -⟩ := ht.value_lt hcutoff fun j hj => hl j (by omega)
      exact hx.lt_value ht.fits hnumber (hl k hk t ht)

/-- A search that keeps its cutoff never lapses. -/
theorem KeepsCutoff.not_lapses (h : KeepsCutoff s passes cap cutoff) {k : Nat} (hk : k < cap)
    (ht : StateAt s passes cutoff k t) : ¬ t.Lapses s passes := by
  rintro ⟨c, x, hx, -, hnot⟩
  obtain ⟨t', ht', -⟩ := ht.next
  rcases h.incumbent_lt k hk t t' ht ht' with ⟨hnone, -⟩ | ⟨d, y, hy, -, hvalue, hlt⟩
  · exact hnone c x hx
  · obtain rfl := hx.unique hy
    rw [hvalue] at hlt
    exact hnot hlt

/-- The cutoff of a search: there always is a result, which reports the cost of its solution. The
incumbents get cheaper, from the cutoff on, if and only if no node lapses. -/
theorem keepsCutoff_iff (s : SubProblem Binary64) (passes cap : Nat) {cutoff : Binary64}
    (hcutoff : cutoff.isNaN = false) :
    (∃ r, run s (.activity passes) cap cutoff () = (.ok r, ()) ∧
      ∀ x, r.solution = some x → r.objective = s.objectiveValue x) ∧
    (KeepsCutoff s passes cap cutoff ↔
      ∀ k < cap, ∀ t, StateAt s passes cutoff k t → ¬ t.Lapses s passes) :=
  ⟨run_objective s passes cap cutoff, fun h _ hk _ ht => h.not_lapses hk ht,
    keepsCutoff_of_not_lapses hcutoff⟩

/-- The rows of the cone below. -/
def coneRows : Array (Line Binary64) :=
  #[[(0, 1), (1, -1)], [(0, 1), (1, 1)]]

theorem ordered_coneRows : ∀ l ∈ coneRows, l.Ordered 2 := by
  simp only [coneRows, Line.Ordered]
  decide +kernel

theorem noZeros_coneRows : ∀ l ∈ coneRows, l.NoZeros := by
  simp only [coneRows, Line.NoZeros]
  decide +kernel

/-- Two integer columns without bounds, and two rows that say that the first one is not below the
distance of the second one from zero. The first one has cost one, so no point has a cost below
zero. -/
def cone : SubProblem Binary64 where
  columns := #[⟨0, 1, -Scalar.infinity, Scalar.infinity, true⟩,
    ⟨1, 0, -Scalar.infinity, Scalar.infinity, true⟩]
  rows := #[⟨0, 0, Scalar.infinity⟩, ⟨1, 0, Scalar.infinity⟩]
  matrix := .ofRows 2 coneRows ordered_coneRows noZeros_coneRows
  offset := 0
  originalSize := 4
  numCols_matrix := rfl
  numRows_matrix := rfl
  rows_nonempty := by simp [Matrix.ofRows, coneRows]

theorem keepsCutoff_iff_cone : (Binary64.ofNat 7).isNaN = false ∧
    ∃ r, run cone (.activity 8) 10 (Binary64.ofNat 7) () = (.ok r, ()) ∧
      ∀ x, r.solution = some x → r.objective = cone.objectiveValue x := by
  have hcutoff : (Binary64.ofNat 7).isNaN = false := by decide +kernel
  exact ⟨hcutoff, (keepsCutoff_iff cone 8 10 hcutoff).1⟩

/-- After solutions below minus one, the search returns one of cost zero. -/
theorem not_keepsCutoff_cone : ¬ KeepsCutoff cone 8 10 (-1) := by
  intro h
  have hrun : (run cone (.activity 8) 10 (-1) ()).1.toOption.map
      (fun r => (r.solution.isSome, r.objective)) = some (true, 0) := by
    decide +kernel
  have hlt : ¬ (0 : Binary64) < -1 := by decide +kernel
  obtain ⟨r, hr, -⟩ := run_objective cone 8 10 (-1)
  rw [hr] at hrun
  obtain ⟨hsome, hobjective⟩ := Prod.mk.inj (Option.some.inj hrun)
  exact hlt (hobjective ▸ h.result_lt r hr hsome)

end Cutoff

end Search

end PrimalHeuristics
