import PrimalHeuristics.Proofs.Feasibility
import PrimalHeuristics.SubProblem.Propagation

/-!
# Runs of the propagation

Propagation reads bounds that are there, so it never breaks a rule on a box of the right size. What
one entry of a row preserves, a row, a sweep and all sweeps preserve, and this module carries such
properties from the small steps to the large ones.

* `foldUntil_rule`, `foldUntil_rule_mem`: a property of a run that may stop, from one of its steps;
* `Propagation.tightenEntry_eq`, `Propagation.tightenRow_eq`: the steps, on boxes of the right size;
* `Propagation.sweeps_rule`, `Propagation.bound_rule`: properties of boxes that rows preserve;
* `Propagation.columns_of_bound`: properties of the bounds of each column that entries preserve;
* `SubProblem.corner`, `SubProblem.cheapestCorner_eq`: the cheapest corner of a box;
* `Propagation.bound_hasSize`: the relaxation always answers.
-/

namespace PrimalHeuristics

/-! ### Runs that may stop -/

/-- `E` holds of a result that stopped a run, and `I` of one that did not. -/
def Ends {ε σ : Type} (E : ε → Prop) (I : σ → Prop) : Except ε σ → Prop
  | .error e => E e
  | .ok t => I t

section

variable {σ ε β : Type} {f : σ → β → Checked (Except ε σ)}

/-- The invariant of a run may depend on the steps that are still to be taken. -/
theorem foldUntil_rule {E : ε → Prop} {I : List β → σ → Prop}
    (hstep : ∀ b l s, I (b :: l) s → ∃ a, f s b = .ok a ∧ Ends E (I l) a) (l : List β) (s : σ)
    (h : I l s) : ∃ a, foldUntil f l s = .ok a ∧ Ends E (I []) a := by
  induction l generalizing s with
  | nil => exact ⟨.ok s, rfl, h⟩
  | cons b l ih =>
    obtain ⟨a, hb, ha⟩ := hstep b l s h
    cases a with
    | error e => exact ⟨.error e, by simp [foldUntil, hb], ha⟩
    | ok t =>
      obtain ⟨a, hl, ha⟩ := ih t ha
      exact ⟨a, by rw [foldUntil_cons l hb, hl], ha⟩

/-- An invariant of all steps that are to be taken. -/
theorem foldUntil_rule_mem {E : ε → Prop} {I : σ → Prop} {l : List β}
    (hstep : ∀ b ∈ l, ∀ s, I s → ∃ a, f s b = .ok a ∧ Ends E I a) {s : σ} (h : I s) :
    ∃ a, foldUntil f l s = .ok a ∧ Ends E I a := by
  obtain ⟨a, ha, hends⟩ := foldUntil_rule (f := f) (E := E) (I := fun k s => k ⊆ l ∧ I s)
    (fun b k s ⟨hk, hs⟩ => by
      obtain ⟨hb, hk⟩ := List.cons_subset.1 hk
      obtain ⟨a, ha, hends⟩ := hstep b hb s hs
      refine ⟨a, ha, ?_⟩
      cases a with
      | error e => exact hends
      | ok t => exact ⟨hk, hends⟩)
    l s ⟨List.Subset.refl l, h⟩
  refine ⟨a, ha, ?_⟩
  cases a with
  | error e => exact hends
  | ok t => exact hends.2

end

variable {α : Type} [Scalar α]

/-! ### Steps on boxes of the right size -/

/-- The activities of a row over a box. -/
def ActivityRange.onBox (l : Line α) (b : Box α) : ActivityRange α :=
  l.foldl (fun g e =>
    let c := contribution e.2 (b.lower.getD e.1 0) (b.upper.getD e.1 0)
    (g.addMin c.1).addMax c.2) empty

theorem ActivityRange.ofLine_eq {n : Nat} {l : Line α} {b : Box α} (hl : ∀ e ∈ l, e.1 < n)
    (hb : b.HasSize n) : ofLine l b = .ok (onBox l b) := by
  unfold ofLine onBox
  refine Checked.foldlM_eq (fun g e he => ?_) _
  rw [Checked.read_eq_getD (hb.1 ▸ hl e he) 0, Checked.read_eq_getD (hb.2 ▸ hl e he) 0]
  rfl

namespace Propagation

variable {s : SubProblem α}

/-- The bounds that a row leaves to the column of one of its entries. -/
def leftTo (s : SubProblem α) (bounds : RowBounds α) (g : ActivityRange α) (b : Box α)
    (e : Nat × α) : α × α :=
  toWhole (s.isInteger e.1)
    (limits bounds g e.2 (b.lower.getD e.1 0) (b.upper.getD e.1 0))

theorem tightenEntry_eq {bounds : RowBounds α} {g : ActivityRange α} {p : Progress α}
    {e : Nat × α} (hp : p.box.HasSize s.numCols) (he : e.1 < s.numCols) :
    tightenEntry s bounds g p e = .ok
      (if (leftTo s bounds g p.box e).2 + Scalar.feasTol < (leftTo s bounds g p.box e).1
        then .error p.box
        else .ok (p.tighten e.1 (p.box.lower.getD e.1 0) (p.box.upper.getD e.1 0)
          (leftTo s bounds g p.box e))) := by
  unfold tightenEntry leftTo
  rw [Checked.read_eq_getD (hp.1 ▸ he) 0, Checked.read_eq_getD (hp.2 ▸ he) 0]
  simp only [Checked.ok_bind, Checked.pure_eq]
  split <;> rfl

theorem tightenRow_eq {p : Progress α} (hp : p.box.HasSize s.numCols) (r : Nat) :
    tightenRow s p r =
      if (s.boundsOf r).upper + Scalar.feasTol < (ActivityRange.onBox (s.matrix.row r) p.box).min ∨
          (ActivityRange.onBox (s.matrix.row r) p.box).max < (s.boundsOf r).lower - Scalar.feasTol
        then .ok (.error p.box)
        else foldUntil
          (tightenEntry s (s.boundsOf r) (ActivityRange.onBox (s.matrix.row r) p.box))
          (s.matrix.row r) p := by
  unfold tightenRow
  rw [ActivityRange.ofLine_eq (fun e he => SubProblem.lt_of_mem_row he) hp]
  simp only [Checked.ok_bind, Checked.pure_eq, Bool.or_eq_true, decide_eq_true_eq]

/-! ### From rows to sweeps -/

section Rules

variable {E I : Box α → Prop}

theorem sweep_rule (hrow : ∀ p r, r < s.numRows → I p.box →
      ∃ a, tightenRow s p r = .ok a ∧ Ends E (fun q : Progress α => I q.box) a)
    {b : Box α} (hb : I b) :
    ∃ a, sweep s b = .ok a ∧ Ends E (fun q : Progress α => I q.box) a :=
  foldUntil_rule_mem (I := fun p => I p.box)
    (fun r hr p hp => hrow p r (List.mem_range.1 hr) hp) hb

theorem sweeps_rule (hrow : ∀ p r, r < s.numRows → I p.box →
      ∃ a, tightenRow s p r = .ok a ∧ Ends E (fun q : Progress α => I q.box) a)
    (passes : Nat) {b : Box α} (hb : I b) : ∃ a, sweeps s passes b = .ok a ∧ Ends E I a := by
  induction passes generalizing b with
  | zero => exact ⟨.ok b, rfl, hb⟩
  | succ passes ih =>
    obtain ⟨a, ha, hends⟩ := sweep_rule hrow hb
    unfold sweeps
    rw [ha]
    cases a with
    | error b => exact ⟨.error b, rfl, hends⟩
    | ok q =>
      by_cases hc : q.changed = true
      · simpa only [hc, if_true] using ih hends
      · exact ⟨.ok q.box, by simp [hc], hends⟩

end Rules

theorem hasSize_tighten {p : Progress α} {n : Nat} (hp : p.box.HasSize n) (c : Nat)
    (lower upper : α) (l : α × α) : (p.tighten c lower upper l).box.HasSize n := by
  obtain ⟨hl, hu⟩ := hp
  unfold Progress.tighten Box.HasSize
  split <;> split <;> simp [hl, hu]

section Tighten

variable {p : Progress α} {c j : Nat} {lower upper : α} {l : α × α}

theorem getD_lower_tighten (hc : c < p.box.lower.size) :
    (p.tighten c lower upper l).box.lower.getD j 0 =
      if c = j ∧ lower + Scalar.feasTol < l.1 then l.1 else p.box.lower.getD j 0 := by
  unfold Progress.tighten
  by_cases hl : lower + Scalar.feasTol < l.1 <;> by_cases hu : l.2 < upper - Scalar.feasTol
  · simp only [hl, hu, if_true, and_true]
    exact getD_setIfInBounds hc
  · simp only [hl, hu, if_true, if_false, and_true]
    exact getD_setIfInBounds hc
  · simp only [hl, hu, if_true, if_false, and_false]
  · simp only [hl, hu, if_false, and_false]

theorem getD_upper_tighten (hc : c < p.box.upper.size) :
    (p.tighten c lower upper l).box.upper.getD j 0 =
      if c = j ∧ l.2 < upper - Scalar.feasTol then l.2 else p.box.upper.getD j 0 := by
  unfold Progress.tighten
  by_cases hl : lower + Scalar.feasTol < l.1 <;> by_cases hu : l.2 < upper - Scalar.feasTol
  · simp only [hl, hu, if_true, and_true]
    exact getD_setIfInBounds hc
  · simp only [hl, hu, if_true, if_false, and_false]
  · simp only [hl, hu, if_true, if_false, and_true]
    exact getD_setIfInBounds hc
  · simp only [hl, hu, if_false, and_false]

end Tighten

/-- A row never breaks a rule, and keeps the size of the box. -/
theorem tightenRow_hasSize {p : Progress α} (hp : p.box.HasSize s.numCols) (r : Nat) :
    ∃ a, tightenRow s p r = .ok a ∧ Ends (fun b : Box α => b.HasSize s.numCols)
      (fun q : Progress α => q.box.HasSize s.numCols) a := by
  rw [tightenRow_eq hp]
  split
  · exact ⟨_, rfl, hp⟩
  · refine foldUntil_rule_mem (I := fun q : Progress α => q.box.HasSize s.numCols)
      (fun e he q hq => ?_) hp
    refine ⟨_, tightenEntry_eq hq (SubProblem.lt_of_mem_row he), ?_⟩
    split
    · exact hq
    · exact hasSize_tighten hq ..

end Propagation

/-! ### The cheapest corner -/

namespace SubProblem

/-- The cheapest value between two bounds, and whether the cost has a least value there. -/
def cheapest (cost lower upper : α) : α × Bool :=
  let preferred := if 0 ≤ cost then lower else upper
  let other := if 0 ≤ cost then upper else lower
  if Scalar.isBound preferred then (preferred, true)
  else (if Scalar.isBound other then other else 0, cost == 0)

/-- The cheapest entry for a column of a box. -/
def cornerEntry (k : SubColumn α) (b : Box α) (j : Nat) : α × Bool :=
  cheapest k.objective (b.lower.getD j 0) (b.upper.getD j 0)

theorem cheapestEntryAt_eq {k : SubColumn α} {b : Box α} {j : Nat} (hl : j < b.lower.size)
    (hu : j < b.upper.size) : cheapestEntryAt k b j = .ok (cornerEntry k b j) := by
  unfold cheapestEntryAt cornerEntry cheapest
  by_cases h : 0 ≤ k.objective
  · simp only [h, if_true]
    rw [Checked.read_eq_getD hl 0, Checked.read_eq_getD hu 0]
    exact (apply_ite Except.ok _ _ _).symm
  · simp only [h, if_false]
    rw [Checked.read_eq_getD hl 0, Checked.read_eq_getD hu 0]
    exact (apply_ite Except.ok _ _ _).symm

variable (s : SubProblem α) (b : Box α)

/-- The point of a box of least cost, if rows are left out. -/
def corner : Array α :=
  (s.columns.toList.zipIdx.map fun (k, j) => (cornerEntry k b j).1).toArray

/-- The cost has a least value in a box. -/
def isLimited : Bool :=
  s.columns.toList.zipIdx.all fun (k, j) => (cornerEntry k b j).2

/-- The least cost in a box, if rows are left out. -/
def cornerBound : α :=
  if s.isLimited b then s.objectiveValue (s.corner b) else -Scalar.infinity

@[simp] theorem size_corner : (s.corner b).size = s.numCols := by
  simp [corner, numCols]

variable {s b}

theorem getD_corner {j : Nat} {k : SubColumn α} (hk : s.columns[j]? = some k) :
    (s.corner b).getD j 0 = (cornerEntry k b j).1 := by
  simp [corner, hk]

theorem isLimited_iff :
    s.isLimited b = true ↔ ∀ j k, s.columns[j]? = some k → (cornerEntry k b j).2 = true := by
  rw [isLimited, List.all_eq_true]
  constructor
  · intro h j k hk
    exact h (k, j) (List.mk_mem_zipIdx_iff_getElem?.2 (by simpa using hk))
  · rintro h ⟨k, j⟩ hk
    exact h j k (by simpa using List.mk_mem_zipIdx_iff_getElem?.1 hk)

theorem cheapestCorner_eq (hb : b.HasSize s.numCols) :
    s.cheapestCorner b = .ok (.bounded (s.cornerBound b) (s.corner b)) := by
  have hentries : s.columns.toList.zipIdx.mapM (fun (k, j) => cheapestEntryAt k b j) =
      .ok (s.columns.toList.zipIdx.map fun (k, j) => cornerEntry k b j) :=
    Checked.mapM_eq fun ⟨k, j⟩ hk => by
      obtain ⟨-, hj, -⟩ := List.mem_zipIdx hk
      have hj : j < s.numCols := by simpa [numCols] using hj
      exact cheapestEntryAt_eq (hb.1 ▸ hj) (hb.2 ▸ hj)
  unfold cheapestCorner
  rw [hentries]
  simp only [Checked.ok_bind, Checked.pure_eq]
  rw [List.map_map, List.all_map]
  rfl

end SubProblem

/-! ### Bounding a node -/

namespace Propagation

variable {s : SubProblem α}

theorem bound_of_stopped {passes : Nat} {b c : Box α} (h : sweeps s passes b = .ok (.error c)) :
    bound passes s b = .ok (.infeasible, c) := by
  unfold bound
  rw [h]
  rfl

theorem bound_of_swept {passes : Nat} {b c : Box α} (h : sweeps s passes b = .ok (.ok c))
    (hc : c.HasSize s.numCols) :
    bound passes s b = .ok (.bounded (s.cornerBound c) (s.corner c), c) := by
  unfold bound
  rw [h]
  simp only [Checked.ok_bind]
  rw [SubProblem.cheapestCorner_eq hc]
  rfl

/-- Bounding a node never breaks a rule: either a row stopped a sweep, or the answer is the cheapest
corner of the box that is left. -/
theorem bound_rule {E I : Box α → Prop} (hsize : ∀ b, I b → b.HasSize s.numCols)
    (hrow : ∀ p r, r < s.numRows → I p.box →
      ∃ a, tightenRow s p r = .ok a ∧ Ends E (fun q : Progress α => I q.box) a)
    (passes : Nat) {b : Box α} (hb : I b) :
    ∃ c, (E c ∧ bound passes s b = .ok (.infeasible, c)) ∨
      (I c ∧ bound passes s b = .ok (.bounded (s.cornerBound c) (s.corner c), c)) := by
  obtain ⟨a, ha, hends⟩ := sweeps_rule hrow passes hb
  cases a with
  | error c => exact ⟨c, .inl ⟨hends, bound_of_stopped ha⟩⟩
  | ok c => exact ⟨c, .inr ⟨hends, bound_of_swept ha (hsize c hends)⟩⟩

/-- The bounds of a column after one entry of a row, if the row leaves it `l`. -/
def moveBounds (lower upper : α) (l : α × α) : α × α :=
  (if lower + Scalar.feasTol < l.1 then l.1 else lower,
    if l.2 < upper - Scalar.feasTol then l.2 else upper)

/-- What one entry of a row keeps of the bounds of its column, the relaxation keeps of all
columns. -/
theorem columns_of_bound {P : Nat → α → α → Prop}
    (hentry : ∀ r, ∀ e ∈ s.matrix.row r, ∀ (bounds : RowBounds α) (g : ActivityRange α)
      (lower upper : α) (l : α × α), P e.1 lower upper →
      l = toWhole (s.isInteger e.1) (limits bounds g e.2 lower upper) →
      ¬ l.2 + Scalar.feasTol < l.1 → P e.1 (moveBounds lower upper l).1 (moveBounds lower upper l).2)
    {passes : Nat} {b c : Box α} {o : α} {x : Array α} (hb : b.HasSize s.numCols)
    (hP : ∀ j < s.numCols, P j (b.lower.getD j 0) (b.upper.getD j 0))
    (h : bound passes s b = .ok (.bounded o x, c)) :
    ∀ j < s.numCols, P j (c.lower.getD j 0) (c.upper.getD j 0) := by
  let I (b : Box α) : Prop :=
    b.HasSize s.numCols ∧ ∀ j < s.numCols, P j (b.lower.getD j 0) (b.upper.getD j 0)
  have hrow (p : Progress α) (r : Nat) (hp : I p.box) : ∃ a, tightenRow s p r = .ok a ∧
      Ends (fun _ => True) (fun q : Progress α => I q.box) a := by
    rw [tightenRow_eq hp.1]
    split
    · exact ⟨_, rfl, trivial⟩
    · refine foldUntil_rule_mem (I := fun q : Progress α => I q.box) (fun e he q ⟨hq, hqP⟩ => ?_) hp
      have hc := SubProblem.lt_of_mem_row he
      refine ⟨_, tightenEntry_eq hq hc, ?_⟩
      split
      · trivial
      · refine ⟨hasSize_tighten hq .., fun j hj => ?_⟩
        rw [getD_lower_tighten (hq.1 ▸ hc), getD_upper_tighten (hq.2 ▸ hc)]
        by_cases hej : e.1 = j
        · subst hej
          simp only [true_and]
          exact hentry r e he _ _ _ _ _ (hqP _ hc) rfl ‹_›
        · rw [if_neg fun h => hej h.1, if_neg fun h => hej h.1]
          exact hqP j hj
  obtain ⟨d, ⟨-, hd⟩ | ⟨hdP, hd⟩⟩ := bound_rule (E := fun _ => True) (I := I) (fun d hd => hd.1)
    (fun p r _ hp => hrow p r hp) passes ⟨hb, hP⟩
  · rw [hd] at h
    cases h
  · rw [hd] at h
    cases h
    exact hdP.2

/-- On a box of the right size the relaxation answers, and keeps the size. -/
theorem bound_hasSize (passes : Nat) {b : Box α} (hb : b.HasSize s.numCols) :
    ∃ c : Box α, c.HasSize s.numCols ∧ (bound passes s b = .ok (.infeasible, c) ∨
      bound passes s b = .ok (.bounded (s.cornerBound c) (s.corner c), c)) := by
  obtain ⟨c, ⟨hc, h⟩ | ⟨hc, h⟩⟩ := bound_rule (fun _ h => h)
    (fun p r _ hp => tightenRow_hasSize hp r) passes hb
  · exact ⟨c, hc, .inl h⟩
  · exact ⟨c, hc, .inr h⟩

end Propagation

end PrimalHeuristics
