import PrimalHeuristics.Heuristic
import PrimalHeuristics.Proofs.Restriction
import PrimalHeuristics.Proofs.Search.Cutoff

/-!
# What does not stop a run

Once a heuristic has a point, nothing stops its run: vectors are as long as they are read, no matrix
entry lies outside, a sub-problem has integer columns only, and its search does not fail. A repair
goes on, too, if the ends of all bounds can be compared.

* `Node.HasSize`: the vectors of a node fit a problem;
* `Search.exists_run_eq`: a search has a result;
* `Attempt.exists_complete_eq`: a completion of integer columns has an end;
* `Attempt.exists_settle_eq`: so has the check of a candidate;
* `Box.exists_nearest_eq`, `Box.nearest_eq_error`: a box has a nearest point if and only if its
  bounds are in order;
* `repair_rule`, `exists_repair_eq`: what the moves keep, a repair keeps, and it has an end;
* `Serendipity.exists_answer_trial`: a run of serendipity never stops.
-/

namespace PrimalHeuristics

open SubProblem

variable {α : Type} [Scalar α]

/-! ### Searches -/

namespace Search

variable {s : SubProblem α} {passes : Nat} {t t' : Search α}

/-- An incumbent has one entry for each column. -/
theorem Step.size_incumbent {n : OpenNode α} (h : Step s passes t n t')
    (ht : ∀ x, t.incumbent = some x → x.size = s.numCols) :
    ∀ x, t'.incumbent = some x → x.size = s.numCols := by
  cases h with
  | pruned | infeasible | costly | dropped => exact ht
  | accepted =>
    intro x hx
    cases hx
    exact s.size_corner _
  | branched =>
    rw [incumbent_branched]
    exact ht

/-- A search with propagation has a result. -/
theorem exists_run_eq (s : SubProblem α) (passes cap : Nat) (cutoff : α) :
    ∃ r, run s (.activity passes) cap cutoff () = (.ok r, ()) ∧
      ∀ x, r.solution = some x → x.size = s.numCols := by
  by_cases hcols : s.numCols = 0
  · refine ⟨_, run_of_numCols_eq_zero hcols passes cap cutoff, fun x hx => ?_⟩
    rw [(solution_fixedResult hx).1, hcols]
    rfl
  · obtain ⟨t, ht, -, hsize⟩ := loop_rule
      (P := fun t => t.Fits s ∧ ∀ x, t.incumbent = some x → x.size = s.numCols) (fun _ h => h.1)
      (fun t n q t' h hpop hs => ⟨hs.fits (fits_of_pop h.1 hpop), hs.size_incumbent h.2⟩) cap
      ⟨fits_start s cutoff, nofun⟩
    refine ⟨t.result, ?_, hsize⟩
    unfold run
    rw [if_neg hcols, ht]

end Search

theorem Settings.exists_subSolve_eq (s : Settings α) {sub : SubProblem α}
    (hnone : sub.freeContinuousColumn = none) (cap : Nat) (cutoff : α) (label : String) :
    ∃ r report, s.subSolve sub cap cutoff label = .ok (r, report) ∧
      ∀ x, r.solution = some x → x.size = sub.numCols := by
  obtain ⟨r, hr, hsize⟩ := Search.exists_run_eq sub Relaxation.defaultPasses cap cutoff
  obtain ⟨report, hreport⟩ := s.subSolve_of_run hnone hr label
  exact ⟨r, report, hreport, hsize⟩

/-! ### Columns of a node -/

/-- The vectors of a node that every run reads have one entry for each of `k` columns. -/
structure Node.HasSize (n : Node α) (k : Nat) : Prop where
  solution : n.solution.size = k
  box : n.box.HasSize k

theorem Problem.mem_integerColumns {p : Problem α} {c : Nat} :
    c ∈ p.integerColumns ↔ c < p.numCols ∧ p.isInteger c = true := by
  unfold integerColumns
  rw [List.mem_filter, List.mem_range]

/-! ### Free columns -/

namespace SubProblem

variable {p : Problem α} {b : Box α} {free : Array Bool} {values : Array α} {m : Matrix α}
  {h : freeMatrix? p free = .ok m}

/-- A column of the sub-problem is a free column of the problem. -/
theorem exists_origin {k : SubColumn α} (hk : k ∈ (ofFree p values free b m h).columns) :
    ∃ c < p.numCols, isFree free c = true ∧
      k = ⟨c, p.cost c, b.lower.getD c 0, b.upper.getD c 0, p.isInteger c⟩ := by
  obtain ⟨c, hc, rfl⟩ := List.mem_map.1 (List.mem_toArray.1 hk)
  obtain ⟨hc, hf⟩ := mem_freeColumns.1 hc
  exact ⟨c, hc, hf, rfl⟩

/-- A sub-problem of integer columns is not refused. -/
theorem freeContinuousColumn_ofFree
    (hfree : ∀ c < p.numCols, isFree free c = true → p.isInteger c = true) :
    (ofFree p values free b m h).freeContinuousColumn = none := by
  have hnone : (ofFree p values free b m h).columns.find?
      (fun k => !k.integer && k.lower < k.upper) = none := by
    rw [Array.find?_eq_none]
    intro k hk
    obtain ⟨c, hc, hf, rfl⟩ := exists_origin hk
    simp [hfree c hc hf]
  rw [freeContinuousColumn, hnone, Option.map_none]

end SubProblem

namespace PartialFix

variable {f : PartialFix} {p : Problem α}

theorem mem_fixSetOf {priority : Int} {c : Nat}
    (h : c ∈ fixSetOf p priority) : c ∈ p.integerColumns :=
  (List.mem_filter.1 h).1

/-- The vector from which columns are fixed has one entry for each column. -/
theorem size_source {n : Node α} (hn : n.HasSize p.numCols) : (source p n).size = p.numCols := by
  unfold source
  split
  · split
    · assumption
    · exact hn.solution
  · exact hn.solution

theorem isFree_freeFlags (f : PartialFix) (k : SubSolver) {c : Nat} (hc : c < p.numCols) :
    isFree (f.freeFlags k p) c = (!f.fixSet.contains c && p.isInteger c) := by
  cases k
  simp [isFree, freeFlags, SubSolver.handlesContinuous, hc]

/-- A column that is not free is continuous, or in the fix set. -/
theorem isFree_eq_false_iff {k : SubSolver} {c : Nat} (hc : c < p.numCols) :
    isFree (f.freeFlags k p) c = false ↔ c ∈ f.fixSet ∨ p.isInteger c = false := by
  rw [isFree_freeFlags f k hc]
  cases p.isInteger c <;> simp

@[simp] theorem size_freeFlags (f : PartialFix) (k : SubSolver) :
    (f.freeFlags k p).size = p.numCols := by
  simp [freeFlags]

theorem isInteger_of_isFree {k : SubSolver} {c : Nat} (hc : c < p.numCols)
    (hf : isFree (f.freeFlags k p) c = true) : p.isInteger c = true := by
  rw [isFree_freeFlags f k hc, Bool.and_eq_true] at hf
  exact hf.2

end PartialFix

/-- Flags of the free columns of a problem, all of them integer columns. -/
structure SubProblem.FreesIntegers (p : Problem α) (free : Array Bool) : Prop where
  size : free.size = p.numCols
  isInteger : ∀ c < p.numCols, isFree free c = true → p.isInteger c = true

theorem PartialFix.freesIntegers_freeFlags (f : PartialFix) (k : SubSolver) (p : Problem α) :
    FreesIntegers p (f.freeFlags k p) :=
  ⟨size_freeFlags f k, fun _ hc hf => isInteger_of_isFree hc hf⟩

theorem SubProblem.FreesIntegers.set {p : Problem α} {free : Array Bool}
    (h : FreesIntegers p free) (c : Nat) :
    FreesIntegers p (free.setIfInBounds c (p.isInteger c)) := by
  refine ⟨by simpa using h.size, fun d hd hf => ?_⟩
  by_cases hc : c < free.size
  · rw [isFree, getD_setIfInBounds hc] at hf
    split at hf
    · rename_i heq
      exact heq ▸ hf
    · exact h.isInteger d hd hf
  · rw [Array.setIfInBounds_def, dif_neg hc] at hf
    exact h.isInteger d hd hf

theorem Rounding.freesIntegers_freeFlags (k : SubSolver) (p : Problem α) (rows : List Nat) :
    FreesIntegers p (freeFlags k p rows) := by
  have hstart : FreesIntegers p (Array.replicate p.numCols false) := by
    refine ⟨by simp, fun c hc hf => ?_⟩
    simp [isFree, hc] at hf
  cases k
  simp only [freeFlags, SubSolver.handlesContinuous, Bool.or_false]
  exact List.foldlRecOn rows _ hstart fun _ hfree r _ =>
    List.foldlRecOn (p.matrix.row r) _ hfree fun _ hfree e _ => hfree.set e.1

/-! ### Candidates -/

section Candidates

variable {p : Problem α} {b : Box α} {x : Array α}

/-- A completion of integer columns ends with a candidate or without one. -/
theorem Attempt.exists_complete_eq (s : Settings α) (hx : x.size = p.numCols) {free : Array Bool}
    (hfree : FreesIntegers p free) (hb : b.HasSize p.numCols) (cutoff : α) (label : String)
    (tooLarge : SubProblem α → List (Message α)) :
    ∃ o, (complete s p b x free cutoff label tooLarge).candidate = .ok o := by
  unfold complete
  rw [restrict_eq hx hfree.size hb]
  by_cases hblocked : (List.range p.numRows).any (isBlocked p free x) = true
  · rw [if_pos hblocked]
    exact ⟨none, rfl⟩
  · rw [if_neg hblocked]
    dsimp only
    split
    · obtain ⟨r, report, hsolved, hsize⟩ := s.exists_subSolve_eq
        (freeContinuousColumn_ofFree (b := b) (h := freeMatrix?_eq p free) hfree.isInteger)
        s.numberNodes.toNat cutoff label
      rw [hsolved]
      dsimp only
      cases hy : r.solution with
      | none => exact ⟨none, rfl⟩
      | some y =>
        obtain ⟨full, hfull, -⟩ := expand_ofFree (b := b) (h := freeMatrix?_eq p free) hx
          ((hsize y hy).trans numCols_ofFree)
        dsimp only
        rw [hfull]
        exact ⟨some full, rfl⟩
    · exact ⟨none, rfl⟩

/-- Feasibility is decided for every vector. -/
theorem Problem.exists_isFeasible_eq (hb : b.HasSize p.numCols) (x : Array α) :
    ∃ o, p.isFeasible x b.lower b.upper = .ok o := by
  by_cases hx : x.size = p.numCols
  · exact ⟨_, isFeasible_eq hx hb⟩
  · unfold isFeasible
    rw [if_pos hx]
    exact ⟨false, rfl⟩

theorem exists_improvement_eq (hb : b.HasSize p.numCols) (best : α) (x : Array α) :
    ∃ o, improvement p b best x = .ok o := by
  obtain ⟨feasible, hfeasible⟩ := Problem.exists_isFeasible_eq hb x
  unfold improvement
  rw [hfeasible, Checked.ok_bind]
  cases feasible <;> exact ⟨_, rfl⟩

/-- A candidate counts or does not. -/
theorem Attempt.exists_settle_eq {a : Attempt α} (ha : ∃ o, a.candidate = .ok o)
    (hb : b.HasSize p.numCols) (best : α) : ∃ o, a.settle p b best = .ok o := by
  obtain ⟨o, ho⟩ := ha
  unfold settle
  rw [ho, Checked.ok_bind]
  cases o with
  | none => exact ⟨none, rfl⟩
  | some x =>
    obtain ⟨v, hv⟩ := exists_improvement_eq hb best x
    simp only [hv]
    exact ⟨_, rfl⟩

end Candidates

/-! ### The nearest point of a box -/

/-- The bounds of all columns are in order. -/
def Box.IsOrdered (b : Box α) (n : Nat) : Prop :=
  ∀ c < n, b.lower.getD c 0 ≤ b.upper.getD c 0

instance (b : Box α) (n : Nat) : Decidable (b.IsOrdered n) :=
  inferInstanceAs (Decidable (∀ c < n, _))

section Nearest

variable {b : Box α} {x : Array α} {k : Nat}

theorem Scalar.exists_clamp_eq {l u : α} (h : l ≤ u) (x : α) : ∃ y, clamp x l u = .ok y :=
  ⟨_, if_pos h⟩

theorem Scalar.clamp_eq_error {l u : α} (h : ¬ l ≤ u) (x : α) :
    clamp x l u = .error .emptyInterval :=
  if_neg h

theorem Box.nearest_eq (hx : x.size = k) (hb : b.HasSize k) :
    b.nearest k x = List.toArray <$> (List.range k).mapM fun c =>
      Scalar.clamp (x.getD c 0) (b.lower.getD c 0) (b.upper.getD c 0) := by
  unfold nearest
  rw [Array.mapM_eq_mapM_toList, Array.toList_range, Checked.mapM_congr fun c hc => ?_]
  have hc := List.mem_range.1 hc
  rw [Checked.read_eq_getD (hx ▸ hc) 0, Checked.read_eq_getD (hb.1 ▸ hc) 0,
    Checked.read_eq_getD (hb.2 ▸ hc) 0]
  rfl

/-- Bounds that are in order have a nearest point, column by column. -/
theorem Box.exists_nearest_eq (hx : x.size = k) (hb : b.HasSize k) (h : b.IsOrdered k) :
    ∃ y, b.nearest k x = .ok y ∧ y.size = k ∧ ∀ c < k,
      Scalar.clamp (x.getD c 0) (b.lower.getD c 0) (b.upper.getD c 0) = .ok (y.getD c 0) := by
  have : Nonempty α := ⟨0⟩
  have hclamp : ∀ c, ∃ v, c < k →
      Scalar.clamp (x.getD c 0) (b.lower.getD c 0) (b.upper.getD c 0) = .ok v := by
    intro c
    by_cases hc : c < k
    · obtain ⟨v, hv⟩ := Scalar.exists_clamp_eq (h c hc) (x.getD c 0)
      exact ⟨v, fun _ => hv⟩
    · exact ⟨0, fun h => absurd h hc⟩
  choose g hg using hclamp
  refine ⟨((List.range k).map g).toArray, ?_, by simp, fun c hc => ?_⟩
  · rw [nearest_eq hx hb, Checked.mapM_eq fun c hc => hg c (List.mem_range.1 hc)]
    rfl
  · have hget : ((List.range k).map g).toArray.getD c 0 = g c := by simp [hc]
    rw [hget]
    exact hg c hc

/-- Crossed bounds have no nearest point, wherever they are. -/
theorem Box.nearest_eq_error (hx : x.size = k) (hb : b.HasSize k) (h : ¬ b.IsOrdered k) :
    b.nearest k x = .error .emptyInterval := by
  obtain ⟨d, hd, hcrossed⟩ : ∃ d < k, ¬ b.lower.getD d 0 ≤ b.upper.getD d 0 := by
    simpa [IsOrdered] using h
  rw [nearest_eq hx hb, Checked.mapM_of_error (fun c _ => ?_)
    ⟨d, List.mem_range.2 hd, Scalar.clamp_eq_error hcrossed _⟩]
  · rfl
  · by_cases hle : b.lower.getD c 0 ≤ b.upper.getD c 0
    · exact .inl (Scalar.exists_clamp_eq hle _)
    · exact .inr (Scalar.clamp_eq_error hle _)

end Nearest

/-! ### Repairs -/

/-- Of the ends between which a column is moved, one is not above the other. -/
def Box.IsComparable (b : Box α) (n : Nat) : Prop :=
  ∀ c < n, ∀ integer, let l := Repair.range integer (b.lower.getD c 0) (b.upper.getD c 0)
    l.2 < l.1 ∨ l.1 ≤ l.2

section Repairs

variable {p : Problem α} {b : Box α}

theorem Repair.exists_moveColumn_eq (hb : b.HasSize p.numCols) (hends : b.IsComparable p.numCols)
    (integers : Bool) {r : Nat} {t : Repair α} (ht : t.point.size = p.numCols) {e : Nat × α}
    (he : e ∈ p.matrix.row r) :
    ∃ t', moveColumn p b integers r t e = .ok t' ∧ t'.point.size = p.numCols := by
  have hc : e.1 < p.numCols := (Matrix.lt_of_mem_row he).trans_eq p.numCols_matrix
  unfold moveColumn
  split
  · exact ⟨t, rfl, ht⟩
  · split
    · exact ⟨t, rfl, ht⟩
    · rename_i need _
      rw [Checked.read_eq_getD (hb.1 ▸ hc) 0, Checked.read_eq_getD (hb.2 ▸ hc) 0,
        Checked.read_eq_getD (ht ▸ hc) 0]
      simp only [Checked.ok_bind]
      split
      · exact ⟨t, rfl, ht⟩
      · rename_i hopen
        obtain ⟨y, hy⟩ := Scalar.exists_clamp_eq ((hends e.1 hc integers).resolve_left hopen)
          (t.point.getD e.1 0 + step integers need e.2)
        rw [hy, Checked.ok_bind]
        split
        · exact ⟨t, rfl, ht⟩
        · split
          · exact ⟨_, rfl, by simpa [shift] using ht⟩
          · exact ⟨t, rfl, ht⟩

/-- What a new sweep and every call for a column keep, sweeps keep. -/
theorem Repair.sweeps_rule {P : Repair α → Prop}
    (hreset : ∀ t, P t → P { t with moved := false })
    (hmove : ∀ integers r t, P t → ∀ e ∈ p.matrix.row r,
      ∃ t', moveColumn p b integers r t e = .ok t' ∧ P t')
    (integers : Bool) (k : Nat) {t : Repair α} (ht : P t) :
    ∃ t', sweeps p b integers k t = .ok t' ∧ P t' := by
  induction k generalizing t with
  | zero => exact ⟨t, rfl, ht⟩
  | succ k ih =>
    unfold sweeps
    split
    · exact ⟨t, rfl, ht⟩
    · obtain ⟨u, hu, hkept⟩ :
          ∃ u, sweep p b integers (p.violatedRows t.activities) t = .ok u ∧ P u :=
        Checked.foldlM_rule (fun t ht r _ => Checked.foldlM_rule (hmove integers r) ht)
          (hreset t ht)
      rw [hu]
      dsimp only
      split
      · exact ih hkept
      · exact ⟨u, rfl, hkept⟩

/-- What a new sweep and every call for a column keep, a repair keeps. -/
theorem repair_rule {P : Repair α → Prop} (hreset : ∀ t, P t → P { t with moved := false })
    (hmove : ∀ integers r t, P t → ∀ e ∈ p.matrix.row r,
      ∃ t', Repair.moveColumn p b integers r t e = .ok t' ∧ P t')
    {x : Array α} (hx : x.size = p.numCols)
    (hstart : P ⟨x, p.matrix.rows.map (·.dot x), false⟩) :
    ∃ t, repair p b x = .ok (t.point, p.violatedRows t.activities) ∧ P t := by
  have hactivities := Matrix.activities_eq (m := p.matrix) (x := x)
    (by rw [p.numCols_matrix, hx, Problem.numCols])
  obtain ⟨t, ht, hkept⟩ := Repair.sweeps_rule hreset hmove false Repair.maxSweeps hstart
  obtain ⟨u, hu, hkept⟩ := Repair.sweeps_rule hreset hmove true Repair.maxSweeps hkept
  refine ⟨u, ?_, hkept⟩
  unfold repair
  simp only [hactivities, ht, hu, Checked.ok_bind, Checked.pure_eq]

/-- A repair comes to an end. -/
theorem exists_repair_eq (hb : b.HasSize p.numCols) (hends : b.IsComparable p.numCols)
    {x : Array α} (hx : x.size = p.numCols) :
    ∃ y rows, repair p b x = .ok (y, rows) ∧ y.size = p.numCols := by
  obtain ⟨t, ht, hsize⟩ := repair_rule (P := fun t => t.point.size = p.numCols)
    (fun _ ht => ht)
    (fun integers _ _ ht _ he => Repair.exists_moveColumn_eq hb hends integers ht he) hx hx
  exact ⟨t.point, p.violatedRows t.activities, ht, hsize⟩

/-- An attempt from a rounded point ends with a candidate or without one. -/
theorem Rounding.exists_attempt_eq (hb : b.HasSize p.numCols) (hends : b.IsComparable p.numCols)
    {x : Array α} (hx : x.size = p.numCols) (s : Settings α) (best : α) :
    ∃ o, (attempt s p b best x).candidate = .ok o := by
  obtain ⟨y, rows, hrepair, hy⟩ := exists_repair_eq hb hends hx
  unfold attempt
  rw [hrepair]
  cases rows with
  | nil => exact ⟨some y, rfl⟩
  | cons r rows =>
    exact Attempt.exists_complete_eq s hy (freesIntegers_freeFlags _ p (r :: rows)) hb _ _ _

end Repairs

/-! ### Serendipity -/

section Luck

variable {p : Problem α} {n : Node α}

theorem Serendipity.exists_capture_eq (hn : n.HasSize p.numCols) (best : α) :
    ∃ o, capture p n best = .ok o := by
  unfold capture
  split
  · exact ⟨none, rfl⟩
  · rename_i x _
    obtain ⟨feasible, hfeasible⟩ := Problem.exists_isFeasible_eq hn.box x
    rw [hfeasible, Checked.ok_bind]
    cases feasible <;> exact ⟨_, rfl⟩

/-- The column is chosen from the start. -/
def Cover.isPreset (n : Node α) (c : Nat) : Bool :=
  (reachesOne (n.solution.getD c 0) || reachesOne (n.box.lower.getD c 0)) &&
    reachesOne (n.box.upper.getD c 0)

/-- The columns that are chosen from the start. -/
def Cover.startPoint (p : Problem α) (n : Node α) : Array α :=
  (Array.range p.numCols).map fun c => if isPreset n c then 1 else 0

theorem Cover.start_eq (hn : n.HasSize p.numCols) :
    start p n = .ok ⟨startPoint p n, p.matrix.rows.map (·.dot (startPoint p n))⟩ := by
  have hpoint : ((Array.range p.numCols).mapM fun c => do
      let chosen : Bool := reachesOne (← Checked.read n.solution c) ||
        reachesOne (← Checked.read n.box.lower c)
      return if chosen && reachesOne (← Checked.read n.box.upper c) then 1 else 0) =
        .ok (startPoint p n) := by
    rw [Array.mapM_eq_mapM_toList, Array.toList_range,
      Checked.mapM_eq (g := fun c => if isPreset n c then 1 else 0) fun c hc => ?_]
    · rw [Checked.ok_map, startPoint, ← Array.toList_range, ← Array.toList_map, Array.toArray_toList]
    · have hc := List.mem_range.1 hc
      rw [Checked.read_eq_getD (hn.solution ▸ hc) 0, Checked.read_eq_getD (hn.box.1 ▸ hc) 0,
        Checked.read_eq_getD (hn.box.2 ▸ hc) 0]
      rfl
  unfold start
  rw [hpoint, Checked.ok_bind,
    Matrix.activities_eq (by rw [p.numCols_matrix]; simp [startPoint, Problem.numCols])]
  rfl

/-- A cover starts with zeros and ones. -/
theorem Cover.exists_start_eq (hn : n.HasSize p.numCols) :
    ∃ t, start p n = .ok t ∧ t.point.size = p.numCols ∧ ∀ v ∈ t.point, v = 0 ∨ v = 1 := by
  refine ⟨_, start_eq hn, by simp [startPoint], fun v hv => ?_⟩
  obtain ⟨c, -, rfl⟩ := Array.mem_map.1 hv
  split
  · exact .inr rfl
  · exact .inl rfl

theorem Serendipity.exists_cover_eq (hn : n.HasSize p.numCols) (jitter : α) (stream : Stream) :
    ∃ o, (cover jitter p n stream).1 = .ok o := by
  unfold cover
  split
  · obtain ⟨t, ht, -⟩ := Cover.exists_start_eq hn
    rw [ht]
    exact ⟨_, rfl⟩
  · exact ⟨none, rfl⟩

/-- No run of serendipity stops. -/
theorem Serendipity.exists_answer_trial (hn : n.HasSize p.numCols) (s : Serendipity α) (c : Core α)
    (best : α) : ∃ o, (s.trial c p n best).answer = .ok o := by
  obtain ⟨o, ho⟩ := exists_capture_eq hn best
  unfold trial
  rw [ho]
  cases o with
  | some found => exact ⟨_, rfl⟩
  | none =>
    obtain ⟨x, hx⟩ := exists_cover_eq hn s.jitter c.stream
    exact Attempt.exists_settle_eq (by rw [hx]; exact ⟨x, rfl⟩) hn.box best

end Luck

end PrimalHeuristics
