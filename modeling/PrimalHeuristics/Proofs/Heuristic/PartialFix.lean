import Mathlib.Tactic
import PrimalHeuristics.Proofs.Completion
import PrimalHeuristics.Proofs.Heuristic.Contract

/-!
# Partial fixing finds the best completion

Over exact numbers, and for a node whose bounds are proper, a run of partial fixing that searches
its sub-problem answers with what the search has found: the checks at the end discard nothing. If
the run is not cut short, no completion of the fixed columns is better, up to the tolerance by which
nodes are pruned.

* `PartialFix.Ends`: the ways in which a run ends, and `PartialFix.exists_ends`: it ends in one;
* `PartialFix.exists_improvement`: what a search has found counts;
* `Heuristic.FixesOptimally`, `Heuristic.seek_fixesOptimally`: what this means for a run;
* `Heuristic.not_fixesOptimally_atUpper`: without integer columns there is no run.
-/

namespace PrimalHeuristics

open Exact SubProblem

/-! ### The ends of a run -/

namespace PartialFix

/-- The fix set is that of the problem, every entry from which a column may be fixed is a rational
number, and bounds are proper. -/
structure IsProperAt (f : PartialFix) (p : Problem Exact) (n : Node Exact) : Prop where
  derived : f = f.derive p
  rows : ∀ r < p.numRows, (p.boundsOf r).HasTrueInfinities
  bounds : n.box.IsProper p
  source : ∀ c < p.numCols, Scalar.isFinite ((source p n).getD c 0) = true

/-- The run fixes the columns at `x`, and searches the sub-problem of the others with a result. -/
structure Searches (f : PartialFix) (s : Settings Exact) (p : Problem Exact) (n : Node Exact)
    (best : Exact) (x : Array Exact) (sub : SubProblem Exact) (r : SearchResult Exact) : Prop where
  values : f.values p n = .ok (some x)
  restrict : restrict p x (f.freeFlags s.subSolver p) n.box = .ok (some sub)
  admitted : sub.isWithinFraction s.fractionSmall = true
  solved : ∃ report, s.subSolve sub s.numberNodes.toNat best "partial" = .ok (r, report)

/-- The ways in which a run ends, with its answer. -/
inductive Ends (f : PartialFix) (s : Settings Exact) (p : Problem Exact) (n : Node Exact)
    (best : Exact) : Option (Exact × Array Exact) → Prop
  /-- An entry that is to be fixed is not integral. -/
  | fractional (h : f.values p n = .ok none) : Ends f s p n best none
  /-- The fixed columns violate a row that has no other ones. -/
  | blocked {x : Array Exact} (hx : f.values p n = .ok (some x))
      (h : restrict p x (f.freeFlags s.subSolver p) n.box = .ok none) : Ends f s p n best none
  | tooLarge {x : Array Exact} {sub : SubProblem Exact} (hx : f.values p n = .ok (some x))
      (hsub : restrict p x (f.freeFlags s.subSolver p) n.box = .ok (some sub))
      (h : sub.isWithinFraction s.fractionSmall = false) : Ends f s p n best none
  /-- The search has found nothing. -/
  | nothing {x : Array Exact} {sub : SubProblem Exact} {r : SearchResult Exact}
      (h : f.Searches s p n best x sub r) (hr : r.solution = none) : Ends f s p n best none
  /-- The solution of the search, with the fixed columns, is the answer. -/
  | found {x y full : Array Exact} {sub : SubProblem Exact} {r : SearchResult Exact}
      (h : f.Searches s p n best x sub r) (hr : r.solution = some y)
      (hfull : sub.expand x y = .ok full) : Ends f s p n best (some (r.objective, full))

variable {f : PartialFix} {s : Settings Exact} {p : Problem Exact} {n : Node Exact}
  {best : Exact} {x : Array Exact} {sub : SubProblem Exact} {r : SearchResult Exact}

/-- Columns that are fixed are within their bounds. -/
theorem IsFixing.isWithin (hx : IsFixing p n.box f.fixSet x) (hb : n.box.IsProper p)
    {k : SubSolver} {c : Nat} (hc : c < p.numCols)
    (hf : isFree (f.freeFlags k p) c = false) :
    IsWithin (p.isInteger c) (x.getD c 0) (n.box.lower.getD c 0) (n.box.upper.getD c 0) := by
  have hholds := hx.holds.2 c hc
  have heq := hb.eq_finite hc hholds
  rw [heq] at hholds ⊢
  refine hholds.isWithin fun hi => ?_
  obtain ⟨z, hz⟩ := hx.whole c (by simpa [hi] using (isFree_eq_false_iff hc).1 hf)
  exact ⟨z, by rw [hz, toRat_finite]⟩

/-! ### What a search has found -/

/-- A vector that a search has found, with the fixed columns, is an improvement. -/
theorem exists_improvement {free : Array Bool} {m : Matrix Exact} {h : freeMatrix? p free = .ok m}
    (hp : p.IsRational) (hrows : ∀ r < p.numRows, (p.boundsOf r).HasTrueInfinities)
    (hb : n.box.IsProper p) (hx : n.box.HoldsAll p.numCols x)
    (hwithin : ∀ c < p.numCols, isFree free c = false →
      IsWithin (p.isInteger c) (x.getD c 0) (n.box.lower.getD c 0) (n.box.upper.getD c 0))
    (hopen : ∀ r < p.numRows, isBlocked p free x r = false)
    (hr : r.IsOptimal (ofFree p x free n.box m h) best) {y : Array Exact}
    (hy : r.solution = some y) (hsize : y.size = (ofFree p x free n.box m h).numCols) :
    ∃ full, (ofFree p x free n.box m h).expand x y = .ok full ∧
      improvement p n.box best full = .ok (some r.objective) := by
  have hfeasible : (ofFree p x free n.box m h).IsFeasible y (ofFree p x free n.box m h).box := by
    have := hr.isFeasible y hy
    rw [SubProblem.isFeasible_eq hsize (hasSize_box _)] at this
    simpa using this
  rw [numCols_ofFree] at hsize
  obtain ⟨full, hfull, hexpansion⟩ := expand_ofFree (b := n.box) (h := h) hx.1 hsize
  refine ⟨full, hfull, improvement_eq_some.2 ⟨?_, ?_, ?_⟩⟩
  · -- the activities are rational numbers, so a row is violated as much as in the sub-problem
    have hshifts : ∀ k < p.numRows, (p.boundsOf k).Shifts
        (fixedActivity free x (p.matrix.row k)) ((freeEntries free (p.matrix.row k)).dot y) := by
      intro k hk
      obtain ⟨f, hf⟩ := hp.exists_fixedActivity free
        (fun c hc => ⟨_, hb.eq_finite hc (hx.2 c hc)⟩) k
      obtain ⟨a, ha⟩ := hp.exists_freeActivity (exists_finite_of_isFeasible hb hfeasible) k
      rw [hf, ha]
      exact RowBounds.shifts_finite (hrows k hk) f a
    rw [Problem.isFeasible_eq hexpansion.size hb.hasSize]
    simpa using (isFeasible_of_isExpansion hshifts hopen hexpansion).2 ⟨hfeasible, hwithin⟩
  · intro hbest
    have hlt := (hr.lt_cutoff (by rw [hy]; rfl)).1
    exact Exact.lt_irrefl _ (Exact.lt_of_lt_of_le hlt hbest)
  · rw [hr.objective_eq y hy, objectiveValue_of_isExpansion hexpansion hsize]

/-- The sub-problem of a run, and what its search promises. -/
theorem exists_result (he : f.IsProperAt p n) (hp : p.IsRational) (hbest : best ≠ nan)
    (hx : IsFixing p n.box f.fixSet x) (s : Settings Exact) {m : Matrix Exact}
    (h : freeMatrix? p (f.freeFlags s.subSolver p) = .ok m) :
    ∃ r report, s.subSolve (ofFree p x (f.freeFlags s.subSolver p) n.box m h)
        s.numberNodes.toNat best "partial" = .ok (r, report) ∧
      r.IsOptimal (ofFree p x (f.freeFlags s.subSolver p) n.box m h) best ∧
      ∀ y, r.solution = some y →
        y.size = (ofFree p x (f.freeFlags s.subSolver p) n.box m h).numCols := by
  have hfinite : ∀ c < p.numCols, ∃ q, x.getD c 0 = finite q :=
    fun c hc => ⟨_, he.bounds.eq_finite hc (hx.holds.2 c hc)⟩
  have hinteger : ∀ c < p.numCols, isFree (f.freeFlags s.subSolver p) c = true →
      p.isInteger c = true := fun c hc hf => isInteger_of_isFree hc hf
  exact s.isOptimal_subSolve (isRational_ofFree hp hfinite)
    (isIntegerBox_ofFree he.bounds hinteger) (freeContinuousColumn_ofFree hinteger) hbest _ _

theorem attempt_of_values (hx : f.values p n = .ok (some x)) : f.attempt s p n best =
    .complete s p n.box x (f.freeFlags s.subSolver p) best "partial" fun _ => [] := by
  unfold attempt
  rw [hx]

/-- The candidate of a run that searches. -/
theorem Searches.candidate_eq (h : f.Searches s p n best x sub r) :
    (f.attempt s p n best).candidate =
      match r.solution with
      | none => .ok none
      | some y => Failure.ofChecked ((sub.expand x y).map some) := by
  obtain ⟨report, hsolved⟩ := h.solved
  rw [attempt_of_values h.values]
  unfold Attempt.complete
  rw [h.restrict]
  dsimp only
  rw [if_pos h.admitted, hsolved]
  dsimp only
  cases r.solution <;> rfl

/-- The values at which columns are fixed. -/
theorem IsProperAt.isFixing (he : f.IsProperAt p n)
    (hsize : (PartialFix.source p n).size = p.numCols)
    (hx : f.values p n = .ok (some x)) : IsFixing p n.box f.fixSet x := by
  obtain hnone | ⟨y, hvalues, hy⟩ := values_cases he.derived he.bounds hsize he.source
  · rw [hx] at hnone
    cases hnone
  · obtain rfl : x = y := by simpa [hx] using hvalues
    exact hy

/-- What a run that searches has searched, and what the search promises. -/
theorem Searches.exists_ofFree (h : f.Searches s p n best x sub r) (he : f.IsProperAt p n)
    (hp : p.IsRational) (hbest : best ≠ nan) (hsize : (source p n).size = p.numCols) :
    (∀ r < p.numRows, isBlocked p (f.freeFlags s.subSolver p) x r = false) ∧
      r.IsOptimal sub best ∧ (∀ y, r.solution = some y → y.size = sub.numCols) ∧
      ∃ m hm, sub = ofFree p x (f.freeFlags s.subSolver p) n.box m hm := by
  have hx := he.isFixing hsize h.values
  have hrestrict := h.restrict
  rw [restrict_eq hx.holds.1 (size_freeFlags f s.subSolver) he.bounds.hasSize] at hrestrict
  by_cases hblocked : (List.range p.numRows).any (isBlocked p (f.freeFlags s.subSolver p) x) = true
  · rw [if_pos hblocked] at hrestrict
    cases hrestrict
  · rw [if_neg hblocked] at hrestrict
    obtain rfl := Option.some.inj (Except.ok.inj hrestrict)
    obtain ⟨t, report, hsolved, ht, hsolution⟩ :=
      exists_result he hp hbest hx s (freeMatrix?_eq p (f.freeFlags s.subSolver p))
    obtain ⟨report', hsolved'⟩ := h.solved
    rw [hsolved] at hsolved'
    cases hsolved'
    exact ⟨by simpa using hblocked, ht, hsolution, _, _, rfl⟩

/-- The checks at the end of a run discard nothing that its search has found. -/
theorem Searches.exists_ends (h : f.Searches s p n best x sub r) (he : f.IsProperAt p n)
    (hp : p.IsRational) (hbest : best ≠ nan) (hsize : (source p n).size = p.numCols) :
    ∃ answer, (f.attempt s p n best).settle p n.box best = .ok answer ∧
      f.Ends s p n best answer := by
  have hcandidate := h.candidate_eq
  have hx := he.isFixing hsize h.values
  obtain ⟨hopen, hr, hsolution, m, hm, hsub⟩ := h.exists_ofFree he hp hbest hsize
  cases hy : r.solution with
  | none =>
    rw [hy] at hcandidate
    exact ⟨none, Attempt.settle_eq_none hcandidate, .nothing h hy⟩
  | some y =>
    rw [hy] at hcandidate
    rw [hsub] at hr
    obtain ⟨full, hfull, himprovement⟩ := exists_improvement hp he.rows he.bounds hx.holds
      (fun c hc hf => hx.isWithin he.bounds hc hf) hopen hr hy (hsub ▸ hsolution y hy)
    rw [← hsub] at hfull
    refine ⟨some (r.objective, full), Attempt.settle_eq_some.2 ⟨?_, himprovement⟩,
      .found h hy hfull⟩
    rw [hcandidate]
    dsimp only
    rw [hfull]
    rfl

/-- A run always ends with an answer. -/
theorem exists_ends (he : f.IsProperAt p n) (hp : p.IsRational) (hbest : best ≠ nan)
    (hsize : (source p n).size = p.numCols) (s : Settings Exact) :
    ∃ answer, (f.attempt s p n best).settle p n.box best = .ok answer ∧
      f.Ends s p n best answer := by
  obtain hnone | ⟨x, hvalues, hx⟩ := values_cases he.derived he.bounds hsize he.source
  · refine ⟨none, Attempt.settle_eq_none ?_, .fractional hnone⟩
    unfold attempt
    rw [hnone]
    rfl
  have hrestrict : restrict p x (f.freeFlags s.subSolver p) n.box = _ :=
    restrict_eq hx.holds.1 (size_freeFlags f s.subSolver) he.bounds.hasSize
  split at hrestrict
  · refine ⟨none, Attempt.settle_eq_none ?_, .blocked hvalues hrestrict⟩
    rw [attempt_of_values hvalues]
    unfold Attempt.complete
    rw [hrestrict]
    rfl
  · obtain ⟨r, report, hsolved, -⟩ :=
      exists_result he hp hbest hx s (freeMatrix?_eq p (f.freeFlags s.subSolver p))
    generalize ofFree p x (f.freeFlags s.subSolver p) n.box _ _ = sub at hrestrict hsolved
    cases hadmitted : sub.isWithinFraction s.fractionSmall with
    | false =>
      refine ⟨none, Attempt.settle_eq_none ?_, .tooLarge hvalues hrestrict hadmitted⟩
      rw [attempt_of_values hvalues]
      unfold Attempt.complete
      rw [hrestrict]
      dsimp only
      rw [if_neg (by rw [hadmitted]; exact Bool.false_ne_true)]
      rfl
    | true =>
      have hsearches : f.Searches s p n best x sub r :=
        ⟨hvalues, hrestrict, hadmitted, report, hsolved⟩
      exact hsearches.exists_ends he hp hbest hsize

/-- A run that searches ends with what the search has found. -/
theorem Ends.eq_of_searches {answer : Option (Exact × Array Exact)}
    (h : f.Ends s p n best answer) (hs : f.Searches s p n best x sub r) :
    r.solution = none ∧ answer = none ∨
      r.solution.isSome = true ∧ ∃ full, answer = some (r.objective, full) := by
  obtain ⟨report, hsolved⟩ := hs.solved
  have hunique : ∀ {y t q}, f.Searches s p n best y t q → q = r := by
    intro y t q hq
    obtain rfl : x = y := by simpa [hs.values] using hq.values
    obtain rfl : sub = t := by simpa [hs.restrict] using hq.restrict
    obtain ⟨report', hsolved'⟩ := hq.solved
    rw [hsolved] at hsolved'
    cases hsolved'
    rfl
  cases h with
  | fractional h =>
    rw [hs.values] at h
    cases h
  | blocked hx h =>
    obtain rfl : x = _ := by simpa [hs.values] using hx
    rw [hs.restrict] at h
    cases h
  | tooLarge hx hsub h =>
    obtain rfl : x = _ := by simpa [hs.values] using hx
    obtain rfl : sub = _ := by simpa [hs.restrict] using hsub
    rw [hs.admitted] at h
    cases h
  | nothing hq hr => exact .inl ⟨hunique hq ▸ hr, rfl⟩
  | found hq hr hfull =>
    obtain rfl := hunique hq
    exact .inr ⟨by rw [hr]; rfl, _, rfl⟩

/-! ### Completions -/

/-- The vector is exactly feasible at the node, and has the fixed values: those of the fix set, and
those of the continuous columns. -/
structure IsCompletion (f : PartialFix) (p : Problem Exact) (n : Node Exact)
    (x y : Array Exact) : Prop where
  isExactlyFeasible : p.IsExactlyFeasible n.box y
  agrees : ∀ c < p.numCols, c ∈ f.fixSet ∨ p.isInteger c = false → y.getD c 0 = x.getD c 0

theorem IsCompletion.eq_of_isFree {y : Array Exact} (hy : f.IsCompletion p n x y) {k : SubSolver} :
    ∀ c < p.numCols, isFree (f.freeFlags k p) c = false → y.getD c 0 = x.getD c 0 :=
  fun c hc hf => hy.agrees c hc ((isFree_eq_false_iff hc).1 hf)

/-- If there is a completion, the restriction goes through. -/
theorem IsCompletion.restrict_ne_none {y : Array Exact} (hy : f.IsCompletion p n x y)
    (he : f.IsProperAt p n) (hsize : (source p n).size = p.numCols)
    (hx : f.values p n = .ok (some x)) (k : SubSolver) :
    restrict p x (f.freeFlags k p) n.box ≠ .ok none := by
  have hopen : ¬ (List.range p.numRows).any (isBlocked p (f.freeFlags k p) x) = true := by
    simp only [List.any_eq_true, List.mem_range, not_exists, not_and, Bool.not_eq_true]
    exact fun r hr => isBlocked_eq_false hy.isExactlyFeasible hy.eq_of_isFree hr
  rw [restrict_eq (he.isFixing hsize hx).holds.1 (size_freeFlags f k) he.bounds.hasSize,
    if_neg hopen]
  nofun

/-- Once the search of a run is finished, no completion is better, up to the tolerance. -/
theorem Searches.le_objectiveValue (h : f.Searches s p n best x sub r) (he : f.IsProperAt p n)
    (hp : p.IsRational) (hbest : best ≠ nan) (hsize : (source p n).size = p.numCols)
    (hfinished : r.status.isFinished = true) {y : Array Exact} (hy : f.IsCompletion p n x y) :
    (r.solution.isSome → r.objective - Scalar.objTol ≤ p.objectiveValue y) ∧
      (r.solution = none → best - Scalar.objTol ≤ p.objectiveValue y) := by
  obtain ⟨-, hr, -, m, hm, rfl⟩ := h.exists_ofFree he hp hbest hsize
  have hx := (he.isFixing hsize h.values).holds
  have hfinite : ∀ c < p.numCols, ∃ q, x.getD c 0 = finite q :=
    fun c hc => ⟨_, he.bounds.eq_finite hc (hx.2 c hc)⟩
  rw [objectiveValue_of_isExpansion
    (isExpansion_freePart hy.isExactlyFeasible.holds.1 hy.eq_of_isFree) (size_freePart _)]
  exact hr.best hfinished _ (isExactlyFeasible_freePart hp he.rows he.bounds hfinite
    hy.isExactlyFeasible hy.eq_of_isFree)

end PartialFix

/-! ### Runs at a node -/

namespace Heuristic

variable {h : Heuristic Exact} {f : PartialFix} {m : Model Exact} {best : Exact}
  {buffer x : Array Exact}

/-- A run that goes past its checks ends with an answer. -/
theorem exists_ends (hkind : h.kind = .partialFix f) (he : f.IsProperAt m.problem m.node)
    (hp : m.problem.IsRational) (hinteger : m.problem.numIntegers ≠ 0) (hbest : best ≠ nan)
    (hcheck : h.check m buffer = .ok ()) :
    ∃ answer, (h.seek m best buffer).outcome = .ok (.ofAnswer answer) ∧
      f.Ends h.core.settings m.problem m.node best answer := by
  obtain ⟨answer, hanswer, hends⟩ :=
    PartialFix.exists_ends he hp hbest (PartialFix.size_source (isReady_of_check hcheck).node)
      h.core.settings
  refine ⟨answer, ?_, hends⟩
  have hcols : f.numCols = m.problem.numCols := by
    rw [he.derived]
    rfl
  have htrial : (h.kind.trial h.core m.problem m.node best).answer = .ok answer := by
    rw [hkind]
    show (f.trial h.core m.problem m.node best).answer = .ok answer
    unfold PartialFix.trial
    rw [if_pos hcols, he.bounds.emptyIntegerDomain_eq]
    exact hanswer
  rw [outcome_seek hcheck hinteger, htrial]
  rfl

/-- The run passes its checks, and gets as far as a search with a result. -/
structure Searches (h : Heuristic Exact) (f : PartialFix) (m : Model Exact) (best : Exact)
    (buffer x : Array Exact) (sub : SubProblem Exact) (r : SearchResult Exact) : Prop where
  check : h.check m buffer = .ok ()
  hasInteger : m.problem.numIntegers ≠ 0
  searches : f.Searches h.core.settings m.problem m.node best x sub r

/-- Columns are fixed at `x`, and then the run is not cut short: the sub-problem is not too large,
and its search is finished. -/
structure RunsThrough (h : Heuristic Exact) (f : PartialFix) (m : Model Exact) (best : Exact)
    (buffer x : Array Exact) : Prop where
  values : f.values m.problem m.node = .ok (some x)
  admitted : ∀ sub, restrict m.problem x (f.freeFlags h.core.settings.subSolver m.problem)
    m.node.box = .ok (some sub) → sub.isWithinFraction h.core.settings.fractionSmall = true
  finished : ∀ sub r, h.Searches f m best buffer x sub r → r.status.isFinished = true

/-- Decides whether a run that fixes columns at `x` goes through. -/
def runsThrough (h : Heuristic Exact) (f : PartialFix) (m : Model Exact) (best : Exact)
    (x : Array Exact) : Bool :=
  match restrict m.problem x (f.freeFlags h.core.settings.subSolver m.problem) m.node.box with
  | .ok (some sub) =>
    sub.isWithinFraction h.core.settings.fractionSmall &&
      match h.core.settings.subSolve sub h.core.settings.numberNodes.toNat best "partial" with
      | .ok (r, _) => r.status.isFinished
      | .error _ => true
  | _ => true

theorem RunsThrough.of_runsThrough (hx : f.values m.problem m.node = .ok (some x))
    (hthrough : h.runsThrough f m best x = true) : h.RunsThrough f m best buffer x := by
  refine ⟨hx, fun sub hsub => ?_, fun sub r hs => ?_⟩
  · rw [runsThrough, hsub] at hthrough
    exact (Bool.and_eq_true_iff.1 hthrough).1
  · obtain ⟨report, hsolved⟩ := hs.searches.solved
    rw [runsThrough, hs.searches.restrict] at hthrough
    have hfinished := (Bool.and_eq_true_iff.1 hthrough).2
    rw [hsolved] at hfinished
    exact hfinished

/-- What a run promises: once it passes its checks there is no error; what its search finds is its
answer; and if it is not cut short, no completion of the fixed columns is better than the answer, or
than the best one so far if there is none, by more than the tolerance. -/
structure FixesOptimally (h : Heuristic Exact) (f : PartialFix) (m : Model Exact) (best : Exact)
    (buffer : Array Exact) : Prop where
  total : h.check m buffer = .ok () → ∃ o, (h.seek m best buffer).outcome = .ok o
  improved : ∀ x sub r, h.Searches f m best buffer x sub r → r.solution.isSome = true →
    (h.seek m best buffer).outcome = .ok (.improved r.objective)
  best : ∀ x, h.RunsThrough f m best buffer x → ∀ y, f.IsCompletion m.problem m.node x y →
    (∀ v, (h.seek m best buffer).outcome = .ok (.improved v) →
      v - Scalar.objTol ≤ m.problem.objectiveValue y) ∧
    ((h.seek m best buffer).outcome = .ok .nothing →
      best - Scalar.objTol ≤ m.problem.objectiveValue y)

/-- If the problem has an integer column, runs over exact numbers keep this promise. -/
theorem seek_fixesOptimally (hkind : h.kind = .partialFix f)
    (he : f.IsProperAt m.problem m.node) (hp : m.problem.IsRational)
    (hinteger : m.problem.numIntegers ≠ 0) (hbest : best ≠ nan) (buffer : Array Exact) :
    h.FixesOptimally f m best buffer := by
  refine ⟨fun hcheck => ?_, fun x sub r hs hr => ?_, fun x hx y hy => ?_⟩
  · obtain ⟨answer, houtcome, -⟩ := exists_ends hkind he hp hinteger hbest hcheck
    exact ⟨_, houtcome⟩
  · obtain ⟨answer, houtcome, hends⟩ := exists_ends hkind he hp hinteger hbest hs.check
    obtain ⟨hnone, -⟩ | ⟨-, full, rfl⟩ := hends.eq_of_searches hs.searches
    · rw [hnone] at hr
      cases hr
    · exact houtcome
  · cases hcheck : h.check m buffer with
    | error e =>
      have houtcome : (h.seek m best buffer).outcome = .error (.error e) := by
        unfold seek
        rw [hcheck]
      rw [houtcome]
      exact ⟨nofun, nofun⟩
    | ok u =>
      have hsize := PartialFix.size_source (isReady_of_check hcheck).node
      obtain ⟨answer, houtcome, hends⟩ := exists_ends hkind he hp hinteger hbest hcheck
      have hvalues {z : Array Exact} (hz : f.values m.problem m.node = .ok (some z)) : x = z := by
        simpa [hx.values] using hz
      -- an early end contradicts that the run goes through, or that there is a completion
      rw [houtcome]
      cases hends with
      | fractional h =>
        rw [hx.values] at h
        cases h
      | blocked hz h =>
        obtain rfl := hvalues hz
        exact absurd h (hy.restrict_ne_none he hsize hz _)
      | tooLarge hz hsub h =>
        obtain rfl := hvalues hz
        rw [hx.admitted _ hsub] at h
        cases h
      | nothing hs hr =>
        obtain rfl := hvalues hs.values
        have hfinished := hx.finished _ _ ⟨hcheck, hinteger, hs⟩
        exact ⟨nofun, fun _ => (hs.le_objectiveValue he hp hbest hsize hfinished hy).2 hr⟩
      | found hs hr hfull =>
        obtain rfl := hvalues hs.values
        have hfinished := hx.finished _ _ ⟨hcheck, hinteger, hs⟩
        refine ⟨?_, nofun⟩
        rintro v ⟨⟩
        exact (hs.le_objectiveValue he hp hbest hsize hfinished hy).1 (by rw [hr]; rfl)

/-- A fresh heuristic that is attached to a model. -/
def freshFor (m : Model Exact) : Heuristic Exact :=
  (ofKind (.partialFix .fresh)).attach m

/-- The fix set of a fresh heuristic, for the problem of a model. -/
def freshFixing (m : Model Exact) : PartialFix :=
  PartialFix.fresh.derive m.problem

/-- Two integer columns, of which only the first one is important, and a continuous one. -/
def importantFirst : Problem Exact where
  columns := #[⟨finite (-1), 0, finite 2, true, 0⟩, ⟨finite (-1), 0, finite 3, true, 20000⟩,
    ⟨0, 0, 1, false, 0⟩]
  rowBounds := #[⟨infinite true, finite 3⟩]
  matrix := .ofEntries 1 3 [⟨0, 0, 1⟩, ⟨0, 1, 1⟩, ⟨0, 2, 1⟩]
  sosSets := []
  numCols_matrix := rfl
  numRows_matrix := by simp

/-- The root, where the second column is not integral. -/
def halfOfSecond : Model Exact where
  problem := importantFirst
  node := .root importantFirst #[1, Scalar.decimal 5 1, 1] 0
  incumbent := Model.noIncumbent
  messages := #[]

theorem seek_fixesOptimally_halfOfSecond :
    ((freshFixing halfOfSecond).IsProperAt importantFirst halfOfSecond.node ∧
      importantFirst.IsRational ∧ importantFirst.numIntegers ≠ 0 ∧ (0 : Exact) ≠ nan) ∧
    ((freshFor halfOfSecond).RunsThrough (freshFixing halfOfSecond) halfOfSecond 0 #[0, 0, 0]
        #[1, Scalar.decimal 5 1, 1] ∧
      ((freshFor halfOfSecond).seek halfOfSecond 0 #[0, 0, 0]).outcome =
        .ok (.improved (finite (-2))) ∧
      (freshFor halfOfSecond).FixesOptimally (freshFixing halfOfSecond) halfOfSecond 0
        #[0, 0, 0]) := by
  have he : (freshFixing halfOfSecond).IsProperAt importantFirst halfOfSecond.node := by
    refine ⟨rfl, fun r hr => ?_, ⟨⟨Problem.size_lower _, Problem.size_upper _⟩, by decide +kernel,
      by decide +kernel, fun c hc hi => ?_⟩, by decide +kernel⟩
    · obtain rfl : r = 0 := Nat.lt_one_iff.1 hr
      exact ⟨.inr ⟨true, rfl⟩, .inl (by decide +kernel)⟩
    · have hc : c < 3 := hc
      interval_cases c
      · exact ⟨0, 2, by decide +kernel, by decide +kernel⟩
      · exact ⟨0, 3, by decide +kernel, by decide +kernel⟩
      · cases hi
  have hp : importantFirst.IsRational := ⟨by decide +kernel, by decide +kernel⟩
  have hinteger : importantFirst.numIntegers ≠ 0 := by decide +kernel
  have hbest : (0 : Exact) ≠ nan := by decide +kernel
  exact ⟨⟨he, hp, hinteger, hbest⟩, .of_runsThrough (by decide +kernel) (by decide +kernel),
    by decide +kernel, seek_fixesOptimally rfl he hp hinteger hbest _⟩

/-- A problem with one column between zero and one, and without rows. -/
def oneColumn (cost : Exact) (integer : Bool) : Problem Exact where
  columns := #[⟨cost, 0, 1, integer, 20000⟩]
  rowBounds := #[]
  matrix := .ofEntries 0 1 []
  sosSets := []
  numCols_matrix := rfl
  numRows_matrix := by simp

/-- The root, where the relaxation has the column at its upper bound. -/
def atUpper (cost : Exact) (integer : Bool) : Model Exact where
  problem := oneColumn cost integer
  node := .root (oneColumn cost integer) #[1] cost
  incumbent := Model.noIncumbent
  messages := #[]

/-- A continuous column of negative cost. -/
def cheapContinuous : Model Exact :=
  atUpper (finite (-1)) false

/-- An integer column of infinite cost. -/
def dearInteger : Model Exact :=
  atUpper Scalar.infinity true

theorem box_atUpper (cost : Exact) (integer : Bool) :
    (atUpper cost integer).node.box = ⟨#[0], #[1]⟩ := by
  simp [atUpper, Node.root, Problem.lower, Problem.upper, oneColumn]

theorem isProperAt_atUpper (cost : Exact) (integer : Bool) :
    (freshFixing (atUpper cost integer)).IsProperAt (oneColumn cost integer)
      (atUpper cost integer).node := by
  refine ⟨rfl, nofun, ?_, ?_⟩
  · rw [box_atUpper]
    refine ⟨⟨rfl, rfl⟩, ?_, ?_, ?_⟩
    all_goals
      intro c hc
      obtain rfl : c = 0 := Nat.lt_one_iff.1 hc
    · decide +kernel
    · decide +kernel
    · exact fun _ => ⟨0, 1, by decide +kernel, by decide +kernel⟩
  · intro c hc
    obtain rfl : c = 0 := Nat.lt_one_iff.1 hc
    rfl

theorem isCompletion_atUpper (cost : Exact) (integer : Bool) :
    (freshFixing (atUpper cost integer)).IsCompletion (oneColumn cost integer)
      (atUpper cost integer).node #[1] #[1] := by
  refine ⟨?_, fun _ _ _ => rfl⟩
  rw [box_atUpper]
  refine ⟨⟨rfl, ?_⟩, ?_, nofun⟩
  all_goals
    intro c hc
    obtain rfl : c = 0 := Nat.lt_one_iff.1 hc
  · exact ⟨by decide +kernel, by decide +kernel⟩
  · exact fun _ => ⟨1, by decide +kernel⟩

/-- There is no run without integer columns, even if the fixed columns alone are better than the
best solution so far; and in a column of infinite cost, the cost of a zero is no number. -/
theorem not_fixesOptimally_atUpper :
    ((freshFixing cheapContinuous).IsProperAt cheapContinuous.problem cheapContinuous.node ∧
      cheapContinuous.problem.IsRational ∧ (0 : Exact) ≠ nan ∧
      ¬ (freshFor cheapContinuous).FixesOptimally (freshFixing cheapContinuous) cheapContinuous
        0 #[0]) ∧
    ((freshFixing dearInteger).IsProperAt dearInteger.problem dearInteger.node ∧
      dearInteger.problem.numIntegers ≠ 0 ∧ (0 : Exact) ≠ nan ∧
      ¬ (freshFor dearInteger).FixesOptimally (freshFixing dearInteger) dearInteger 0 #[0]) := by
  constructor
  · refine ⟨isProperAt_atUpper _ _, ⟨by decide +kernel, by decide +kernel⟩, by decide +kernel,
      fun h => ?_⟩
    have hbest := (h.best #[1] (.of_runsThrough (by decide +kernel) (by decide +kernel)) #[1]
      (isCompletion_atUpper _ _)).2 (by decide +kernel)
    revert hbest
    decide +kernel
  · refine ⟨isProperAt_atUpper _ _, by decide +kernel, by decide +kernel, fun h => ?_⟩
    have hbest := (h.best #[1] (.of_runsThrough (by decide +kernel) (by decide +kernel)) #[1]
      (isCompletion_atUpper _ _)).1 nan (by decide +kernel)
    revert hbest
    decide +kernel

end Heuristic

end PrimalHeuristics
