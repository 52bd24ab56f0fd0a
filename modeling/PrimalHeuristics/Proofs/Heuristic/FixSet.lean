import PrimalHeuristics.Proofs.Collection.CutPhase
import PrimalHeuristics.Proofs.Heuristic.Reproducible
import PrimalHeuristics.Proofs.Heuristic.Totality

/-!
# Stale fix sets

A partial fixing heuristic derives its fix set when it is attached to a model, and when its priority
is set while it is attached. Whether the problem has been replaced since then, a run only tells from
the number of columns. So a run works with a stale fix set if the new problem has as many columns
but others that are to be fixed.

* `Heuristic.reportsStale_seek_iff`: a run reports a stale fix set if and only if the numbers of
  columns differ;
* `FixScene.after`: what may happen to the heuristic and its model;
* `FixScene.IsDerived`, `FixScene.isDerived_afterAll`: the fix set is the one of the problem for
  which it was derived last;
* `FixScene.usesCurrentFixSet_iff`: when that is as good as the one of the current problem;
* `FixScene.not_usesCurrentFixSet_swap`: a run with a stale fix set.
-/

namespace PrimalHeuristics

open SubProblem

variable {α : Type} [Scalar α]

/-! ### Reports -/

/-- The failure reports a table of another problem. -/
def Failure.isStale : Failure α → Bool
  | .error (.staleModel _ _) => true
  | _ => false

/-- The computation ends with a report of a table of another problem. -/
def ReportsStale {ω : Type} (x : Except (Failure α) ω) : Prop :=
  ∃ e, x = .error e ∧ e.isStale = true

omit [Scalar α] in
@[simp] theorem reportsStale_error {ω : Type} (e : Failure α) :
    ReportsStale (.error e : Except (Failure α) ω) ↔ e.isStale = true := by
  simp [ReportsStale]

omit [Scalar α] in
@[simp] theorem not_reportsStale_ok {ω : Type} (x : ω) :
    ¬ ReportsStale (.ok x : Except (Failure α) ω) := by
  simp [ReportsStale]

section Reports

variable {p : Problem α} {b : Box α} {best : α}

omit [Scalar α] in
theorem SubProblem.checkLengths_eq_error {n : Nat} {l : List (VectorRole × Nat)} {e : Error α}
    (h : checkLengths n l = .error e) : ∃ role got, e = .vectorLength role n got := by
  induction l with
  | nil => cases h
  | cons r l ih =>
    unfold checkLengths at h
    split at h
    · exact ih h
    · cases h
      exact ⟨_, _, rfl⟩

theorem SubProblem.restrict_eq_error {values : Array α} {free : Array Bool} {e : Error α}
    (h : restrict p values free b = .error e) :
    ∃ role got, e = .vectorLength role p.numCols got := by
  unfold restrict at h
  generalize hlengths : checkLengths (α := α) p.numCols _ = lengths at h
  cases lengths with
  | error f =>
    cases h
    exact checkLengths_eq_error hlengths
  | ok _ =>
    rw [Checked.ok_bind] at h
    split at h
    · cases h
    · split at h
      · rename_i hmatrix
        rw [freeMatrix?_eq] at hmatrix
        contradiction
      · cases h

/-- A search with propagation does not fail, so a sub-problem is only ever refused. -/
theorem Settings.subSolve_eq_error {s : Settings α} {sub : SubProblem α} {cap : Nat} {cutoff : α}
    {label : String} {e : Failure α} (h : s.subSolve sub cap cutoff label = .error e) :
    ∃ c, e = .error (.continuousColumn c) := by
  cases hfree : sub.freeContinuousColumn with
  | some c =>
    unfold subSolve SubSolver.relaxation at h
    rw [hfree] at h
    cases h
    exact ⟨c, rfl⟩
  | none =>
    obtain ⟨r, report, hsolve, -⟩ := s.exists_subSolve_eq hfree cap cutoff label
    rw [hsolve] at h
    cases h

theorem Attempt.isStale_of_complete {s : Settings α} {x : Array α} {free : Array Bool} {cutoff : α}
    {label : String} {tooLarge : SubProblem α → List (Message α)} {e : Failure α}
    (h : (complete s p b x free cutoff label tooLarge).candidate = .error e) :
    e.isStale = false := by
  unfold complete at h
  split at h
  · rename_i hrestrict
    obtain ⟨role, got, rfl⟩ := restrict_eq_error hrestrict
    cases h
    rfl
  · cases h
  · split at h
    · split at h
      · rename_i hsolve
        obtain ⟨c, rfl⟩ := Settings.subSolve_eq_error hsolve
        cases h
        rfl
      · rename_i r report hsolve
        dsimp only at h
        cases hy : r.solution with
        | none =>
          rw [hy] at h
          cases h
        | some y =>
          simp only [hy] at h
          unfold Failure.ofChecked at h
          split at h <;> cases h
          rfl
    · cases h

theorem Attempt.settle_eq_error {a : Attempt α} {e : Failure α}
    (h : a.settle p b best = .error e) : a.candidate = .error e ∨ ∃ f, e = .fault f := by
  unfold settle at h
  cases hcandidate : a.candidate with
  | error f =>
    rw [hcandidate] at h
    cases h
    exact .inl rfl
  | ok o =>
    rw [hcandidate, Checked.ok_bind] at h
    cases o with
    | none => cases h
    | some x =>
      cases himprovement : improvement p b best x with
      | ok w =>
        simp only [himprovement] at h
        cases h
      | error f =>
        simp only [himprovement] at h
        cases h
        exact .inr ⟨f, rfl⟩

/-- A run reports a stale fix set if and only if it was derived for another number of columns. -/
theorem PartialFix.reportsStale_trial_iff (f : PartialFix) (c : Core α) (p : Problem α) (n : Node α)
    (best : α) : ReportsStale (f.trial c p n best).answer ↔ f.numCols ≠ p.numCols := by
  unfold trial
  by_cases hcols : f.numCols = p.numCols
  · rw [if_pos hcols]
    refine ⟨?_, fun h => absurd hcols h⟩
    rintro ⟨e, he, hstale⟩
    split at he
    · cases he
      contradiction
    · cases he
    · obtain hcandidate | ⟨f, rfl⟩ := Attempt.settle_eq_error he
      · unfold attempt at hcandidate
        split at hcandidate
        · cases hcandidate
          contradiction
        · cases hcandidate
        · rw [Attempt.isStale_of_complete hcandidate] at hstale
          contradiction
      · contradiction
  · rw [if_neg hcols]
    exact ⟨fun _ => hcols, fun _ => ⟨_, rfl, rfl⟩⟩

end Reports

namespace Heuristic

variable {h k : Heuristic α} {f : PartialFix} {m : Model α} {buffer : Array α}

/-- A run that goes past its checks, on a problem with integer columns, reports a stale fix set if
and only if it was derived for another number of columns. -/
theorem reportsStale_seek_iff (hkind : h.kind = .partialFix f)
    (hcheck : h.check m buffer = .ok ()) (hinteger : m.problem.numIntegers ≠ 0) (best : α) :
    ReportsStale (h.seek m best buffer).outcome ↔ f.numCols ≠ m.problem.numCols := by
  rw [← f.reportsStale_trial_iff h.core m.problem m.node best]
  have htrial : (h.kind.trial h.core m.problem m.node best).answer =
      (f.trial h.core m.problem m.node best).answer := by
    rw [hkind]
    rfl
  rw [outcome_seek hcheck hinteger, htrial]
  cases (f.trial h.core m.problem m.node best).answer with
  | error e =>
    show ReportsStale (.error e : Except (Failure α) (SeekOutcome α)) ↔ _
    rw [reportsStale_error, reportsStale_error]
  | ok o =>
    show ReportsStale (.ok _ : Except (Failure α) (SeekOutcome α)) ↔ _
    simp only [not_reportsStale_ok]

theorem attached_of_check (hcheck : h.check m buffer = .ok ()) : h.core.attached = true := by
  obtain ⟨_, hcore, -⟩ := Checked.bind_eq_ok.1 hcheck
  unfold Core.check at hcore
  split at hcore
  · assumption
  · cases hcore

/-- A priority that is not refused is set, and the fix set of the problem is derived. -/
theorem setFixPriority_eq_ok (hkind : h.kind = .partialFix f) {priority : Int}
    (hk : h.setFixPriority m priority = .ok k) : k = { h with
      kind := .partialFix (if h.core.attached then
        { f with fixPriority := priority }.derive m.problem else
        { f with fixPriority := priority }) } := by
  unfold setFixPriority at hk
  rw [hkind] at hk
  obtain ⟨g, hg, hk⟩ := Checked.bind_eq_ok.1 hk
  cases hk
  unfold PartialFix.setPriority at hg
  split at hg
  · cases hg
  · cases hg
    cases h.core.attached <;> rfl

end Heuristic

/-! ### Histories -/

/-- What may happen to a partial fixing heuristic, or to its model. -/
inductive FixEvent (α : Type) [Scalar α] where
  | setPriority (priority : Int)
  | other (e : Event α)

/-- A partial fixing heuristic with its model. -/
structure FixScene (α : Type) [Scalar α] extends Scene α where
  /-- The problem for which the fix set was derived last, if it ever was. -/
  source : Option (Problem α)

/-- The fix set and the number of columns are those of a problem. -/
structure PartialFix.HasFixSetOf (f : PartialFix) (p : Problem α) : Prop where
  fixSet_eq : f.fixSet = fixSetOf p f.fixPriority
  numCols_eq : f.numCols = p.numCols

theorem PartialFix.hasFixSetOf_derive (f : PartialFix) (p : Problem α) :
    (f.derive p).HasFixSetOf p :=
  ⟨rfl, rfl⟩

theorem Core.attached_change (c : Core α) (e : Change α) :
    (c.change e).attached = c.attached := by
  unfold change
  cases he : c.change? e with
  | error _ => rfl
  | ok d =>
    show d.attached = c.attached
    cases e with
    | triggerCode | fractionSmall | howOften | decayFactor | farThreshold =>
      obtain ⟨_, -, hd⟩ := Checked.bind_eq_ok.1 he
      cases hd
      rfl
    | name | trigger | trustOddProblems | numberNodes | feasibilityPumpOptions | seed | subSolver =>
      cases he
      rfl

theorem PartialFix.own_trial (f : PartialFix) (c : Core α) (p : Problem α) (n : Node α)
    (best : α) : (f.trial c p n best).own = f := by
  unfold trial
  split
  · split <;> rfl
  · rfl

/-- Unless it is attached, a partial fixing heuristic keeps what it knows of problems. -/
theorem Scene.kept_after {s : Scene α} {f : PartialFix} (hkind : s.heuristic.kind = .partialFix f)
    {e : Event α} (he : ∀ m, e ≠ .attach m) : (s.after e).heuristic.kind = .partialFix f ∧
      (s.after e).heuristic.core.attached = s.heuristic.core.attached := by
  cases e with
  | seek best buffer =>
    refine ⟨?_, (s.heuristic.kept_seek s.model best buffer).attached_eq⟩
    show (s.heuristic.seek s.model best buffer).heuristic.kind = _
    rcases s.heuristic.heuristic_seek s.model best buffer with hsame | htrial
    · rw [hsame, hkind]
    · rw [htrial, hkind]
      exact congrArg Kind.partialFix (f.own_trial _ _ _ _)
  | shouldRun n =>
    refine ⟨hkind, ?_⟩
    show (s.heuristic.core.shouldRun n).2.attached = s.heuristic.core.attached
    unfold Core.shouldRun
    split <;> rfl
  | recordRun n found => exact ⟨hkind, rfl⟩
  | set c => exact ⟨hkind, s.heuristic.core.attached_change c⟩
  | setWeights w =>
    have hset : s.heuristic.setWeights w = s.heuristic := by
      unfold Heuristic.setWeights
      rw [hkind]
    show (s.heuristic.setWeights w).kind = _ ∧ (s.heuristic.setWeights w).core.attached = _
    rw [hset]
    exact ⟨hkind, rfl⟩
  | draw => exact ⟨hkind, rfl⟩
  | validate =>
    obtain ⟨hsame, -, hcore⟩ := s.heuristic.validate_cases s.model
    show (s.heuristic.validate s.model).1.kind = _ ∧
      (s.heuristic.validate s.model).1.core.attached = _
    rw [hsame]
    rcases hcore with hcore | hcore <;> rw [hcore] <;> exact ⟨hkind, rfl⟩
  | attach m => exact absurd rfl (he m)
  | setNode n => exact ⟨hkind, rfl⟩
  | propose objective solution source => exact ⟨hkind, rfl⟩
  | replaceProblem p => exact ⟨hkind, rfl⟩

namespace FixScene

variable {s : FixScene α}

/-- The priority is set, unless it is refused; if the heuristic is attached, the fix set is derived
anew. -/
def setPriority (s : FixScene α) (priority : Int) : FixScene α :=
  match s.heuristic.setFixPriority s.model priority with
  | .error _ => s
  | .ok h => { s with
      heuristic := h
      source := if s.heuristic.core.attached then some s.model.problem else s.source }

/-- The problem for which the fix set was derived last, after an event. -/
def sourceAfter (s : FixScene α) : Event α → Option (Problem α)
  | .attach m => some m.problem
  | _ => s.source

/-- The scene after an event. -/
def after (s : FixScene α) : FixEvent α → FixScene α
  | .setPriority priority => s.setPriority priority
  | .other e => ⟨s.toScene.after e, s.sourceAfter e⟩

/-- The scene after events. -/
def afterAll (s : FixScene α) (es : List (FixEvent α)) : FixScene α :=
  es.foldl after s

/-- The fix set is the one of the problem for which it was derived last; it was derived if the
heuristic is attached. -/
structure IsDerived (s : FixScene α) : Prop where
  attached_eq : s.heuristic.core.attached = s.source.isSome
  hasFixSetOf : ∃ f, s.heuristic.kind = .partialFix f ∧ ∀ p, s.source = some p → f.HasFixSetOf p

theorem IsDerived.setPriority (hs : s.IsDerived) (priority : Int) :
    (s.setPriority priority).IsDerived := by
  unfold FixScene.setPriority
  obtain ⟨hattached, f, hkind, hsource⟩ := hs
  cases hk : s.heuristic.setFixPriority s.model priority with
  | error _ => exact ⟨hattached, f, hkind, hsource⟩
  | ok k =>
    have hk := Heuristic.setFixPriority_eq_ok hkind hk
    dsimp only
    cases hc : s.heuristic.core.attached with
    | true =>
      rw [hc, if_pos rfl] at hk
      subst hk
      refine ⟨hc, _, rfl, fun p hp => ?_⟩
      cases hp
      exact PartialFix.hasFixSetOf_derive _ _
    | false =>
      -- nothing has been derived yet
      rw [hc, if_neg Bool.false_ne_true] at hk
      subst hk
      rw [if_neg Bool.false_ne_true]
      refine ⟨hattached, _, rfl, fun p hp => ?_⟩
      rw [hc, show s.source = some p from hp] at hattached
      cases hattached

/-- No event breaks the invariant. -/
theorem IsDerived.after (hs : s.IsDerived) (e : FixEvent α) : (s.after e).IsDerived := by
  cases e with
  | setPriority priority => exact hs.setPriority priority
  | other e =>
    obtain ⟨hattached, f, hkind, hsource⟩ := hs
    by_cases he : ∃ m, e = .attach m
    · obtain ⟨m, rfl⟩ := he
      refine ⟨rfl, f.derive m.problem, ?_, fun p hp => ?_⟩
      · show s.heuristic.kind.reset m.problem = _
        rw [hkind]
        rfl
      · cases hp
        exact f.hasFixSetOf_derive m.problem
    · have hne : ∀ m, e ≠ .attach m := fun m h => he ⟨m, h⟩
      have hsame : s.sourceAfter e = s.source := by
        unfold sourceAfter
        split
        · exact absurd rfl (hne _)
        · rfl
      obtain ⟨hkept, hcore⟩ := Scene.kept_after hkind hne
      show IsDerived ⟨s.toScene.after e, s.sourceAfter e⟩
      rw [hsame]
      exact ⟨hcore.trans hattached, f, hkept, hsource⟩

/-- The invariant holds throughout a history. -/
theorem isDerived_afterAll (hs : s.IsDerived) (es : List (FixEvent α)) :
    (s.afterAll es).IsDerived := by
  induction es generalizing s with
  | nil => exact hs
  | cons e es ih => exact ih (hs.after e)

end FixScene

/-- A partial fixing heuristic that has not been attached to a model. -/
structure PartialFix.IsNew (h : Heuristic α) : Prop where
  kind_eq : h.kind = .partialFix .fresh
  attached_eq : h.core.attached = false

namespace FixScene

variable {s : FixScene α} {best : α} {buffer : Array α}

/-- A new heuristic, next to a model that it does not know of yet. -/
def start (h : Heuristic α) (m : Model α) : FixScene α where
  heuristic := h
  model := m
  stale := false
  source := none

/-- A run that goes past its checks, on a problem with integer columns, reports a stale fix set or
works with the one of the current problem. -/
def UsesCurrentFixSet (s : FixScene α) (best : α) (buffer : Array α) : Prop :=
  s.heuristic.check s.model buffer = .ok () → s.model.problem.numIntegers ≠ 0 →
    ReportsStale (s.heuristic.seek s.model best buffer).outcome ∨
      ∃ f, s.heuristic.kind = .partialFix f ∧
        f.fixSet = PartialFix.fixSetOf s.model.problem f.fixPriority

/-- At such a run, the problem for which the fix set was derived last has another number of columns
than the current one, or the same columns are to be fixed. -/
def CannotConfuse (s : FixScene α) (buffer : Array α) : Prop :=
  s.heuristic.check s.model buffer = .ok () → s.model.problem.numIntegers ≠ 0 →
    ∃ f p, s.heuristic.kind = .partialFix f ∧ s.source = some p ∧
      (p.numCols ≠ s.model.problem.numCols ∨
        PartialFix.fixSetOf p f.fixPriority =
          PartialFix.fixSetOf s.model.problem f.fixPriority)

theorem IsDerived.usesCurrent_iff_cannotConfuse (hs : s.IsDerived) :
    s.UsesCurrentFixSet best buffer ↔ s.CannotConfuse buffer := by
  obtain ⟨hattached, f, hkind, hsource⟩ := hs
  unfold UsesCurrentFixSet CannotConfuse
  refine forall_congr' fun hcheck => forall_congr' fun hinteger => ?_
  rw [Heuristic.attached_of_check hcheck] at hattached
  obtain ⟨p, hp⟩ := Option.isSome_iff_exists.1 hattached.symm
  obtain ⟨hfix, hcols⟩ := hsource p hp
  rw [Heuristic.reportsStale_seek_iff hkind hcheck hinteger, hcols]
  constructor
  · rintro (hne | ⟨g, hg, hcurrent⟩)
    · exact ⟨f, p, hkind, hp, .inl hne⟩
    · cases hkind.symm.trans hg
      exact ⟨f, p, hkind, hp, .inr (hfix.symm.trans hcurrent)⟩
  · rintro ⟨g, q, hg, hq, hne | hsame⟩
    · cases hp.symm.trans hq
      exact .inl hne
    · cases hp.symm.trans hq
      cases hkind.symm.trans hg
      exact .inr ⟨f, hkind, hfix.trans hsame⟩

/-- Whatever has happened to the heuristic and its model, a run works with the current fix set or
reports a stale one, if and only if it cannot confuse the current problem with the one for which the
fix set was derived. -/
theorem usesCurrentFixSet_iff {h : Heuristic α} (hnew : PartialFix.IsNew h) (m : Model α)
    (es : List (FixEvent α)) (best : α) (buffer : Array α) :
    ((start h m).afterAll es).UsesCurrentFixSet best buffer ↔
      ((start h m).afterAll es).CannotConfuse buffer := by
  have hstart : (start h m).IsDerived :=
    ⟨hnew.attached_eq, .fresh, hnew.kind_eq, fun p hp => by cases hp⟩
  exact (isDerived_afterAll hstart es).usesCurrent_iff_cannotConfuse

/-- One binary column of cost minus one, with a priority. -/
def oneChoice (priority : Int) : Problem Binary64 :=
  Collection.oneColumn (-1) priority

/-- A search in which the column is one of those to be fixed. -/
def important : Model Binary64 where
  problem := oneChoice 0
  node := .root (oneChoice 0) #[0] 0
  incumbent := Model.noIncumbent
  messages := #[]

/-- The heuristic is attached, and then the column is none of those to be fixed any more. -/
def swap : List (FixEvent Binary64) :=
  [.other (.attach important), .other (.replaceProblem (oneChoice 20000))]

/-- A new heuristic with standard settings. -/
def untold : Heuristic Binary64 :=
  .ofKind (.partialFix .fresh)

theorem isNew_untold : PartialFix.IsNew untold :=
  ⟨rfl, rfl⟩

theorem usesCurrentFixSet_iff_swap : PartialFix.IsNew untold ∧
    (((start untold important).afterAll swap).UsesCurrentFixSet Scalar.infinity #[0] ↔
      ((start untold important).afterAll swap).CannotConfuse #[0]) :=
  ⟨isNew_untold, usesCurrentFixSet_iff isNew_untold important swap _ _⟩

/-- The column is fixed at zero, although the problem does not ask for it. -/
theorem not_usesCurrentFixSet_swap : PartialFix.IsNew untold ∧
    ¬ ((start untold important).afterAll swap).UsesCurrentFixSet Scalar.infinity #[0] := by
  refine ⟨isNew_untold, fun h => ?_⟩
  generalize hs : (start untold important).afterAll swap = s at h
  have hcheck : s.heuristic.check s.model #[0] = .ok () := by
    rw [← hs]
    decide +kernel
  have hinteger : s.model.problem.numIntegers ≠ 0 := by
    rw [← hs]
    decide +kernel
  have hseek : (s.heuristic.seek s.model Scalar.infinity #[0]).outcome = .ok (.improved (-0)) := by
    rw [← hs]
    decide +kernel
  have hkind : s.heuristic.kind = .partialFix ⟨PartialFix.defaultPriority, [0], 1⟩ := by
    rw [← hs]
    rfl
  have hcurrent : PartialFix.fixSetOf s.model.problem PartialFix.defaultPriority = [] := by
    rw [← hs]
    decide +kernel
  rcases h hcheck hinteger with hstale | ⟨f, hf, hfix⟩
  · rw [hseek] at hstale
    exact not_reportsStale_ok _ hstale
  · cases hkind.symm.trans hf
    rw [hcurrent] at hfix
    contradiction

end FixScene

end PrimalHeuristics
