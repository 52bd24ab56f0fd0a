import PrimalHeuristics.Proofs.Heuristic.Contract

/-!
# Rounding does not depend on the past

A rounding heuristic keeps a table of locks, a phase, a random stream and counts between its runs.
Only the table enters a run, and as long as the heuristic is told of every new problem the table is
the one that it would compute anew. So a run depends on settings, weights and the model alone.

* `Change`, `Event`, `Scene.after`: what may happen to a heuristic and its model;
* `Rounding.HasLocksOf`: the invariant, that there is no table or the one of the problem;
* `Rounding.trial_eq`: the answer of a run under the invariant;
* `Scene.IsCurrent`, `Scene.isCurrent_of_reaches`: the invariant throughout a history;
* `Rounding.renewed`, `Scene.seek_eq_renewed`: a run answers like the one of a new heuristic.
-/

namespace PrimalHeuristics

/-! ### Histories -/

/-- A change of a setting. -/
inductive Change (α : Type) where
  | name (s : String)
  | trigger (t : Trigger)
  | triggerCode (code : Int)
  | trustOddProblems (trust : Bool)
  | numberNodes (n : UInt64)
  | feasibilityPumpOptions (options : Int32)
  | fractionSmall (x : α)
  | howOften (n : UInt32)
  | decayFactor (x : α)
  | farThreshold (x : α)
  | seed (seed : UInt64)
  | subSolver (k : SubSolver)

/-- What may happen to a heuristic, or to the model that it is attached to. -/
inductive Event (α : Type) [Scalar α] where
  | seek (best : α) (buffer : Array α)
  | shouldRun (n : Node α)
  | recordRun (n : Node α) (found : Bool)
  | set (c : Change α)
  | setWeights (w : Weights α)
  | draw
  | validate
  /-- The heuristic is attached to a model, in whatever state: another one, or the same again. -/
  | attach (m : Model α)
  | setNode (n : Node α)
  | propose (objective : α) (solution : Array α) (source : String)
  | replaceProblem (p : Problem α)

/-- A heuristic with the model that it is attached to. -/
structure Scene (α : Type) [Scalar α] where
  heuristic : Heuristic α
  model : Model α
  /-- The heuristic has not been attached since the problem was replaced. -/
  stale : Bool

variable {α : Type} [Scalar α]

/-- The heuristic after a change of a setting, if the change is not refused. -/
def Core.change? (c : Core α) : Change α → Except (Error α) (Core α)
  | .name name => .ok (c.withSettings fun s => { s with name })
  | .trigger trigger => .ok (c.withSettings fun s => { s with trigger })
  | .triggerCode code => c.setTriggerCode code
  | .trustOddProblems trust => .ok (c.withSettings fun s => { s with trustOddProblems := trust })
  | .numberNodes n => .ok (c.withSettings fun s => { s with numberNodes := n })
  | .feasibilityPumpOptions options =>
    .ok (c.withSettings fun s => { s with feasibilityPumpOptions := options })
  | .fractionSmall x => c.setFractionSmall x
  | .howOften n => c.setHowOften n
  | .decayFactor x => c.setDecayFactor x
  | .farThreshold x => c.setFarThreshold x
  | .seed seed => .ok (c.setSeed seed)
  | .subSolver k => .ok (c.withSettings fun s => { s with subSolver := k })

/-- The heuristic after a change of a setting; one that is refused leaves no trace. -/
def Core.change (c : Core α) (change : Change α) : Core α :=
  (c.change? change).toOption.getD c

namespace Scene

/-- The scene after an event. -/
def after (s : Scene α) : Event α → Scene α
  | .seek best buffer =>
    let t := s.heuristic.seek s.model best buffer
    { s with heuristic := t.heuristic, model := t.model }
  | .shouldRun n =>
    { s with heuristic := { s.heuristic with core := (s.heuristic.core.shouldRun n).2 } }
  | .recordRun n found =>
    { s with heuristic := { s.heuristic with core := s.heuristic.core.recordRun n found } }
  | .set c => { s with heuristic := { s.heuristic with core := s.heuristic.core.change c } }
  | .setWeights w => { s with heuristic := s.heuristic.setWeights w }
  | .draw => { s with heuristic := { s.heuristic with core := s.heuristic.core.draw.2 } }
  | .validate =>
    let t := s.heuristic.validate s.model
    { s with heuristic := t.1, model := t.2 }
  | .attach m => ⟨s.heuristic.attach m, m, false⟩
  | .setNode n => { s with model := s.model.setNode n }
  | .propose objective solution source =>
    { s with model := ((s.model.propose objective solution source).toOption.map (·.2)).getD s.model }
  | .replaceProblem p => { s with model := s.model.replaceProblem p, stale := true }

/-- A heuristic only runs once it has been told of a new problem. -/
def Admits (s : Scene α) : Event α → Prop
  | .seek _ _ => s.stale = false
  | _ => True

/-- The scenes to which a history may lead. -/
inductive Reaches (s : Scene α) : Scene α → Prop
  | start : Reaches s s
  | step {t : Scene α} (h : Reaches s t) (e : Event α) (he : t.Admits e) : Reaches s (t.after e)

end Scene

/-! ### Runs -/

namespace Rounding

variable {r t : Rounding α} {p : Problem α} {c d : Core α}

/-- There is no table of locks, or the one of the problem. -/
def HasLocksOf (r : Rounding α) (p : Problem α) : Prop :=
  r.locks = none ∨ r.locks = some (.byColumn p)

theorem ensureLocks_eq (h : r.HasLocksOf p) :
    ∃ phase, r.ensureLocks p = .ok ⟨r.weights, some (.byColumn p), phase⟩ := by
  obtain ⟨weights, locks, phase⟩ := r
  unfold ensureLocks
  rcases h with rfl | rfl
  · exact ⟨_, rfl⟩
  · exact ⟨phase, if_pos (Locks.size_byColumn p)⟩

/-- Under the invariant the answer of a run depends on settings, weights and the model alone. -/
theorem trial_eq (hr : r.HasLocksOf p) (ht : t.HasLocksOf p) (hw : r.weights = t.weights)
    (hc : c.settings = d.settings) (n : Node α) (best : α) :
    (r.trial c p n best).answer = (t.trial d p n best).answer := by
  obtain ⟨phase, hr⟩ := ensureLocks_eq hr
  obtain ⟨phase', ht⟩ := ensureLocks_eq ht
  unfold trial
  rw [hr, ht, hw, hc]
  dsimp only
  cases p.emptyIntegerDomain n.box.lower n.box.upper with
  | error f => rfl
  | ok o =>
    cases o with
    | some _ => rfl
    | none =>
      dsimp only
      cases point t.weights ((some (Locks.byColumn p)).getD #[]) p n d.settings.seed <;> rfl

/-- A run keeps the weights, and at most computes the locks of the problem. -/
theorem own_trial (hr : r.HasLocksOf p) (c : Core α) (n : Node α) (best : α) :
    (r.trial c p n best).own.weights = r.weights ∧ (r.trial c p n best).own.HasLocksOf p := by
  obtain ⟨phase, hlocks⟩ := ensureLocks_eq hr
  unfold trial
  rw [hlocks]
  dsimp only
  cases p.emptyIntegerDomain n.box.lower n.box.upper with
  | error f => exact ⟨rfl, .inr rfl⟩
  | ok o =>
    cases o with
    | some _ => exact ⟨rfl, .inr rfl⟩
    | none =>
      dsimp only
      cases point r.weights ((some (Locks.byColumn p)).getD #[]) p n c.settings.seed with
      | error f => exact ⟨rfl, .inr rfl⟩
      | ok x =>
        dsimp only
        cases (attempt c.settings p n.box best x).settle p n.box best with
        | error e => exact ⟨rfl, .inr rfl⟩
        | ok o => cases o <;> exact ⟨rfl, .inr rfl⟩

end Rounding

/-! ### Settings stay valid -/

/-- A change is refused by the check by which settings are validated. -/
theorem Core.validate_change {c : Core α} (hc : c.settings.validate = .ok ()) (e : Change α) :
    (c.change e).settings.validate = .ok () := by
  obtain ⟨hfraction, hfar, hoften, hdecay⟩ := Settings.validate_eq_ok.1 hc
  unfold change
  cases he : c.change? e with
  | error _ => exact hc
  | ok d =>
    show d.settings.validate = .ok ()
    rw [Settings.validate_eq_ok]
    cases e with
    | triggerCode code =>
      obtain ⟨_, -, hd⟩ := Checked.bind_eq_ok.1 he
      cases hd
      exact ⟨hfraction, hfar, hoften, hdecay⟩
    | fractionSmall x =>
      obtain ⟨_, hx, hd⟩ := Checked.bind_eq_ok.1 he
      cases hd
      exact ⟨hx, hfar, hoften, hdecay⟩
    | howOften n =>
      obtain ⟨_, hn, hd⟩ := Checked.bind_eq_ok.1 he
      cases hd
      exact ⟨hfraction, hfar, hn, hdecay⟩
    | decayFactor x =>
      obtain ⟨_, hx, hd⟩ := Checked.bind_eq_ok.1 he
      cases hd
      exact ⟨hfraction, hfar, hoften, hx⟩
    | farThreshold x =>
      obtain ⟨_, hx, hd⟩ := Checked.bind_eq_ok.1 he
      cases hd
      exact ⟨hfraction, hx, hoften, hdecay⟩
    | name | trigger | trustOddProblems | numberNodes | feasibilityPumpOptions | seed | subSolver =>
      cases he
      exact ⟨hfraction, hfar, hoften, hdecay⟩

/-! ### The invariant -/

/-- A validation only ever switches the heuristic off, and says so. -/
theorem Heuristic.validate_cases (h : Heuristic α) (m : Model α) :
    (h.validate m).1.kind = h.kind ∧ m.Agrees (h.validate m).2 ∧
      ((h.validate m).1.core = h.core ∨
        (h.validate m).1.core = h.core.withSettings fun s => { s with trigger := .off }) := by
  have hdisable (reason : String) : m.Agrees (h.core.disable m reason).2 := by
    unfold Core.disable Core.tell
    dsimp only
    split
    · exact (Model.Agrees.refl m).send_right _
    · exact .refl m
  have hodd (b : Bool) : m.Agrees (h.core.disableIfOdd m b).2 ∧
      ((h.core.disableIfOdd m b).1 = h.core ∨
        (h.core.disableIfOdd m b).1 = h.core.withSettings fun s => { s with trigger := .off }) := by
    unfold Core.disableIfOdd
    split
    · exact ⟨hdisable _, .inr rfl⟩
    · exact ⟨.refl m, .inl rfl⟩
  refine ⟨rfl, ?_⟩
  unfold validate
  dsimp only
  split
  · split
    · exact ⟨hdisable _, .inr rfl⟩
    · exact hodd _
  · exact hodd _

theorem Core.settings_shouldRun (c : Core α) (n : Node α) :
    (c.shouldRun n).2.settings = c.settings := by
  unfold shouldRun
  split <;> rfl

theorem Model.problem_propose (m : Model α) (objective : α) (x : Array α) (source : String) :
    (((m.propose objective x source).toOption.map (·.2)).getD m).problem = m.problem := by
  cases hm : m.propose objective x source with
  | error _ => rfl
  | ok p => exact (Model.kept_propose hm).1

namespace Scene

variable {s t : Scene α}

/-- The settings are valid, and unless the problem was replaced behind the back of the heuristic,
its locks are those of the problem. -/
structure IsCurrent (s : Scene α) : Prop where
  valid : s.heuristic.core.settings.validate = .ok ()
  locks : ∃ r, s.heuristic.kind = .rounding r ∧
    (s.stale = false → r.HasLocksOf s.model.problem)

/-- No event that is admitted breaks the invariant. -/
theorem IsCurrent.after (h : s.IsCurrent) {e : Event α} (he : s.Admits e) :
    (s.after e).IsCurrent := by
  obtain ⟨hvalid, r, hkind, hlocks⟩ := h
  cases e with
  | seek best buffer =>
    -- the run is admitted, so there is no table yet or the one of the problem
    have hproblem := (s.heuristic.agrees_seek s.model best buffer).problem_eq
    refine ⟨?_, ?_⟩
    · show (s.heuristic.seek s.model best buffer).heuristic.core.settings.validate = .ok ()
      rw [Heuristic.settings_seek]
      exact hvalid
    · show ∃ t, (s.heuristic.seek s.model best buffer).heuristic.kind = .rounding t ∧
        (s.stale = false → t.HasLocksOf (s.heuristic.seek s.model best buffer).model.problem)
      rw [← hproblem]
      rcases s.heuristic.heuristic_seek s.model best buffer with hsame | htrial
      · exact ⟨r, by rw [hsame, hkind], hlocks⟩
      · refine ⟨(r.trial s.heuristic.core s.model.problem s.model.node best).own, ?_, fun _ => ?_⟩
        · rw [htrial, hkind]
          rfl
        · exact (Rounding.own_trial (hlocks he) _ _ _).2
  | shouldRun n => exact ⟨by rw [← hvalid]; exact congrArg _ (Core.settings_shouldRun _ n),
      r, hkind, hlocks⟩
  | recordRun n found => exact ⟨hvalid, r, hkind, hlocks⟩
  | set c => exact ⟨Core.validate_change hvalid c, r, hkind, hlocks⟩
  | setWeights w =>
    have hset : s.heuristic.setWeights w =
        { s.heuristic with kind := .rounding { r with weights := w } } := by
      unfold Heuristic.setWeights
      rw [hkind]
    refine ⟨?_, { r with weights := w }, ?_, hlocks⟩
    · show (s.heuristic.setWeights w).core.settings.validate = .ok ()
      rw [hset]
      exact hvalid
    · show (s.heuristic.setWeights w).kind = _
      rw [hset]
  | draw => exact ⟨hvalid, r, hkind, hlocks⟩
  | validate =>
    obtain ⟨hsame, hmodel, hcore⟩ := s.heuristic.validate_cases s.model
    refine ⟨?_, r, hsame.trans hkind, fun hstale => ?_⟩
    · show (s.heuristic.validate s.model).1.core.settings.validate = .ok ()
      rcases hcore with hcore | hcore <;> rw [hcore] <;> exact hvalid
    · show r.HasLocksOf (s.heuristic.validate s.model).2.problem
      rw [← hmodel.problem_eq]
      exact hlocks hstale
  | attach m =>
    refine ⟨hvalid, r.reset, ?_, fun _ => .inl rfl⟩
    show s.heuristic.kind.reset m.problem = _
    rw [hkind]
    rfl
  | setNode n => exact ⟨hvalid, r, hkind, hlocks⟩
  | propose objective solution source =>
    have hproblem := s.model.problem_propose objective solution source
    dsimp only [Scene.after]
    generalize ((s.model.propose objective solution source).toOption.map (·.2)).getD s.model = l
      at hproblem ⊢
    exact ⟨hvalid, r, hkind, fun hstale => hproblem ▸ hlocks hstale⟩
  | replaceProblem p => exact ⟨hvalid, r, hkind, fun hstale => by cases hstale⟩

/-- The invariant holds throughout a history. -/
theorem isCurrent_of_reaches (hs : s.IsCurrent) (h : s.Reaches t) : t.IsCurrent := by
  induction h with
  | start => exact hs
  | step _ e he ih => exact ih.after he

end Scene

/-! ### A new heuristic in its place -/

/-- A new heuristic with the settings of another one, attached to a model if the other one is. -/
def Rounding.renewed (h : Heuristic α) (w : Weights α) (m : Model α) :
    Except (Error α) (Heuristic α) := do
  let k ← Heuristic.ofSettings? (.rounding .fresh) h.core.settings
  let k := k.setWeights w
  return if h.core.attached then k.attach m else k

/-- The new heuristic answers every call as the old one does. -/
theorem Scene.IsCurrent.seek_eq {s : Scene α} (h : s.IsCurrent) (hstale : s.stale = false)
    {l : Model α} (hl : s.model.Agrees l) (best : α) (buffer : Array α) :
    ∃ r k, s.heuristic.kind = .rounding r ∧ Rounding.renewed s.heuristic r.weights l = .ok k ∧
      (s.heuristic.seek s.model best buffer).outcome = (k.seek l best buffer).outcome ∧
      (s.heuristic.seek s.model best buffer).buffer = (k.seek l best buffer).buffer := by
  obtain ⟨hvalid, r, hkind, hlocks⟩ := h
  have hlocks : r.HasLocksOf l.problem := hl.problem_eq ▸ hlocks hstale
  -- The new heuristic has no locks; a table that the old one has is the one it will compute.
  obtain ⟨t, k, hk, hsettings, hattached, hnew, hweights, hnone⟩ :
      ∃ t k, Rounding.renewed s.heuristic r.weights l = .ok k ∧
        k.core.settings = s.heuristic.core.settings ∧
        k.core.attached = s.heuristic.core.attached ∧ k.kind = .rounding t ∧
        t.weights = r.weights ∧ t.locks = none := by
    unfold Rounding.renewed Heuristic.ofSettings? Core.ofSettings?
    rw [hvalid]
    cases hattached : s.heuristic.core.attached
    · exact ⟨_, _, rfl, rfl, rfl, rfl, rfl, rfl⟩
    · exact ⟨_, _, rfl, rfl, rfl, rfl, rfl, rfl⟩
  refine ⟨r, k, hkind, hk, ?_⟩
  refine Heuristic.seek_eq_of_answer hattached.symm hsettings.symm hl ?_ buffer
  rw [hkind, hnew]
  exact Rounding.trial_eq hlocks (.inl hnone) hweights.symm hsettings.symm l.node best

/-- The rounding heuristics as they are created: with standard settings, or with given ones. -/
inductive Rounding.IsNew : Heuristic Binary64 → Prop
  | standard : IsNew (.ofKind (.rounding .fresh))
  | ofSettings {s : Settings Binary64} {h : Heuristic Binary64}
    (hs : Heuristic.ofSettings? (.rounding .fresh) s = .ok h) : IsNew h

theorem Rounding.IsNew.isCurrent {h : Heuristic Binary64} (hnew : Rounding.IsNew h)
    (m : Model Binary64) : Scene.IsCurrent ⟨h, m, false⟩ := by
  cases hnew with
  | standard =>
    have hvalid : (Settings.named "Rounding" : Settings Binary64).validate = .ok () := by
      decide +kernel
    exact ⟨hvalid, .fresh, rfl, fun _ => .inl rfl⟩
  | @ofSettings s _ hs =>
    obtain ⟨c, hc, hs⟩ := Checked.bind_eq_ok.1 hs
    obtain ⟨_, hvalid, hc⟩ := Checked.bind_eq_ok.1 hc
    cases hc
    cases hs
    exact ⟨hvalid, .fresh, rfl, fun _ => .inl rfl⟩

/-- Whatever happened to a rounding heuristic before, a run has the same outcome and leaves the same
buffer as one of a new heuristic with the same settings and weights. -/
theorem Scene.seek_eq_renewed {h : Heuristic Binary64} (hnew : Rounding.IsNew h)
    {m : Model Binary64} {s : Scene Binary64} (hs : Scene.Reaches ⟨h, m, false⟩ s)
    (hstale : s.stale = false) {l : Model Binary64} (hl : s.model.Agrees l) (best : Binary64)
    (buffer : Array Binary64) :
    ∃ r k, s.heuristic.kind = .rounding r ∧ Rounding.renewed s.heuristic r.weights l = .ok k ∧
      (s.heuristic.seek s.model best buffer).outcome = (k.seek l best buffer).outcome ∧
      (s.heuristic.seek s.model best buffer).buffer = (k.seek l best buffer).buffer :=
  (Scene.isCurrent_of_reaches (hnew.isCurrent m) hs).seek_eq hstale hl best buffer

/-- Three binary columns of cost minus one, of which only two may be chosen. -/
def twoOfThree : Problem Binary64 where
  columns := #[⟨-1, 0, 1, true, 0⟩, ⟨-1, 0, 1, true, 0⟩, ⟨-1, 0, 1, true, 0⟩]
  rowBounds := #[⟨-Scalar.infinity, Scalar.ofNat 2⟩]
  matrix := .ofEntries 1 3 [⟨0, 0, 1⟩, ⟨0, 1, 1⟩, ⟨0, 2, 1⟩]
  sosSets := []
  numCols_matrix := rfl
  numRows_matrix := by simp

namespace Scene

/-- A new heuristic, next to a model that it does not know of yet. -/
def unused : Scene Binary64 :=
  ⟨.ofKind (.rounding .fresh), Heuristic.halfOfEach, false⟩

/-- The heuristic has run and drawn random numbers when the problem is replaced. -/
def replaced : Scene Binary64 :=
  ((((unused.after (.attach Heuristic.halfOfEach)).after (.seek 0 #[0, 0])).after
    (.set (.seed 7))).after .draw).after (.replaceProblem twoOfThree)

/-- It has been told so, and the search is at a node again. -/
def reused : Scene Binary64 :=
  (replaced.after (.attach replaced.model)).after
    (.setNode (.root twoOfThree (.replicate 3 (Scalar.decimal 5 1)) (-1)))

theorem seek_eq_renewed_reused :
    Rounding.IsNew unused.heuristic ∧ unused.Reaches reused ∧ reused.stale = false ∧
      (reused.heuristic.seek reused.model 0 #[0, 0, 0]).outcome = .ok (.improved (-Scalar.ofNat 2)) ∧
      ∃ r k, reused.heuristic.kind = .rounding r ∧
        Rounding.renewed reused.heuristic r.weights reused.model = .ok k ∧
        (reused.heuristic.seek reused.model 0 #[0, 0, 0]).outcome =
          (k.seek reused.model 0 #[0, 0, 0]).outcome ∧
        (reused.heuristic.seek reused.model 0 #[0, 0, 0]).buffer =
          (k.seek reused.model 0 #[0, 0, 0]).buffer := by
  have hreaches : unused.Reaches reused := by
    refine .step (.step (.step (.step (.step (.step (.step .start _ ?_) _ ?_) _ ?_) _ ?_)
      _ ?_) _ ?_) _ ?_
    · trivial
    · rfl
    all_goals trivial
  exact ⟨.standard, hreaches, rfl, by decide +kernel,
    seek_eq_renewed .standard hreaches rfl (.refl _) 0 #[0, 0, 0]⟩

end Scene

end PrimalHeuristics
