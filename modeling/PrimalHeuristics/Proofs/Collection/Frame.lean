import PrimalHeuristics.Collection

/-!
# What a run of a heuristic depends on

A run reads the settings, the random stream and the kind of a heuristic, and of the model the
problem, the node and the incumbent. The memory of earlier runs and the messages that were sent make
no difference to what it finds.

* `Core.Agrees`, `Heuristic.Agrees`, `Model.Agrees`: equal but for the memory and the messages;
* `Kind.trial_agrees`, `Heuristic.seek_agrees`: a run finds the same;
* `Core.Kept`, `Heuristic.kept_seek`: what it leaves as it is;
* `Collection.runOne_agrees`: and so does the model.
-/

namespace PrimalHeuristics

variable {α : Type} [Scalar α]

/-! ### Agreement -/

/-- Equal but for what is remembered of runs. -/
structure Core.Agrees (c d : Core α) : Prop where
  attached_eq : c.attached = d.attached
  settings_eq : c.settings = d.settings
  stream_eq : c.stream = d.stream

/-- Equal but for what is remembered of runs. -/
structure Heuristic.Agrees (h k : Heuristic α) : Prop where
  core : h.core.Agrees k.core
  kind_eq : h.kind = k.kind

/-- Equal but for the messages. -/
structure Model.Agrees (m l : Model α) : Prop where
  problem_eq : m.problem = l.problem
  node_eq : m.node = l.node
  incumbent_eq : m.incumbent = l.incumbent

/-- What runs keep of a heuristic. -/
structure Core.Kept (c d : Core α) : Prop where
  attached_eq : d.attached = c.attached
  settings_eq : d.settings = c.settings
  runNodes_eq : d.runNodes = c.runNodes

/-- The same result, left to agreeing models by heuristics with the same settings. -/
structure Seek.Agrees {ω : Type} (s t : Seek α ω) : Prop where
  outcome_eq : s.outcome = t.outcome
  settings_eq : s.heuristic.core.settings = t.heuristic.core.settings
  model : s.model.Agrees t.model
  buffer_eq : s.buffer = t.buffer

/-- The same result, left to agreeing models. -/
structure Turn.Agrees (s t : Turn α) : Prop where
  outcome_eq : s.outcome = t.outcome
  model : s.model.Agrees t.model

namespace Core.Agrees

variable {c d e : Core α}

omit [Scalar α] in
protected theorem symm (h : c.Agrees d) : d.Agrees c :=
  ⟨h.attached_eq.symm, h.settings_eq.symm, h.stream_eq.symm⟩

omit [Scalar α] in
protected theorem trans (h : c.Agrees d) (h' : d.Agrees e) : c.Agrees e :=
  ⟨h.attached_eq.trans h'.attached_eq, h.settings_eq.trans h'.settings_eq,
    h.stream_eq.trans h'.stream_eq⟩

end Core.Agrees

namespace Model.Agrees

variable {m l : Model α}

protected theorem refl (m : Model α) : m.Agrees m :=
  ⟨rfl, rfl, rfl⟩

theorem send (h : m.Agrees l) (a b : Message α) : (m.send a).Agrees (l.send b) :=
  ⟨h.problem_eq, h.node_eq, h.incumbent_eq⟩

theorem send_right (h : m.Agrees l) (a : Message α) : m.Agrees (l.send a) :=
  ⟨h.problem_eq, h.node_eq, h.incumbent_eq⟩

theorem sendAll_right (h : m.Agrees l) (a : List (Message α)) : m.Agrees (l.sendAll a) := by
  unfold Model.sendAll
  induction a generalizing l with
  | nil => exact h
  | cons x a ih => exact ih (h.send_right x)

protected theorem symm (h : m.Agrees l) : l.Agrees m :=
  ⟨h.problem_eq.symm, h.node_eq.symm, h.incumbent_eq.symm⟩

protected theorem trans {k : Model α} (h : m.Agrees l) (h' : l.Agrees k) : m.Agrees k :=
  ⟨h.problem_eq.trans h'.problem_eq, h.node_eq.trans h'.node_eq,
    h.incumbent_eq.trans h'.incumbent_eq⟩

theorem sendAll (h : m.Agrees l) (a b : List (Message α)) : (m.sendAll a).Agrees (l.sendAll b) :=
  ((h.sendAll_right b).symm.sendAll_right a).symm

end Model.Agrees

/-! ### Runs of the kinds -/

variable {c d : Core α}

theorem Rounding.trial_agrees (h : c.Agrees d) (r : Rounding α) (p : Problem α) (n : Node α)
    (best : α) : (r.trial c p n best).answer = (r.trial d p n best).answer := by
  unfold trial
  rw [h.settings_eq]
  cases r.ensureLocks p with
  | error e => rfl
  | ok r =>
    dsimp only
    cases p.emptyIntegerDomain n.box.lower n.box.upper with
    | error f => rfl
    | ok o =>
      cases o with
      | some _ => rfl
      | none =>
        dsimp only
        cases point r.weights (r.locks.getD #[]) p n d.settings.seed <;> rfl

theorem Rounding.kept_trial (c : Core α) (r : Rounding α) (p : Problem α) (n : Node α)
    (best : α) : c.Kept (r.trial c p n best).core := by
  unfold trial
  split
  · exact ⟨rfl, rfl, rfl⟩
  · split
    · exact ⟨rfl, rfl, rfl⟩
    · exact ⟨rfl, rfl, rfl⟩
    · split <;> exact ⟨rfl, rfl, rfl⟩

theorem PartialFix.trial_agrees (h : c.Agrees d) (f : PartialFix) (p : Problem α) (n : Node α)
    (best : α) : (f.trial c p n best).answer = (f.trial d p n best).answer := by
  unfold trial
  rw [h.settings_eq]
  split
  · cases p.emptyIntegerDomain n.box.lower n.box.upper with
    | error e => rfl
    | ok o => cases o <;> rfl
  · rfl

theorem PartialFix.kept_trial (c : Core α) (f : PartialFix) (p : Problem α) (n : Node α)
    (best : α) : c.Kept (f.trial c p n best).core := by
  unfold trial
  split
  · split <;> exact ⟨rfl, rfl, rfl⟩
  · exact ⟨rfl, rfl, rfl⟩

theorem Serendipity.trial_agrees (h : c.Agrees d) (s : Serendipity α) (p : Problem α)
    (n : Node α) (best : α) :
    (s.trial c p n best).answer = (s.trial d p n best).answer := by
  unfold trial
  rw [h.stream_eq]
  cases capture p n best with
  | error f => rfl
  | ok o => cases o <;> rfl

theorem Serendipity.kept_trial (c : Core α) (s : Serendipity α) (p : Problem α) (n : Node α)
    (best : α) : c.Kept (s.trial c p n best).core := by
  unfold trial
  split <;> exact ⟨rfl, rfl, rfl⟩

/-- What a run finds does not depend on the memory of earlier ones. -/
theorem Kind.trial_agrees (h : c.Agrees d) (k : Kind α) (p : Problem α) (n : Node α) (best : α) :
    (k.trial c p n best).answer = (k.trial d p n best).answer := by
  cases k with
  | rounding r => exact r.trial_agrees h p n best
  | partialFix f => exact f.trial_agrees h p n best
  | serendipity s => exact s.trial_agrees h p n best

/-- A run at most draws random numbers and counts the nodes of sub-problems. -/
theorem Kind.kept_trial (c : Core α) (k : Kind α) (p : Problem α) (n : Node α) (best : α) :
    c.Kept (k.trial c p n best).core := by
  cases k with
  | rounding r => exact r.kept_trial c p n best
  | partialFix f => exact f.kept_trial c p n best
  | serendipity s => exact s.kept_trial c p n best

/-! ### Runs at a node -/

variable {h k : Heuristic α} {m l : Model α}

namespace Heuristic

/-- A run leaves messages in the model, and nothing else. -/
theorem agrees_seek (h : Heuristic α) (m : Model α) (best : α) (buffer : Array α) :
    m.Agrees (h.seek m best buffer).model := by
  unfold seek
  cases h.check m buffer with
  | error e => exact .refl m
  | ok u =>
    dsimp only
    split
    · exact .refl m
    · have hmodel := (Model.Agrees.refl m).sendAll_right
        (h.kind.trial h.core m.problem m.node best).messages
      cases (h.kind.trial h.core m.problem m.node best).answer with
      | error e => exact hmodel
      | ok o => cases o <;> exact hmodel

/-- What a run leaves of a heuristic: what it was, or what the trial of its kind leaves. -/
theorem heuristic_seek (h : Heuristic α) (m : Model α) (best : α) (buffer : Array α) :
    (h.seek m best buffer).heuristic = h ∨
      (h.seek m best buffer).heuristic =
        ⟨(h.kind.trial h.core m.problem m.node best).core,
          (h.kind.trial h.core m.problem m.node best).own⟩ := by
  unfold seek
  cases h.check m buffer with
  | error e => exact .inl rfl
  | ok u =>
    dsimp only
    split
    · exact .inl rfl
    · right
      cases (h.kind.trial h.core m.problem m.node best).answer with
      | error e => rfl
      | ok o => cases o <;> rfl

theorem kept_seek (h : Heuristic α) (m : Model α) (best : α) (buffer : Array α) :
    h.core.Kept (h.seek m best buffer).heuristic.core := by
  rcases h.heuristic_seek m best buffer with heq | heq <;> rw [heq]
  · exact ⟨rfl, rfl, rfl⟩
  · exact Kind.kept_trial h.core h.kind m.problem m.node best

/-- A run keeps the settings. -/
theorem settings_seek (h : Heuristic α) (m : Model α) (best : α) (buffer : Array α) :
    (h.seek m best buffer).heuristic.core.settings = h.core.settings :=
  (h.kept_seek m best buffer).settings_eq

theorem check_eq (ha : h.core.attached = k.core.attached)
    (hs : h.core.settings = k.core.settings) (hm : m.Agrees l) (buffer : Array α) :
    h.check m buffer = k.check l buffer := by
  unfold check Core.check
  rw [ha, hs, hm.problem_eq, hm.node_eq]

/-- Runs with the same answer have the same outcome, and leave the same buffer. -/
theorem seek_eq_of_answer (ha : h.core.attached = k.core.attached)
    (hs : h.core.settings = k.core.settings) (hm : m.Agrees l) {best : α}
    (hanswer : (h.kind.trial h.core l.problem l.node best).answer =
      (k.kind.trial k.core l.problem l.node best).answer) (buffer : Array α) :
    (h.seek m best buffer).outcome = (k.seek l best buffer).outcome ∧
      (h.seek m best buffer).buffer = (k.seek l best buffer).buffer := by
  unfold seek
  rw [check_eq ha hs hm, hm.problem_eq, hm.node_eq]
  cases k.check l buffer with
  | error e => exact ⟨rfl, rfl⟩
  | ok u =>
    dsimp only
    split
    · exact ⟨rfl, rfl⟩
    · rw [hanswer]
      cases (k.kind.trial k.core l.problem l.node best).answer with
      | error e => exact ⟨rfl, rfl⟩
      | ok o => cases o <;> exact ⟨rfl, rfl⟩

/-- What a heuristic finds does not depend on the memory of earlier runs, nor on messages. -/
theorem seek_agrees (hh : h.Agrees k) (hm : m.Agrees l) (best : α) (buffer : Array α) :
    (h.seek m best buffer).Agrees (k.seek l best buffer) := by
  have hanswer : (h.kind.trial h.core l.problem l.node best).answer =
      (k.kind.trial k.core l.problem l.node best).answer := by
    rw [hh.kind_eq]
    exact k.kind.trial_agrees hh.core l.problem l.node best
  obtain ⟨houtcome, hbuffer⟩ :=
    seek_eq_of_answer hh.core.attached_eq hh.core.settings_eq hm hanswer buffer
  have hmodel : (h.seek m best buffer).model.Agrees (k.seek l best buffer).model :=
    (agrees_seek h m best buffer).symm.trans (hm.trans (agrees_seek k l best buffer))
  refine ⟨houtcome, ?_, hmodel, hbuffer⟩
  rw [settings_seek, settings_seek, hh.core.settings_eq]

end Heuristic

/-- A proposal touches neither the problem nor the node. -/
theorem Model.kept_propose {m l : Model α} {objective : α} {x : Array α} {source : String}
    {accepted : Bool} (h : m.propose objective x source = .ok (accepted, l)) :
    l.problem = m.problem ∧ l.node = m.node := by
  obtain ⟨feasible, -, h⟩ := Checked.bind_eq_ok.1 h
  cases feasible with
  | false =>
    cases h
    exact ⟨rfl, rfl⟩
  | true =>
    rw [if_pos rfl] at h
    split at h <;> cases h <;> exact ⟨rfl, rfl⟩

/-- Models that agree answer a proposal alike. -/
theorem Model.Agrees.propose (hm : m.Agrees l) (objective : α) (x : Array α) (source : String) :
    (∃ f, m.propose objective x source = .error f ∧ l.propose objective x source = .error f) ∨
      ∃ b m' l', m.propose objective x source = .ok (b, m') ∧
        l.propose objective x source = .ok (b, l') ∧ m'.Agrees l' := by
  unfold Model.propose
  rw [hm.problem_eq, hm.incumbent_eq]
  cases l.problem.isFeasible x l.problem.lower l.problem.upper with
  | error f => exact .inl ⟨f, rfl, rfl⟩
  | ok feasible =>
    right
    simp only [Checked.ok_bind]
    cases feasible with
    | false => exact ⟨false, _, _, rfl, rfl, hm.send _ _⟩
    | true =>
      by_cases hbest : l.incumbent.objective ≤ objective
      · simp only [if_pos hbest]
        exact ⟨false, _, _, rfl, rfl, hm⟩
      · simp only [if_neg hbest]
        exact ⟨true, _, _, rfl, rfl, rfl, hm.node_eq, rfl⟩

namespace Collection

theorem conclude_agrees (hs : h.core.settings = k.core.settings) (hm : m.Agrees l) (n : Node α)
    (outcome : String) (accepted : Option α) :
    (conclude h m n outcome accepted).Agrees (conclude k l n outcome accepted) := by
  refine ⟨?_, hm.send _ _⟩
  show Except.ok (accepted.map fun v => _) = Except.ok (accepted.map fun v => _)
  rw [hs]

/-- A heuristic that runs has the same result, whatever is remembered of earlier runs. -/
theorem runOne_agrees (hh : h.Agrees k) (hm : m.Agrees l) (n : Node α) :
    (runOne h m n).Agrees (runOne k l n) := by
  have hsent := hm.send (.start h.core.settings.name n.depth) (.start k.core.settings.name n.depth)
  have hseek := Heuristic.seek_agrees hh hsent m.incumbent.objective (blank m)
  unfold runOne
  dsimp only
  rw [show blank (l.send (.start k.core.settings.name n.depth)) = blank m by
      rw [blank, blank, ← hsent.problem_eq]; rfl,
    show (l.send (.start k.core.settings.name n.depth)).incumbent = m.incumbent from
      hm.incumbent_eq.symm,
    show blank (m.send (.start h.core.settings.name n.depth)) = blank m from rfl,
    show (m.send (.start h.core.settings.name n.depth)).incumbent = m.incumbent from rfl]
  generalize h.seek _ _ _ = s at hseek ⊢
  generalize k.seek _ _ _ = t at hseek ⊢
  obtain ⟨houtcome, hsettings, hmodel, hbuffer⟩ := hseek
  rw [houtcome]
  cases t.outcome with
  | error e => exact ⟨rfl, hmodel⟩
  | ok o =>
    cases o with
    | nothing => exact conclude_agrees hsettings hmodel n _ _
    | improved objective =>
      unfold offer
      rw [hbuffer, hh.core.settings_eq]
      obtain ⟨f, hs, ht⟩ | ⟨b, m', l', hs, ht, hagree⟩ :=
        hmodel.propose objective t.buffer k.core.settings.name
      · simp only [hs, ht]
        exact ⟨rfl, hmodel⟩
      · simp only [hs, ht, Checked.ok_bind]
        exact conclude_agrees hsettings hagree n _ _

end Collection

end PrimalHeuristics
