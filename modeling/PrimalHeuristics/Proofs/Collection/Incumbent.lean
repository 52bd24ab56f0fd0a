import PrimalHeuristics.Proofs.Collection.CutPhase
import PrimalHeuristics.Proofs.Heuristic.Contract
import PrimalHeuristics.Proofs.Tree

/-!
# The incumbent of a search

Heuristics find solutions within the bounds of a node, and the model asks for the bounds of the
problem. Since the bounds of nodes lie within those of the problem, the model accepts whatever a
heuristic comes up with, and each accepted solution is what the next heuristic has to beat.

* `Collection.offers`: the solutions that the heuristics of a pass propose;
* `Model.IsSound`: the invariant of a search, which gives that the incumbent is right;
* `Model.Advances`: what proposals do to the incumbent, one by one;
* `Collection.advances_runOne`, `Collection.advances_pass`: one heuristic, and a pass;
* `Session`, `Session.isSound_of_reaches`: passes, nodes and problems in any order;
* `Session.keepsIncumbent`: the incumbent throughout a session.
-/

namespace PrimalHeuristics

variable {α : Type} [Scalar α]

/-! ### What heuristics propose -/

/-- A solution that a heuristic proposes, and the model to which it does. -/
structure Offer (α : Type) [Scalar α] where
  source : String
  objective : α
  solution : Array α
  model : Model α

/-- The find that an offer becomes if it is accepted. -/
def Offer.find (o : Offer α) : Find α :=
  ⟨o.source, o.objective⟩

namespace Collection

/-- What a heuristic that runs proposes, if it reports an improvement. -/
def offer? (h : Heuristic α) (m : Model α) (n : Node α) : Option (Offer α) :=
  let m := m.send (.start h.core.settings.name n.depth)
  let s := h.seek m m.incumbent.objective (blank m)
  match s.outcome with
  | .ok (.improved objective) => some ⟨h.core.settings.name, objective, s.buffer, s.model⟩
  | _ => none

/-- The run of a heuristic, which also takes down what it proposes. -/
def runNoting (h : Heuristic α) (m : Model α) (noted : List (Offer α)) :
    Turn α × List (Offer α) :=
  (runOne h m m.node, noted ++ (offer? h m m.node).toList)

/-- What the heuristics of a pass at the current node propose, in order. -/
def offers (k : Collection α) (m : Model α) : List (Offer α) :=
  if k.attached then (pass runNoting m.node k.heuristics m []).2 else []

section Passes

variable {σ τ : Type} {run : Heuristic α → Model α → σ → Turn α × σ} {n : Node α}
  {h : Heuristic α} {m : Model α} {s : σ}

theorem pass_of_not_runs (hrun : h.core.runsAt n = false) (hs : List (Heuristic α)) :
    pass run n (h :: hs) m s = (⟨(pass run n hs m s).1.outcome,
      ⟨h.core.counted n, h.kind⟩ :: (pass run n hs m s).1.heuristics, (pass run n hs m s).1.model⟩,
      (pass run n hs m s).2) := by
  rw [pass]
  dsimp only
  rw [show (h.core.shouldRun n).1 = false from hrun]
  rfl

theorem pass_of_error {t : Turn α} {s' : σ} {e : Failure α} (hrun : h.core.runsAt n = true)
    (ht : run ⟨h.core.counted n, h.kind⟩ m s = (t, s')) (he : t.outcome = .error e)
    (hs : List (Heuristic α)) :
    pass run n (h :: hs) m s = (⟨.error e, t.heuristic :: hs, t.model⟩, s') := by
  have hdue : (h.core.shouldRun n).1 = true := hrun
  have ht : run ⟨(h.core.shouldRun n).2, h.kind⟩ m s = (t, s') := ht
  rw [pass]
  simp only [hdue, if_true, ht, he]

theorem pass_of_ok {t : Turn α} {s' : σ} {f : Option (Find α)} (hrun : h.core.runsAt n = true)
    (ht : run ⟨h.core.counted n, h.kind⟩ m s = (t, s')) (hf : t.outcome = .ok f)
    (hs : List (Heuristic α)) :
    pass run n (h :: hs) m s = (⟨(pass run n hs t.model s').1.outcome.map (f.toList ++ ·),
      t.heuristic :: (pass run n hs t.model s').1.heuristics, (pass run n hs t.model s').1.model⟩,
      (pass run n hs t.model s').2) := by
  have hdue : (h.core.shouldRun n).1 = true := hrun
  have ht : run ⟨(h.core.shouldRun n).2, h.kind⟩ m s = (t, s') := ht
  rw [pass]
  simp only [hdue, if_true, ht, hf]

/-- What is handed from run to run makes no difference for a pass if it makes none for a run. -/
theorem pass_fst (run : Heuristic α → Model α → σ → Turn α × σ)
    (run' : Heuristic α → Model α → τ → Turn α × τ)
    (hsame : ∀ (k : Heuristic α) (m : Model α) (s : σ) (t : τ), (run k m s).1 = (run' k m t).1)
    (n : Node α) (hs : List (Heuristic α)) (m : Model α) (s : σ) (t : τ) :
    (pass run n hs m s).1 = (pass run' n hs m t).1 := by
  induction hs generalizing m s t with
  | nil => rfl
  | cons h hs ih =>
    cases hrun : h.core.runsAt n with
    | false => rw [pass_of_not_runs hrun, pass_of_not_runs hrun, ih m s t]
    | true =>
      have heq := hsame ⟨h.core.counted n, h.kind⟩ m s t
      cases hu : run ⟨h.core.counted n, h.kind⟩ m s with
      | mk u s' =>
        cases hv : run' ⟨h.core.counted n, h.kind⟩ m t with
        | mk v t' =>
          rw [hu, hv] at heq
          cases heq
          cases ho : u.outcome with
          | error e => rw [pass_of_error hrun hu ho, pass_of_error hrun hv ho]
          | ok f => rw [pass_of_ok hrun hu ho, pass_of_ok hrun hv ho, ih _ s' t']

/-- What was taken down before a pass stays. -/
theorem pass_runNoting (n : Node α) (hs : List (Heuristic α)) (m : Model α)
    (noted : List (Offer α)) :
    (pass runNoting n hs m noted).2 = noted ++ (pass runNoting n hs m []).2 := by
  induction hs generalizing m noted with
  | nil => exact (List.append_nil noted).symm
  | cons h hs ih =>
    cases hrun : h.core.runsAt n with
    | false => rw [pass_of_not_runs hrun, pass_of_not_runs hrun, ih]
    | true =>
      cases ho : (turn h m n).outcome with
      | error e => rw [pass_of_error hrun rfl ho, pass_of_error hrun rfl ho, List.nil_append]
      | ok f =>
        rw [pass_of_ok hrun rfl ho, pass_of_ok hrun rfl ho]
        dsimp only
        rw [ih, ih _ ([] ++ _), List.nil_append, List.append_assoc]

theorem runAtNode_eq_noting {k : Collection α} (h : k.attached = true) (m : Model α) :
    k.runAtNode m = (pass runNoting m.node k.heuristics m []).1 := by
  rw [runAtNode_eq h]
  exact pass_fst (fun (h : Heuristic α) (m : Model α) (_ : Unit) => (runOne h m m.node, ()))
    runNoting (fun _ _ _ _ => rfl) _ _ _ _ _

end Passes

/-- A run proposes nothing, and then the model is as it was; or it proposes a solution that counts,
and the model decides. -/
theorem runOne_cases (h : Heuristic α) (m : Model α) (n : Node α) :
    (offer? h m n = none ∧ m.Agrees (runOne h m n).model ∧
        ∀ f, (runOne h m n).outcome = .ok f → f = none) ∨
      ∃ o k, offer? h m n = some o ∧ m.Agrees o.model ∧
        Counts m.problem m.node.box m.incumbent.objective o.objective o.solution ∧
        k.core.settings.name = o.source ∧
        runOne h m n = match offer o.source o.model o.objective o.solution with
          | .error f => ⟨.error (.fault f), k, o.model⟩
          | .ok (accepted, l) =>
            conclude k l n (if accepted.isSome then "improved" else "none") accepted := by
  have hsent := (Model.Agrees.refl m).send_right (.start h.core.settings.name n.depth)
  unfold offer? runOne
  dsimp only
  generalize hs : h.seek (m.send (.start h.core.settings.name n.depth)) _ _ = s
  have hmodel : m.Agrees s.model := hs ▸ hsent.trans (h.agrees_seek _ _ _)
  have hname : s.heuristic.core.settings.name = h.core.settings.name := by
    rw [← hs, Heuristic.settings_seek]
  have hcases := h.seek_cases (m.send (.start h.core.settings.name n.depth))
    m.incumbent.objective (blank m)
  obtain ⟨⟨e, he⟩, -⟩ | ⟨hnothing, -⟩ | ⟨v, hv, hcounts⟩ := hs ▸ hcases
  · rw [he]
    exact .inl ⟨rfl, hmodel, fun f hf => by cases hf⟩
  · rw [hnothing]
    exact .inl ⟨rfl, hmodel.trans ⟨rfl, rfl, rfl⟩, fun f hf => by cases hf; rfl⟩
  · rw [hv]
    exact .inr ⟨_, s.heuristic, rfl, hmodel, hcounts, hname, rfl⟩

end Collection

/-! ### The incumbent and proposals -/

/-- There is no incumbent, or it keeps the bounds of the problem, integrality and all rows, and its
objective is its cost. -/
def Model.HasIncumbent (m : Model Binary64) : Prop :=
  m.incumbent = Model.noIncumbent ∨
    m.problem.isFeasible m.incumbent.solution m.problem.lower m.problem.upper = .ok true ∧
      m.incumbent.objective = m.problem.objectiveValue m.incumbent.solution

/-- The invariant of a search: its node is one of the tree of its problem. -/
structure Model.IsSound (m : Model Binary64) : Prop where
  bounds : m.problem.HasNumberBounds
  node : Node.OfTree m.problem m.node
  number : m.incumbent.objective.isNaN = false
  incumbent : m.HasIncumbent

/-- The model accepts an offer, since it is strictly better than the incumbent. -/
structure Offer.IsAccepted (o : Offer Binary64) : Prop where
  accepted : ∃ l, o.model.propose o.objective o.solution o.source = .ok (true, l)
  lt : o.objective < o.model.incumbent.objective

/-- From one model to another by offers: all of them are accepted, each is strictly better than what
was there before, and the last one is the incumbent. -/
structure Model.Advances (m l : Model Binary64) (offers : List (Offer Binary64)) : Prop where
  problem_eq : l.problem = m.problem
  node_eq : l.node = m.node
  accepted : ∀ o ∈ offers, o.IsAccepted
  decreasing : offers.Pairwise fun o o' => o'.objective < o.objective
  below : ∀ o ∈ offers, o.objective < m.incumbent.objective
  unchanged : offers = [] → l.incumbent = m.incumbent
  last : ∀ o, offers.getLast? = some o → l.incumbent = ⟨o.objective, o.solution⟩

namespace Model

variable {m l k : Model Binary64}

theorem Agrees.advances (h : m.Agrees l) : m.Advances l [] where
  problem_eq := h.problem_eq.symm
  node_eq := h.node_eq.symm
  accepted o ho := by cases ho
  decreasing := .nil
  below o ho := by cases ho
  unchanged _ := h.incumbent_eq.symm
  last o ho := by cases ho

/-- One offer at most, and then others. -/
theorem Advances.append {o : Option (Offer Binary64)} {os : List (Offer Binary64)}
    (h : m.Advances l o.toList) (h' : l.Advances k os) : m.Advances k (o.toList ++ os) := by
  have hproblem := h'.problem_eq.trans h.problem_eq
  have hnode := h'.node_eq.trans h.node_eq
  cases o with
  | none =>
    have hsame := h.unchanged rfl
    refine ⟨hproblem, hnode, h'.accepted, h'.decreasing, ?_, ?_, h'.last⟩
    · exact fun o ho => hsame ▸ h'.below o ho
    · exact fun ho => (h'.unchanged ho).trans hsame
  | some o =>
    -- the first offer is the incumbent that all later ones have to beat
    have hlast := h.last o rfl
    have hlt := h.below o (by simp)
    have hbelow : ∀ o' ∈ os, o'.objective < o.objective := by
      intro o' ho
      have hbelow := h'.below o' ho
      rw [hlast] at hbelow
      exact hbelow
    refine ⟨hproblem, hnode, ?_, List.pairwise_cons.2 ⟨hbelow, h'.decreasing⟩, ?_, ?_, ?_⟩
    · exact List.forall_mem_cons.2 ⟨h.accepted o (by simp), h'.accepted⟩
    · exact List.forall_mem_cons.2 ⟨hlt, fun o' ho => Binary64.lt_trans (hbelow o' ho) hlt⟩
    · exact fun hnil => absurd hnil (by simp)
    · intro o' ho
      cases os with
      | nil =>
        have ho : o = o' := by simpa using ho
        rw [h'.unchanged rfl, hlast, ho]
      | cons => exact h'.last o' ho

/-- A sound model accepts a solution that counts at its node. -/
theorem IsSound.propose (hm : m.IsSound) {v : Binary64} (hv : v.isNaN = false)
    {x : Array Binary64} (hx : Counts m.problem m.node.box m.incumbent.objective v x)
    (hl : m.Agrees l) (source : String) :
    ∃ k, l.propose v x source = .ok (true, k) ∧ k.problem = m.problem ∧ k.node = m.node ∧
      k.incumbent = ⟨v, x⟩ ∧ v < m.incumbent.objective ∧ k.IsSound := by
  -- the model asks for the bounds of the problem, and those of the node lie within them
  have hfeasible := (hm.node.liesIn hm.bounds).isFeasible hx.isFeasible
  have hlt := hx.lt_best hm.number hv
  have hnot : ¬ m.incumbent.objective ≤ v := by
    intro hle
    have hlt := (Binary64.lt_iff_place hv hm.number).1 hlt
    have hle := (Binary64.le_iff_place hm.number hv).1 hle
    omega
  refine ⟨{ l with incumbent := ⟨v, x⟩ }.send (.newBest v source), ?_, hl.problem_eq.symm,
    hl.node_eq.symm, rfl, hlt, ?_⟩
  · unfold Model.propose
    rw [← hl.problem_eq, ← hl.incumbent_eq, hfeasible]
    exact if_neg hnot
  · refine ⟨?_, ?_, hv, .inr ⟨?_, ?_⟩⟩
    · show l.problem.HasNumberBounds
      exact hl.problem_eq ▸ hm.bounds
    · show Node.OfTree l.problem l.node
      exact hl.problem_eq ▸ hl.node_eq ▸ hm.node
    · show l.problem.isFeasible x l.problem.lower l.problem.upper = .ok true
      exact hl.problem_eq ▸ hfeasible
    · show v = l.problem.objectiveValue x
      exact hl.problem_eq ▸ hx.objective_eq

/-- A search without an incumbent. -/
theorem isSound_root (hp : m.problem.HasNumberBounds) (hn : Node.OfTree m.problem m.node)
    (hnone : m.incumbent = noIncumbent) : m.IsSound := by
  have hinfinity : (noIncumbent : Incumbent Binary64).objective.isNaN = false := by decide
  exact ⟨hp, hn, hnone ▸ hinfinity, .inl hnone⟩

theorem Agrees.isSound (h : m.Agrees l) (hm : m.IsSound) : l.IsSound := by
  obtain ⟨hbounds, hnode, hnumber, hincumbent⟩ := hm
  unfold HasIncumbent at hincumbent
  rw [h.problem_eq, h.incumbent_eq] at hincumbent
  exact ⟨h.problem_eq ▸ hbounds, h.problem_eq ▸ h.node_eq ▸ hnode, h.incumbent_eq ▸ hnumber,
    hincumbent⟩

end Model

/-! ### Runs and passes -/

namespace Collection

/-- The run of a heuristic advances the incumbent by what it proposes. -/
theorem advances_runOne (h : Heuristic Binary64) {m : Model Binary64} (hm : m.IsSound)
    (n : Node Binary64) (hnumber : ∀ o, offer? h m n = some o → o.objective.isNaN = false) :
    m.Advances (runOne h m n).model (offer? h m n).toList ∧ (runOne h m n).model.IsSound ∧
      ∀ f, (runOne h m n).outcome = .ok f → f.toList = (offer? h m n).toList.map Offer.find := by
  obtain ⟨ho, hmodel, hf⟩ | ⟨o, k, ho, hmodel, hcounts, hname, hrun⟩ := runOne_cases h m n
  · rw [ho]
    refine ⟨hmodel.advances, hmodel.isSound hm, fun f h => ?_⟩
    rw [hf f h]
    rfl
  · obtain ⟨l, hpropose, hproblem, hnode, hincumbent, hlt, hsound⟩ :=
      hm.propose (hnumber o ho) hcounts hmodel o.source
    have hagree : l.Agrees (runOne h m n).model := by
      rw [hrun]
      simp only [offer, hpropose, Checked.ok_bind]
      exact ⟨rfl, rfl, rfl⟩
    have hsame : (runOne h m n).model.incumbent = ⟨o.objective, o.solution⟩ :=
      hagree.incumbent_eq.symm.trans hincumbent
    rw [ho]
    refine ⟨⟨hagree.problem_eq.symm.trans hproblem, hagree.node_eq.symm.trans hnode, ?_,
      List.pairwise_singleton _ _, ?_, by simp, ?_⟩, hagree.isSound hsound, ?_⟩
    · intro o' ho'
      cases List.mem_singleton.1 ho'
      exact ⟨⟨l, hpropose⟩, hmodel.incumbent_eq ▸ hlt⟩
    · intro o' ho'
      cases List.mem_singleton.1 ho'
      exact hlt
    · intro o' ho'
      cases ho'
      exact hsame
    · intro f hf
      rw [hrun] at hf
      simp only [offer, hpropose, Checked.ok_bind] at hf
      cases hf
      show [_] = [o.find]
      rw [Offer.find, ← hname]

/-- A pass advances the incumbent by what its heuristics propose, in order. -/
theorem advances_pass (n : Node Binary64) (hs : List (Heuristic Binary64)) {m : Model Binary64}
    (hm : m.IsSound)
    (hnumber : ∀ o ∈ (pass runNoting n hs m []).2, o.objective.isNaN = false) :
    m.Advances (pass runNoting n hs m []).1.model (pass runNoting n hs m []).2 ∧
      (pass runNoting n hs m []).1.model.IsSound ∧
      ∀ finds, (pass runNoting n hs m []).1.outcome = .ok finds →
        finds = (pass runNoting n hs m []).2.map Offer.find := by
  induction hs generalizing m with
  | nil =>
    refine ⟨(Model.Agrees.refl m).advances, hm, fun finds hfinds => ?_⟩
    cases hfinds
    rfl
  | cons h hs ih =>
    cases hrun : h.core.runsAt n with
    | false =>
      rw [pass_of_not_runs hrun] at hnumber ⊢
      exact ih hm hnumber
    | true =>
      have hone := advances_runOne ⟨h.core.counted n, h.kind⟩ hm m.node
      cases ho : (turn h m n).outcome with
      | error e =>
        rw [pass_of_error hrun rfl ho] at hnumber ⊢
        obtain ⟨hadvances, hsound, -⟩ := hone fun o heq => hnumber o (by simp [heq])
        exact ⟨hadvances, hsound, fun finds hfinds => by cases hfinds⟩
      | ok f =>
        -- the rest of the pass starts from the model that this heuristic leaves, and its notes
        -- come after the one of this heuristic
        rw [pass_of_ok hrun rfl ho] at hnumber ⊢
        dsimp only at hnumber ⊢
        rw [pass_runNoting] at hnumber
        have hfst := pass_fst runNoting runNoting (fun _ _ _ _ => rfl) n hs (turn h m n).model
          ([] ++ (offer? ⟨h.core.counted n, h.kind⟩ m m.node).toList) []
        obtain ⟨hadvances, hsound, hfind⟩ := hone fun o heq => hnumber o (by simp [heq])
        obtain ⟨hrest, hend, hfinds⟩ := ih hsound fun o hmem =>
          hnumber o (List.mem_append_right _ hmem)
        rw [pass_runNoting, hfst]
        refine ⟨hadvances.append hrest, hend, fun finds hfound => ?_⟩
        cases hp : (pass runNoting n hs (turn h m n).model []).1.outcome with
        | error e =>
          rw [hp] at hfound
          cases hfound
        | ok l =>
          rw [hp] at hfound
          cases hfound
          rw [List.map_append, List.nil_append, hfinds l hp, ← hfind f ho]
          rfl

end Collection

/-- Finds of one pass: each is strictly better than what was there before, and the last one is the
incumbent. -/
structure Model.Improves (m l : Model Binary64) (finds : List (Find Binary64)) : Prop where
  decreasing : finds.Pairwise fun f g => g.objective < f.objective
  below : ∀ f ∈ finds, f.objective < m.incumbent.objective
  unchanged : finds = [] → l.incumbent = m.incumbent
  last : ∀ f, finds.getLast? = some f → l.incumbent.objective = f.objective

theorem Model.Advances.improves {m l : Model Binary64} {os : List (Offer Binary64)}
    (h : m.Advances l os) : m.Improves l (os.map Offer.find) where
  decreasing := List.pairwise_map.2 h.decreasing
  below f hf := by
    obtain ⟨o, ho, rfl⟩ := List.mem_map.1 hf
    exact h.below o ho
  unchanged hnil := h.unchanged (List.map_eq_nil_iff.1 hnil)
  last f hf := by
    rw [List.getLast?_map] at hf
    obtain ⟨o, ho, rfl⟩ := Option.map_eq_some_iff.1 hf
    rw [h.last o ho]
    rfl

/-- Offers leave the incumbent as it is, or make it strictly better. -/
theorem Model.Advances.incumbent {m l : Model Binary64} {os : List (Offer Binary64)}
    (h : m.Advances l os) :
    l.incumbent = m.incumbent ∨ l.incumbent.objective < m.incumbent.objective := by
  cases ho : os.getLast? with
  | none => exact .inl (h.unchanged (List.getLast?_eq_none_iff.1 ho))
  | some o =>
    right
    rw [h.last o ho]
    exact h.below o (List.mem_of_getLast? ho)

/-! ### Sessions -/

/-- A collection, and the model that it is attached to. -/
structure Session (α : Type) [Scalar α] where
  collection : Collection α
  model : Model α

namespace Session

/-- What may happen in a session. -/
inductive Event (α : Type) [Scalar α] where
  | setNode (n : Node α)
  | run
  | runWithCuts (cuts : CutPool α)
  | replaceProblem (p : Problem α)
  | reset

/-- A collection is attached to a model. -/
def start (k : Collection α) (m : Model α) : Session α :=
  ⟨(k.attach m).1, (k.attach m).2⟩

/-- The pass that an event is, if it is one. -/
def pass? (s : Session α) : Event α → Option (Pass α)
  | .run => some (s.collection.runAtNode s.model)
  | .runWithCuts cuts => some (s.collection.runWithCuts s.model cuts).1
  | _ => none

/-- The session after an event. -/
def after (s : Session α) : Event α → Session α
  | .setNode n => { s with model := s.model.setNode n }
  | .run =>
    let p := s.collection.runAtNode s.model
    ⟨{ s.collection with heuristics := p.heuristics }, p.model⟩
  | .runWithCuts cuts =>
    let p := (s.collection.runWithCuts s.model cuts).1
    ⟨{ s.collection with heuristics := p.heuristics }, p.model⟩
  | .replaceProblem p => { s with model := s.model.replaceProblem p }
  | .reset =>
    match s.collection.reset s.model with
    | .ok (collection, model) => ⟨collection, model⟩
    | .error _ => s

/-- What heuristics propose in an event. -/
def offers (s : Session α) : Event α → List (Offer α)
  | .run => s.collection.offers s.model
  | _ => []

variable {s t : Session Binary64}

/-- Nodes are those of the tree of the current problem, and bounds and objectives are numbers. -/
def Admits (s : Session Binary64) : Event Binary64 → Prop
  | .setNode n => Node.OfTree s.model.problem n
  | .run => ∀ o ∈ s.collection.offers s.model, o.objective.isNaN = false
  | .replaceProblem p => p.HasNumberBounds
  | .runWithCuts _ | .reset => True

/-- The sessions to which a sequence of events may lead. -/
inductive Reaches (s : Session Binary64) : Session Binary64 → Prop
  | start : Reaches s s
  | step {t : Session Binary64} (h : Reaches s t) (e : Event Binary64) (he : t.Admits e) :
    Reaches s (t.after e)

/-- What an event does to the incumbent. It is only given up with the problem, and else changes to a
strictly better one. All offers are accepted, and the finds of a pass that does not fail lead from
one incumbent to the other. -/
structure KeepsIncumbent (s : Session Binary64) (e : Event Binary64) : Prop where
  changes : (s.after e).model.incumbent = s.model.incumbent ∨
    (s.after e).model.incumbent.objective < s.model.incumbent.objective ∨
    ∃ p, e = .replaceProblem p ∧ (s.after e).model.incumbent = Model.noIncumbent
  accepted : ∀ o ∈ s.offers e, o.IsAccepted
  finds : ∀ p finds, s.pass? e = some p → p.outcome = .ok finds →
    s.model.Improves (s.after e).model finds

/-- A pass advances the incumbent by what it offers. -/
theorem advances_run (hs : s.model.IsSound) (he : s.Admits .run) :
    s.model.Advances (s.after .run).model (s.offers .run) ∧ (s.after .run).model.IsSound ∧
      ∀ finds, (s.collection.runAtNode s.model).outcome = .ok finds →
        finds = (s.offers .run).map Offer.find := by
  obtain ⟨collection, m⟩ := s
  unfold Admits at he
  unfold after offers
  dsimp only at he ⊢
  by_cases hk : collection.attached = true
  · unfold Collection.offers at he ⊢
    rw [if_pos hk] at he ⊢
    rw [Collection.runAtNode_eq_noting hk]
    exact Collection.advances_pass m.node collection.heuristics hs he
  · unfold Collection.offers Collection.runAtNode
    rw [if_neg hk, if_neg hk]
    exact ⟨(Model.Agrees.refl m).advances, hs, fun finds h => by cases h⟩

/-- A pass with cuts finds nothing, and leaves the incumbent alone. -/
theorem agrees_runWithCuts (k : Collection α) (m : Model α) (cuts : CutPool α) :
    m.Agrees (k.runWithCuts m cuts).1.model ∧
      ∀ finds, (k.runWithCuts m cuts).1.outcome = .ok finds → finds = [] := by
  by_cases hk : k.attached = true
  · obtain ⟨l, hl, hcuts⟩ := Collection.runWithCuts_eq hk m cuts
    rw [hcuts]
    exact ⟨hl, fun finds h => by cases h; rfl⟩
  · unfold Collection.runWithCuts
    rw [if_neg hk]
    exact ⟨.refl m, fun finds h => by cases h⟩

theorem agrees_reset (s : Session α) : s.model.Agrees (s.after .reset).model := by
  unfold after Collection.reset
  dsimp only
  by_cases hk : s.collection.attached = true
  · rw [if_pos hk]
    exact (Model.Agrees.refl s.model).send_right _
  · rw [if_neg hk]
    exact .refl s.model

theorem keepsIncumbent_of_advances {e : Event Binary64}
    (h : s.model.Advances (s.after e).model (s.offers e))
    (hfinds : ∀ p finds, s.pass? e = some p → p.outcome = .ok finds →
      finds = (s.offers e).map Offer.find) : s.KeepsIncumbent e where
  changes := h.incumbent.imp_right .inl
  accepted := h.accepted
  finds p finds hp hok := hfinds p finds hp hok ▸ h.improves

/-- No event that is admitted breaks the invariant, and each treats the incumbent as it should. -/
theorem isSound_after (hs : s.model.IsSound) {e : Event Binary64} (he : s.Admits e) :
    s.KeepsIncumbent e ∧ (s.after e).model.IsSound := by
  cases e with
  | setNode n =>
    refine ⟨⟨.inl rfl, fun o ho => (by cases ho), fun p finds hp => (by cases hp)⟩, ?_⟩
    exact ⟨hs.bounds, he, hs.number, hs.incumbent⟩
  | run =>
    obtain ⟨hadvances, hsound, hfinds⟩ := advances_run hs he
    refine ⟨keepsIncumbent_of_advances hadvances fun p finds hp hok => ?_, hsound⟩
    cases hp
    exact hfinds finds hok
  | runWithCuts cuts =>
    obtain ⟨hagree, hfinds⟩ := agrees_runWithCuts s.collection s.model cuts
    refine ⟨keepsIncumbent_of_advances hagree.advances fun p finds hp hok => ?_,
      hagree.isSound hs⟩
    cases hp
    exact hfinds finds hok
  | replaceProblem p =>
    refine ⟨⟨.inr (.inr ⟨p, rfl, rfl⟩), fun o ho => (by cases ho), fun p finds hp => (by cases hp)⟩,
      ?_⟩
    exact Model.isSound_root he (.root _ _) rfl
  | reset =>
    have hagree := s.agrees_reset
    exact ⟨keepsIncumbent_of_advances hagree.advances fun p finds hp => (by cases hp),
      hagree.isSound hs⟩

/-- The invariant holds throughout a session. -/
theorem isSound_of_reaches (hs : s.model.IsSound) (h : s.Reaches t) : t.model.IsSound := by
  induction h with
  | start => exact hs
  | step _ e he ih => exact (isSound_after ih he).2

theorem isSound_ofProblem {p : Problem Binary64} (hp : p.HasNumberBounds) {m : Model Binary64}
    (hm : Model.ofProblem p = .ok m) : m.IsSound := by
  obtain ⟨x, -, hm⟩ := Checked.bind_eq_ok.1 hm
  cases hm
  exact Model.isSound_root hp (.root _ _) rfl

/-- Throughout a session there is no incumbent or one that is feasible for the problem and has the
cost that is reported, and every event treats it as it should. -/
theorem keepsIncumbent {p : Problem Binary64} (hp : p.HasNumberBounds) {m : Model Binary64}
    (hm : Model.ofProblem p = .ok m) (k : Collection Binary64)
    (hs : (start k m).Reaches s) :
    s.model.HasIncumbent ∧ ∀ e, s.Admits e → s.KeepsIncumbent e := by
  have hstart : (start k m).model.IsSound :=
    ((Model.Agrees.refl m).send_right _).isSound (isSound_ofProblem hp hm)
  have hsound := isSound_of_reaches hstart hs
  exact ⟨hsound.incumbent, fun e he => (isSound_after hsound he).1⟩

/-- A rounding heuristic that runs at the root, too. -/
def roundingAtRoot : Collection Binary64 :=
  ⟨[⟨(Core.named "Rounding").withSettings fun s => { s with trigger := .always },
    .rounding .fresh⟩], false⟩

/-- The search of two columns of which one may be chosen, before anything is known. -/
def untouched : Model Binary64 where
  problem := Heuristic.oneOfTwo
  node := .root Heuristic.oneOfTwo #[0, 0] (-Scalar.infinity)
  incumbent := Model.noIncumbent
  messages := #[]

/-- The problem has been set up anew, and the origin has been found. -/
def originFound : Session Binary64 :=
  (((start roundingAtRoot untouched).after (.replaceProblem Heuristic.oneOfTwo)).after .reset).after
    .run

/-- Then the relaxation chooses half of each column. -/
def halfChosen : Session Binary64 :=
  originFound.after (.setNode Heuristic.halfOfEach.node)

theorem keepsIncumbent_halfChosen :
    Heuristic.oneOfTwo.HasNumberBounds ∧ Model.ofProblem Heuristic.oneOfTwo = .ok untouched ∧
      (start roundingAtRoot untouched).Reaches halfChosen ∧ halfChosen.Admits .run ∧
      halfChosen.model.incumbent.objective = -0 ∧
      (halfChosen.offers .run).map Offer.find = [⟨"Rounding", -1⟩] ∧
      halfChosen.model.HasIncumbent ∧ halfChosen.KeepsIncumbent .run := by
  have hbounds : Heuristic.oneOfTwo.HasNumberBounds := by
    unfold Problem.HasNumberBounds
    decide +kernel
  have horigin : Model.origin Heuristic.oneOfTwo = .ok #[0, 0] := by decide +kernel
  have hmodel : Model.ofProblem Heuristic.oneOfTwo = .ok untouched := by
    unfold Model.ofProblem
    rw [horigin]
    rfl
  have hreplaced : (start roundingAtRoot untouched).Reaches
      (((start roundingAtRoot untouched).after (.replaceProblem Heuristic.oneOfTwo)).after
        .reset) := by
    refine .step (.step .start (.replaceProblem Heuristic.oneOfTwo) ?_) .reset ?_
    · exact hbounds
    · trivial
  have hrun : (((start roundingAtRoot untouched).after
      (.replaceProblem Heuristic.oneOfTwo)).after .reset).Admits .run := by
    unfold Admits
    decide +kernel
  have hproblem : originFound.model.problem = Heuristic.oneOfTwo :=
    (advances_run (Model.isSound_root hbounds (.root _ _) rfl) hrun).1.problem_eq
  have hreaches : (start roundingAtRoot untouched).Reaches halfChosen := by
    refine .step (.step hreplaced _ hrun) (.setNode Heuristic.halfOfEach.node) ?_
    show Node.OfTree originFound.model.problem Heuristic.halfOfEach.node
    rw [hproblem]
    exact .root _ _
  have hadmits : halfChosen.Admits .run := by
    unfold Admits
    decide +kernel
  obtain ⟨hincumbent, hkeeps⟩ := keepsIncumbent hbounds hmodel roundingAtRoot hreaches
  exact ⟨hbounds, hmodel, hreaches, hadmits, by decide +kernel, by decide +kernel, hincumbent,
    hkeeps .run hadmits⟩

end Session

end PrimalHeuristics
