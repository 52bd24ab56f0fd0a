import PrimalHeuristics.Console
import PrimalHeuristics.Proofs.Collection.Incumbent

/-!
# Totals

What heuristics do is counted twice: each heuristic keeps counts of its own, which are reported in
the end, and messages tell of every run, of every new incumbent and of every search of a sub-problem
as it ends. The console adds up what it is told, and prints its own total with the last message.

* `Tally.told`: the counts that messages tell of;
* `Model.Tells`: what a model was told between two moments;
* `Heuristic.accounts_seek`, `Collection.accounts_pass`: a run and a pass tell of all that they
  count;
* `Session.Action`, `Session.accounts_performAll`: whatever happens to a collection and its model;
* `Session.totalsAgree`: both counts are the same.
-/

namespace PrimalHeuristics

variable {α : Type}

/-! ### Counts -/

attribute [ext] Tally

namespace Tally

instance : Zero Tally := ⟨⟨0, 0, 0⟩⟩

instance : Add Tally :=
  ⟨fun t u => ⟨t.runs + u.runs, t.solutions + u.solutions, t.subSolveNodes + u.subSolveNodes⟩⟩

instance : AddCommMonoid Tally where
  add_assoc _ _ _ := by ext <;> exact Nat.add_assoc _ _ _
  zero_add _ := by ext <;> exact Nat.zero_add _
  add_zero _ := by ext <;> exact Nat.add_zero _
  add_comm _ _ := by ext <;> exact Nat.add_comm _ _
  nsmul := nsmulRec

@[simp] theorem runs_zero : (0 : Tally).runs = 0 := rfl

@[simp] theorem solutions_zero : (0 : Tally).solutions = 0 := rfl

@[simp] theorem subSolveNodes_zero : (0 : Tally).subSolveNodes = 0 := rfl

@[simp] theorem runs_add (t u : Tally) : (t + u).runs = t.runs + u.runs := rfl

@[simp] theorem solutions_add (t u : Tally) : (t + u).solutions = t.solutions + u.solutions := rfl

@[simp] theorem subSolveNodes_add (t u : Tally) :
    (t + u).subSolveNodes = t.subSolveNodes + u.subSolveNodes := rfl

end Tally

namespace Message

/-- What a message tells of. -/
def tally : Message α → Tally
  | finish _ => ⟨1, 0, 0⟩
  | newBest _ _ => ⟨0, 1, 0⟩
  | subSolve report => ⟨0, 0, report.nodes⟩
  | log _ | phase _ | start _ _ | disabled _ _ | exit _ => 0

/-- The message tells that a run has come to an end. -/
def isFinish : Message α → Bool
  | finish _ => true
  | _ => false

/-- The message tells of a new incumbent. -/
def isNewBest : Message α → Bool
  | newBest _ _ => true
  | _ => false

/-- The message is the last one. -/
def isExit : Message α → Bool
  | exit _ => true
  | _ => false

end Message

/-- The counts that messages tell of. -/
def Tally.told (l : List (Message α)) : Tally :=
  (l.map Message.tally).sum

@[simp] theorem Tally.told_append (l k : List (Message α)) : told (l ++ k) = told l + told k := by
  unfold told
  rw [List.map_append, List.sum_append]

/-- A run and a new incumbent are one message each. -/
theorem Tally.told_counts (l : List (Message α)) :
    (told l).runs = l.countP Message.isFinish ∧
      (told l).solutions = l.countP Message.isNewBest := by
  unfold told
  induction l with
  | nil => exact ⟨rfl, rfl⟩
  | cons x l ih =>
    rw [List.map_cons, List.sum_cons, runs_add, solutions_add, ih.1, ih.2, List.countP_cons,
      List.countP_cons, Nat.add_comm, Nat.add_comm x.tally.solutions]
    cases x <;> exact ⟨rfl, rfl⟩

/-- What heuristics have counted so far, all in all. -/
def Tally.total (hs : List (Heuristic α)) : Tally :=
  (hs.map (·.core.tally)).sum

@[simp] theorem Tally.total_cons (h : Heuristic α) (hs : List (Heuristic α)) :
    total (h :: hs) = h.core.tally + total hs := rfl

/-- The statistics of all heuristics add up to what they have counted. -/
theorem Tally.total_eq (hs : List (Heuristic α)) :
    total hs = ⟨((hs.map Collection.statisticsOf).map (·.runs)).sum,
      ((hs.map Collection.statisticsOf).map (·.solutions)).sum,
      ((hs.map Collection.statisticsOf).map (·.subSolveNodes)).sum⟩ := by
  induction hs with
  | nil => rfl
  | cons h hs ih =>
    rw [total_cons, ih]
    rfl

variable [Scalar α]

/-! ### What a model is told -/

/-- The messages that a model was sent since then tell of these counts, and the last message is not
among them. -/
def Model.Tells (m l : Model α) (t : Tally) : Prop :=
  ∃ new, l.messages.toList = m.messages.toList ++ new ∧ Tally.told new = t ∧
    ∀ x ∈ new, x.isExit = false

namespace Model

variable {m l k : Model α} {t u : Tally}

protected theorem Tells.refl (m : Model α) : m.Tells m 0 :=
  ⟨[], by simp, rfl, fun x hx => by cases hx⟩

theorem Tells.trans (h : m.Tells l t) (h' : l.Tells k u) : m.Tells k (t + u) := by
  obtain ⟨new, hnew, rfl, hexit⟩ := h
  obtain ⟨new', hnew', rfl, hexit'⟩ := h'
  refine ⟨new ++ new', ?_, Tally.told_append new new', ?_⟩
  · rw [hnew', hnew, List.append_assoc]
  · exact List.forall_mem_append.2 ⟨hexit, hexit'⟩

theorem tells_sendAll (m : Model α) {a : List (Message α)} (ha : ∀ x ∈ a, x.isExit = false) :
    m.Tells (m.sendAll a) (Tally.told a) := by
  refine ⟨a, ?_, rfl, ha⟩
  unfold sendAll
  induction a generalizing m with
  | nil => simp
  | cons x a ih =>
    rw [List.foldl_cons, ih (m.send x) fun y hy => ha y (List.mem_cons_of_mem x hy)]
    simp [send]

theorem tells_send (m : Model α) {x : Message α} (hx : x.isExit = false) :
    m.Tells (m.send x) x.tally := by
  have h := m.tells_sendAll (a := [x]) (by simpa using hx)
  rwa [Tally.told, List.map_singleton, List.sum_singleton] at h

/-- A proposal tells of a new incumbent if it is accepted. -/
theorem tells_propose {objective : α} {x : Array α} {source : String} {accepted : Bool}
    (h : m.propose objective x source = .ok (accepted, l)) :
    m.Tells l ⟨0, if accepted then 1 else 0, 0⟩ := by
  obtain ⟨feasible, -, h⟩ := Checked.bind_eq_ok.1 h
  cases feasible with
  | false =>
    cases h
    exact m.tells_send (x := .log (.rejected source)) rfl
  | true =>
    rw [if_pos rfl] at h
    split at h <;> cases h
    · exact .refl m
    · have hsent := tells_send { m with incumbent := ⟨objective, x⟩ }
        (x := .newBest objective source) rfl
      exact hsent

end Model

/-- Between two moments a heuristic counts exactly what the model is told of. -/
def Heuristic.Accounts (h : Heuristic α) (m : Model α) (k : Heuristic α) (l : Model α) : Prop :=
  ∃ t, m.Tells l t ∧ k.core.tally = h.core.tally + t

/-! ### One run -/

/-- The nodes that are counted are told of. -/
structure Attempt.Accounts (a : Attempt α) : Prop where
  told_eq : Tally.told a.messages = ⟨0, 0, a.subSolveNodes⟩
  isOpen : ∀ x ∈ a.messages, x.isExit = false

/-- The counts that are added are told of. -/
structure Trial.Accounts {κ : Type} (t : Trial α κ) (c : Core α) : Prop where
  tally_eq : t.core.tally = c.tally + Tally.told t.messages
  isOpen : ∀ x ∈ t.messages, x.isExit = false

section

omit [Scalar α]

theorem Attempt.accounts_of_silent {a : Attempt α} (hm : a.messages = [])
    (hn : a.subSolveNodes = 0) : a.Accounts :=
  ⟨by rw [hm, hn]; rfl, by rw [hm]; exact fun x hx => by cases hx⟩

theorem Trial.accounts_of_silent {κ : Type} {t : Trial α κ} {c : Core α} (hm : t.messages = [])
    (hc : t.core.tally = c.tally) : t.Accounts c :=
  ⟨by rw [hm, hc]; exact (add_zero _).symm, by rw [hm]; exact fun x hx => by cases hx⟩

/-- An attempt whose nodes a heuristic adds to its own. -/
theorem Attempt.Accounts.trial {κ : Type} {a : Attempt α} (ha : a.Accounts) (c : Core α)
    (answer : Except (Failure α) (Option (α × Array α))) (own : κ) :
    Trial.Accounts
      { answer, core := c.addSubSolveNodes a.subSolveNodes, own, messages := a.messages } c :=
  ⟨by rw [ha.told_eq]; rfl, ha.isOpen⟩

end

/-- The report of a search has the nodes of its result. -/
theorem Settings.nodes_subSolve {s : Settings α} {sub : SubProblem α} {cap : Nat} {cutoff : α}
    {label : String} {r : SearchResult α} {report : SubSolveReport α}
    (h : s.subSolve sub cap cutoff label = .ok (r, report)) : report.nodes = r.nodes := by
  obtain ⟨relaxation, -, h⟩ := Checked.bind_eq_ok.1 h
  obtain ⟨result, -, h⟩ := Checked.bind_eq_ok.1 h
  cases h
  rfl

theorem Attempt.accounts_complete (s : Settings α) (p : Problem α) (b : Box α) (x : Array α)
    (free : Array Bool) (cutoff : α) (label : String) {tooLarge : SubProblem α → List (Message α)}
    (hlarge : ∀ sub, ∀ y ∈ tooLarge sub, ∃ note, y = .log note) :
    (complete s p b x free cutoff label tooLarge).Accounts := by
  unfold complete
  cases SubProblem.restrict p x free b with
  | error e => exact accounts_of_silent rfl rfl
  | ok o =>
    cases o with
    | none => exact accounts_of_silent rfl rfl
    | some sub =>
      dsimp only
      split
      · cases hsearch : s.subSolve sub s.numberNodes.toNat cutoff label with
        | error e => exact accounts_of_silent rfl rfl
        | ok r =>
          refine ⟨?_, by simp [Message.isExit]⟩
          show (⟨0, 0, r.2.nodes⟩ : Tally) + 0 = _
          rw [add_zero, Settings.nodes_subSolve hsearch]
      · refine ⟨?_, fun y hy => ?_⟩
        · show Tally.told (tooLarge sub) = 0
          refine List.sum_eq_zero fun t ht => ?_
          obtain ⟨y, hy, rfl⟩ := List.mem_map.1 ht
          obtain ⟨note, rfl⟩ := hlarge sub y hy
          rfl
        · obtain ⟨note, rfl⟩ := hlarge sub y hy
          rfl

theorem Rounding.accounts_attempt (s : Settings α) (p : Problem α) (b : Box α) (best : α)
    (x : Array α) : (attempt s p b best x).Accounts := by
  unfold attempt
  split
  · exact Attempt.accounts_of_silent rfl rfl
  · exact Attempt.accounts_of_silent rfl rfl
  · exact Attempt.accounts_complete _ _ _ _ _ _ _ fun sub y hy => ⟨_, List.mem_singleton.1 hy⟩

theorem PartialFix.accounts_attempt (f : PartialFix) (s : Settings α) (p : Problem α) (n : Node α)
    (best : α) : (f.attempt s p n best).Accounts := by
  unfold attempt
  split
  · exact Attempt.accounts_of_silent rfl rfl
  · exact Attempt.accounts_of_silent rfl rfl
  · exact Attempt.accounts_complete _ _ _ _ _ _ _ fun sub y hy => by cases hy

theorem Rounding.accounts_trial (r : Rounding α) (c : Core α) (p : Problem α) (n : Node α)
    (best : α) : (r.trial c p n best).Accounts c := by
  unfold trial
  split
  · exact Trial.accounts_of_silent rfl rfl
  · split
    · exact Trial.accounts_of_silent rfl rfl
    · exact Trial.accounts_of_silent rfl rfl
    · split
      · exact Trial.accounts_of_silent rfl rfl
      · exact (accounts_attempt _ _ _ _ _).trial _ _ _

theorem PartialFix.accounts_trial (f : PartialFix) (c : Core α) (p : Problem α) (n : Node α)
    (best : α) : (f.trial c p n best).Accounts c := by
  unfold trial
  split
  · split
    · exact Trial.accounts_of_silent rfl rfl
    · exact Trial.accounts_of_silent rfl rfl
    · exact (f.accounts_attempt _ _ _ _).trial _ _ _
  · exact Trial.accounts_of_silent rfl rfl

theorem Serendipity.accounts_trial (s : Serendipity α) (c : Core α) (p : Problem α) (n : Node α)
    (best : α) : (s.trial c p n best).Accounts c := by
  unfold trial
  split <;> exact Trial.accounts_of_silent rfl rfl

/-- The trial of a kind tells of the nodes that it adds. -/
theorem Kind.accounts_trial (k : Kind α) (c : Core α) (p : Problem α) (n : Node α) (best : α) :
    (k.trial c p n best).Accounts c := by
  cases k with
  | rounding r =>
    obtain ⟨htally, hopen⟩ := r.accounts_trial c p n best
    exact ⟨htally, hopen⟩
  | partialFix f =>
    obtain ⟨htally, hopen⟩ := f.accounts_trial c p n best
    exact ⟨htally, hopen⟩
  | serendipity s =>
    obtain ⟨htally, hopen⟩ := s.accounts_trial c p n best
    exact ⟨htally, hopen⟩

namespace Heuristic

variable {h k k' : Heuristic α} {m l l' : Model α}

protected theorem Accounts.refl (h : Heuristic α) (m : Model α) : h.Accounts m h m :=
  ⟨0, .refl m, (add_zero _).symm⟩

theorem Accounts.trans (hk : h.Accounts m k l) (hk' : k.Accounts l k' l') :
    h.Accounts m k' l' := by
  obtain ⟨t, hm, ht⟩ := hk
  obtain ⟨u, hl, hu⟩ := hk'
  exact ⟨t + u, hm.trans hl, by rw [hu, ht, add_assoc]⟩

/-- A message that tells of nothing, and a heuristic that counts nothing. -/
theorem Accounts.of_send {x : Message α} (hx : x.isExit = false) (hzero : x.tally = 0)
    (hk : k.core.tally = h.core.tally) : h.Accounts m k (m.send x) :=
  ⟨0, hzero ▸ m.tells_send hx, by rw [hk, add_zero]⟩

/-- A run tells of the nodes that it adds, whatever its outcome is. -/
theorem accounts_seek (h : Heuristic α) (m : Model α) (best : α) (buffer : Array α) :
    h.Accounts m (h.seek m best buffer).heuristic (h.seek m best buffer).model := by
  unfold seek
  split
  · exact .refl h m
  · split
    · exact .refl h m
    · obtain ⟨htally, hopen⟩ := h.kind.accounts_trial h.core m.problem m.node best
      have htells := m.tells_sendAll hopen
      dsimp only
      split <;> exact ⟨_, htells, htally⟩

end Heuristic

/-! ### A pass -/

namespace Collection

variable {h k : Heuristic α} {m l : Model α} {n : Node α}

/-- The run is counted and told of, and so is the solution if there is one. -/
theorem accounts_conclude (hk : h.Accounts m k l) (outcome : String) (accepted : Option α)
    {l' : Model α} (hl : l.Tells l' ⟨0, if accepted.isSome then 1 else 0, 0⟩) :
    h.Accounts m (conclude k l' n outcome accepted).heuristic
      (conclude k l' n outcome accepted).model := by
  refine hk.trans ⟨_, hl.trans (Model.tells_send l' rfl), ?_⟩
  unfold conclude Core.recordRun
  ext <;> simp [Message.tally]

theorem tells_offer {source : String} {objective : α} {x : Array α} {accepted : Option α}
    (hoffer : offer source m objective x = .ok (accepted, l)) :
    m.Tells l ⟨0, if accepted.isSome then 1 else 0, 0⟩ := by
  obtain ⟨⟨yes, k⟩, hpropose, hoffer⟩ := Checked.bind_eq_ok.1 hoffer
  cases hoffer
  have htells := Model.tells_propose hpropose
  cases yes <;> exact htells

/-- What a turn counts, it tells of. -/
theorem accounts_runOne (h : Heuristic α) (m : Model α) (n : Node α) :
    h.Accounts m (runOne h m n).heuristic (runOne h m n).model := by
  unfold runOne
  dsimp only
  generalize hs : h.seek (m.send (.start h.core.settings.name n.depth)) _ _ = s
  have hstart : h.Accounts m h (m.send (.start h.core.settings.name n.depth)) :=
    .of_send rfl rfl rfl
  have hseek : h.Accounts m s.heuristic s.model := hs ▸ hstart.trans (h.accounts_seek _ _ _)
  split
  · exact hseek
  · exact accounts_conclude hseek _ none (.refl s.model)
  · split
    · exact hseek
    · exact accounts_conclude hseek _ _ (tells_offer ‹_›)

theorem accounts_runOneWithCuts (h : Heuristic α) (m : Model α) (n : Node α) (cuts : CutPool α) :
    h.Accounts m (runOneWithCuts h m n cuts).1.heuristic (runOneWithCuts h m n cuts).1.model :=
  accounts_conclude (.refl h m) _ none (.refl m)

/-- If all runs tell of what they count, so does a pass, also one that an error ends. -/
theorem accounts_pass {σ : Type} {run : Heuristic α → Model α → σ → Turn α × σ}
    (hrun : ∀ (h : Heuristic α) (m : Model α) (s : σ),
      h.Accounts m (run h m s).1.heuristic (run h m s).1.model) (n : Node α)
    (hs : List (Heuristic α)) (m : Model α) (s : σ) :
    ∃ t, m.Tells (pass run n hs m s).1.model t ∧
      Tally.total (pass run n hs m s).1.heuristics = Tally.total hs + t := by
  induction hs generalizing m s with
  | nil => exact ⟨0, .refl m, rfl⟩
  | cons h hs ih =>
    have hcounted : (h.core.counted n).tally = h.core.tally := by
      unfold Core.counted Core.shouldRun
      split <;> rfl
    cases hruns : h.core.runsAt n with
    | false =>
      obtain ⟨t, htells, htotal⟩ := ih m s
      rw [pass_of_not_runs hruns]
      refine ⟨t, htells, ?_⟩
      rw [Tally.total_cons, htotal, Tally.total_cons, hcounted, add_assoc]
    | true =>
      obtain ⟨t, htells, htally⟩ := hrun ⟨h.core.counted n, h.kind⟩ m s
      dsimp only at htally
      rw [hcounted] at htally
      cases ho : (run ⟨h.core.counted n, h.kind⟩ m s).1.outcome with
      | error e =>
        rw [pass_of_error hruns rfl ho]
        refine ⟨t, htells, ?_⟩
        rw [Tally.total_cons, htally, Tally.total_cons, add_right_comm]
      | ok f =>
        obtain ⟨u, hrest, htotal⟩ := ih (run ⟨h.core.counted n, h.kind⟩ m s).1.model
          (run ⟨h.core.counted n, h.kind⟩ m s).2
        rw [pass_of_ok hruns rfl ho]
        refine ⟨t + u, htells.trans hrest, ?_⟩
        rw [Tally.total_cons, htotal, htally, Tally.total_cons, add_add_add_comm]

/-- To attach heuristics, or to validate them, counts nothing. -/
theorem total_map_attach (hs : List (Heuristic α)) (m : Model α) :
    Tally.total (hs.map (·.attach m)) = Tally.total hs := by
  unfold Tally.total
  rw [List.map_map]
  rfl

theorem accounts_validate (h : Heuristic α) (m : Model α) :
    h.Accounts m (h.validate m).1 (h.validate m).2 := by
  have hdisable : ∀ reason : String, h.Accounts m ⟨(h.core.disable m reason).1, h.kind⟩
      (h.core.disable m reason).2 := by
    intro reason
    unfold Core.disable Core.tell
    split
    · exact .of_send rfl rfl rfl
    · exact .refl h m
  have hodd : ∀ can : Bool, h.Accounts m ⟨(h.core.disableIfOdd m can).1, h.kind⟩
      (h.core.disableIfOdd m can).2 := by
    intro can
    unfold Core.disableIfOdd
    split
    · exact hdisable _
    · exact .refl h m
  unfold Heuristic.validate
  dsimp only
  split
  · split
    · exact hdisable _
    · exact hodd _
  · exact hodd _

theorem tells_validateList (hs : List (Heuristic α)) (m : Model α) :
    ∃ t, m.Tells (validateList hs m).2 t ∧
      Tally.total (validateList hs m).1 = Tally.total hs + t := by
  induction hs generalizing m with
  | nil => exact ⟨0, .refl m, rfl⟩
  | cons h hs ih =>
    obtain ⟨t, htells, htally⟩ := accounts_validate h m
    obtain ⟨u, hrest, htotal⟩ := ih (h.validate m).2
    refine ⟨t + u, htells.trans hrest, ?_⟩
    show (h.validate m).1.core.tally + Tally.total (validateList hs (h.validate m).2).1 = _
    rw [htotal, htally, Tally.total_cons, add_add_add_comm]

end Collection

/-! ### Sessions -/

namespace Session

/-- What may happen to a collection and its model from the beginning on. -/
inductive Action (α : Type) [Scalar α] where
  | add (h : Heuristic α)
  | attach
  | validate
  | event (e : Event α)

/-- The session after an action. -/
def perform (s : Session α) : Action α → Session α
  | .add h => { s with collection := s.collection.add s.model h }
  | .attach => start s.collection s.model
  | .validate => ⟨(s.collection.validate s.model).1, (s.collection.validate s.model).2⟩
  | .event e => s.after e

/-- The session after some actions. -/
def performAll (s : Session α) (as : List (Action α)) : Session α :=
  as.foldl perform s

/-- No heuristic that is added has counted anything. -/
def Action.IsFresh : Action α → Prop
  | .add h => h.core.tally = 0
  | _ => True

/-- Between two moments the heuristics of a session count exactly what its model is told of. -/
def Accounts (s t : Session α) : Prop :=
  ∃ u, s.model.Tells t.model u ∧
    Tally.total t.collection.heuristics = Tally.total s.collection.heuristics + u

variable {s t u : Session α}

protected theorem Accounts.refl (s : Session α) : s.Accounts s :=
  ⟨0, .refl s.model, (add_zero _).symm⟩

theorem Accounts.trans (h : s.Accounts t) (h' : t.Accounts u) : s.Accounts u := by
  obtain ⟨a, hm, ha⟩ := h
  obtain ⟨b, hl, hb⟩ := h'
  exact ⟨a + b, hm.trans hl, by rw [hb, ha, add_assoc]⟩

/-- A message that tells of nothing, and heuristics that count nothing. -/
theorem Accounts.of_send {x : Message α} (hx : x.isExit = false) (hzero : x.tally = 0)
    (hm : t.model = s.model.send x)
    (hk : Tally.total t.collection.heuristics = Tally.total s.collection.heuristics) :
    s.Accounts t :=
  ⟨0, hm ▸ hzero ▸ s.model.tells_send hx, by rw [hk, add_zero]⟩

theorem accounts_run (s : Session α) : s.Accounts (s.after .run) := by
  unfold after
  dsimp only
  unfold Collection.runAtNode
  split
  · exact Collection.accounts_pass (fun h m _ => Collection.accounts_runOne h m m.node) _ _ _ _
  · exact .refl s

theorem accounts_runWithCuts (s : Session α) (cuts : CutPool α) :
    s.Accounts (s.after (.runWithCuts cuts)) := by
  unfold after
  dsimp only
  unfold Collection.runWithCuts
  split
  · exact Collection.accounts_pass
      (fun h m cuts => Collection.accounts_runOneWithCuts h m m.node cuts) _ _ _ _
  · exact .refl s

theorem accounts_after (s : Session α) (e : Event α) : s.Accounts (s.after e) := by
  cases e with
  | setNode n => exact .refl s
  | run => exact s.accounts_run
  | runWithCuts cuts => exact s.accounts_runWithCuts cuts
  | replaceProblem p => exact .refl s
  | reset =>
    unfold after Collection.reset
    dsimp only
    by_cases hk : s.collection.attached = true
    · rw [if_pos hk]
      exact .of_send rfl rfl rfl (Collection.total_map_attach _ _)
    · rw [if_neg hk]
      exact .refl s

/-- Each action tells of all that it counts, and so do any number of them. -/
theorem accounts_perform (s : Session α) {a : Action α} (ha : a.IsFresh) :
    s.Accounts (s.perform a) := by
  cases a with
  | add h =>
    refine ⟨0, .refl s.model, ?_⟩
    have hfresh : (if s.collection.attached then h.attach s.model else h).core.tally = 0 := by
      split <;> exact ha
    show Tally.total (_ ++ [_]) = _
    unfold Tally.total
    rw [List.map_append, List.sum_append, List.map_singleton, List.sum_singleton, hfresh]
  | attach => exact .of_send rfl rfl rfl (Collection.total_map_attach _ _)
  | validate => exact Collection.tells_validateList s.collection.heuristics s.model
  | event e => exact s.accounts_after e

theorem accounts_performAll (s : Session α) {as : List (Action α)} (has : ∀ a ∈ as, a.IsFresh) :
    s.Accounts (s.performAll as) := by
  induction as generalizing s with
  | nil => exact .refl s
  | cons a as ih =>
    obtain ⟨ha, has⟩ := List.forall_mem_cons.1 has
    exact (s.accounts_perform ha).trans (ih (s.perform a) has)

end Session

/-! ### The console -/

/-- Until the last message comes, the console adds up the nodes that it is told of. -/
theorem Console.receive_of_open {c : Console} (hc : c.closed = false) {x : Message Binary64}
    (hx : x.isExit = false) : (c.receive x).closed = false ∧
      (c.receive x).subSolveNodes = c.subSolveNodes + x.tally.subSolveNodes := by
  unfold receive
  rw [if_neg (by simp [hc])]
  cases x with
  | exit statistics => cases hx
  | _ => exact ⟨hc, rfl⟩

theorem Console.foldl_receive {c : Console} (hc : c.closed = false) {l : List (Message Binary64)}
    (hl : ∀ x ∈ l, x.isExit = false) : (l.foldl receive c).closed = false ∧
      (l.foldl receive c).subSolveNodes = c.subSolveNodes + (Tally.told l).subSolveNodes := by
  induction l generalizing c with
  | nil => exact ⟨hc, rfl⟩
  | cons x l ih =>
    obtain ⟨hx, hl⟩ := List.forall_mem_cons.1 hl
    obtain ⟨hopen, hnodes⟩ := receive_of_open hc hx
    obtain ⟨hclosed, hrest⟩ := ih hopen hl
    refine ⟨hclosed, ?_⟩
    rw [List.foldl_cons, hrest, hnodes, add_assoc]
    rfl

namespace Session

/-- The console when all messages of a session have come. -/
def console (s : Session Binary64) (timed : Bool) : Console :=
  s.model.messages.toList.foldl Console.receive (Console.start timed)

/-- The counts of the heuristics, as they are reported when a session is finished. -/
def statistics (s : Session Binary64) : List (Statistics Binary64) :=
  (s.collection.finish s.model).1

/-- All messages of a session that is finished. -/
def transcript (s : Session Binary64) : List (Message Binary64) :=
  (s.collection.finish s.model).2.messages.toList

/-- The counts of the heuristics and those of the console are the same. The console prints its
totals, and then the statistics, as the last thing. -/
structure TotalsAgree (s : Session Binary64) (timed : Bool) : Prop where
  runs : s.transcript.countP Message.isFinish = (s.statistics.map (·.runs)).sum
  solutions : s.transcript.countP Message.isNewBest = (s.statistics.map (·.solutions)).sum
  subSolveNodes : (s.console timed).subSolveNodes = (s.statistics.map (·.subSolveNodes)).sum
  footer : s.collection.attached = true →
    s.transcript.foldl Console.receive (Console.start timed) =
      { s.console timed with closed := true }.print
        ([Console.centred '⎯' "Statistics", (s.console timed).totals] ++
          s.statistics.map Statistics.toText ++ [Console.rule])

/-- Whatever happens to a collection and its model from the beginning on, the counts of the
heuristics and those of the console agree in the end. -/
theorem totalsAgree {m : Model Binary64} (hm : m.messages = #[]) {as : List (Action Binary64)}
    (has : ∀ a ∈ as, a.IsFresh) (timed : Bool) :
    (performAll ⟨.empty, m⟩ as).TotalsAgree timed := by
  obtain ⟨t, ⟨new, hnew, rfl, hopen⟩, htotal⟩ := accounts_performAll ⟨.empty, m⟩ has
  generalize performAll ⟨.empty, m⟩ as = s at hnew htotal ⊢
  have hmessages : s.model.messages.toList = new := by
    rw [hnew, hm]
    rfl
  have htotal : Tally.told new = ⟨(s.statistics.map (·.runs)).sum,
      (s.statistics.map (·.solutions)).sum, (s.statistics.map (·.subSolveNodes)).sum⟩ := by
    rw [← zero_add (Tally.told new)]
    exact htotal.symm.trans (Tally.total_eq s.collection.heuristics)
  obtain ⟨hruns, hsolutions⟩ := Tally.told_counts new
  rw [htotal] at hruns hsolutions
  dsimp only at hruns hsolutions
  have htranscript : s.transcript =
      new ++ if s.collection.attached then [.exit s.statistics] else [] := by
    unfold transcript Collection.finish
    dsimp only
    split
    · rw [← hmessages]
      exact Array.toList_push
    · rw [List.append_nil, hmessages]
  have hconsole : s.console timed = new.foldl Console.receive (Console.start timed) := by
    rw [← hmessages]
    rfl
  obtain ⟨hclosed, hnodes⟩ := Console.foldl_receive (c := Console.start timed) rfl hopen
  rw [htotal] at hnodes
  refine ⟨?_, ?_, ?_, fun hk => ?_⟩
  · rw [hruns, htranscript, List.countP_append]
    split <;> rfl
  · rw [hsolutions, htranscript, List.countP_append]
    split <;> rfl
  · rw [hconsole, hnodes]
    exact Nat.zero_add _
  · -- the last message finds the console open
    rw [htranscript, if_pos hk, List.foldl_append, ← hconsole]
    rw [← hconsole] at hclosed
    rw [List.foldl_cons, List.foldl_nil]
    unfold Console.receive
    rw [if_neg (by simp [hclosed])]

/-- A branch of a problem whose only column is left to a sub-problem. -/
def leftOver : Model Binary64 where
  problem := Collection.oneColumn (-1) 20000
  node := Collection.luckyBranch.node
  incumbent := Model.noIncumbent
  messages := #[]

/-- Two heuristics run, the second of which comes late. -/
def firstRuns : List (Action Binary64) :=
  [.add (.ofKind (.partialFix .fresh)), .attach, .add (.ofKind (.serendipity .fresh)), .event .run,
    .event .reset, .event (.runWithCuts #[])]

theorem totalsAgree_firstRuns : leftOver.messages = #[] ∧ (∀ a ∈ firstRuns, a.IsFresh) ∧
    (performAll ⟨.empty, leftOver⟩ firstRuns).statistics.map
      (fun l => (l.name, l.runs, l.solutions, l.subSolveNodes)) =
        [("Partial", 1, 1, 1), ("Serendipity", 1, 0, 0)] ∧
    (performAll ⟨.empty, leftOver⟩ firstRuns).TotalsAgree true := by
  have hfresh : ∀ a ∈ firstRuns, a.IsFresh := by
    simp only [firstRuns, List.forall_mem_cons]
    exact ⟨rfl, trivial, rfl, trivial, trivial, trivial, fun a ha => (by cases ha)⟩
  exact ⟨rfl, hfresh, by decide +kernel, totalsAgree rfl hfresh true⟩

end Session

end PrimalHeuristics
