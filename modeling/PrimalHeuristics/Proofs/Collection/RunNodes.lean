import PrimalHeuristics.Proofs.Collection.Incumbent

/-!
# The nodes at which heuristics have run

A heuristic remembers the nodes below the root at which a run of it came to an end, and it does not
run at a node that is near one of them. So the nodes that it remembers are far from each other, and
no run is repeated; but a run that fails is not remembered, and may be repeated at once.

Nothing ever forgets such a node, not even a reset for another problem: the decisions that led to it
name columns of the old problem, and are compared with decisions on those of the new one.

* `Fate`, `Collection.fates`: what a pass does with each of its heuristics, by
  `Collection.tracked_eq`;
* `Fate.Leads`, `Collection.leads_pass`: what a pass makes a heuristic remember;
* `Remembers`, `Session.remembers_afterAll`: what a history of passes makes it remember;
* `Session.keepsDistance`: the nodes are far from each other, and only a failed run is repeated;
* `Session.not_keepsDistance_misfit`: one that is;
* `Session.forgetsTree_iff`: when a reset forgets the tree of the problem before;
* `Session.not_forgetsTree_twoBranches`: one that does not.
-/

namespace PrimalHeuristics

variable {α : Type} [Scalar α]

/-! ### Paths -/

namespace Path

/-- All decisions have numbers for bounds. -/
def HasNumbers (p : Path Binary64) : Prop :=
  ∀ d ∈ p, d.bound.isNaN = false

/-- Two positions of the tree are far from each other, in both directions. -/
def Apart (share : α) (p q : Path α) : Prop :=
  p.isFarFrom q share = true ∧ q.isFarFrom p share = true

@[simp] theorem matching_cons (d e : Decision α) (p q : Path α) :
    matching (d :: p) (e :: q) = matching p q + if d.same e then 1 else 0 := by
  unfold matching
  rw [List.zip_cons_cons, List.countP_cons]

theorem matching_of_same {p q : Path α} (h : p.same q = true) :
    matching p q = p.length ∧ q.length = p.length := by
  induction p generalizing q with
  | nil =>
    cases q with
    | nil => exact ⟨rfl, rfl⟩
    | cons e q => cases h
  | cons d p ih =>
    cases q with
    | nil => cases h
    | cons e q =>
      obtain ⟨hd, hrest⟩ := Bool.and_eq_true_iff.1 h
      obtain ⟨hmatching, hlength⟩ := ih hrest
      rw [matching_cons, if_pos hd, hmatching, List.length_cons, List.length_cons, hlength]
      exact ⟨rfl, rfl⟩

/-- A position is not far from itself. -/
theorem isFarFrom_of_same {p q : Path α} (h : p.same q = true) (share : α) :
    p.isFarFrom q share = false := by
  obtain ⟨hmatching, hlength⟩ := matching_of_same h
  unfold isFarFrom
  dsimp only
  rw [hmatching, hlength, show Nat.max p.length p.length = p.length from Nat.max_self _,
    bne_self_eq_false, Bool.false_and]

theorem same_self {p : Path Binary64} (hp : p.HasNumbers) : p.same p = true := by
  induction p with
  | nil => rfl
  | cons d p ih =>
    obtain ⟨hd, hp⟩ := List.forall_mem_cons.1 hp
    have hbound : (d.bound == d.bound) = true := (Binary64.eq_iff_place hd hd).2 rfl
    show (d.same d && same p p) = true
    rw [ih hp, Decision.same, hbound, beq_self_eq_true, beq_self_eq_true]
    rfl

theorem matching_comm (p q : Path Binary64) : matching p q = matching q p := by
  induction p generalizing q with
  | nil => cases q <;> rfl
  | cons d p ih =>
    cases q with
    | nil => rfl
    | cons e q =>
      have hbound : (d.bound == e.bound) = (e.bound == d.bound) := by
        show d.bound.eq e.bound = e.bound.eq d.bound
        unfold Binary64.eq
        rw [Bool.and_comm (!d.bound.isNaN), Bool.and_comm d.bound.isZero,
          BEq.comm (a := d.bound.bits)]
      have hsame : d.same e = e.same d := by
        unfold Decision.same
        rw [hbound, BEq.comm (a := d.column), BEq.comm (a := d.direction)]
      rw [matching_cons, matching_cons, ih q, hsame]

theorem isFarFrom_comm (p q : Path Binary64) (share : Binary64) :
    p.isFarFrom q share = q.isFarFrom p share := by
  unfold isFarFrom
  rw [matching_comm p q, show Nat.max p.length q.length = Nat.max q.length p.length from
    Nat.max_comm _ _]

end Path

/-! ### Runs -/

/-- What a run at a node leaves: the settings are kept, and so is the node of the model; the node is
remembered if it is below the root, unless the run fails. -/
structure Turn.Records (t : Turn α) (h : Heuristic α) (m : Model α) (n : Node α) : Prop where
  settings_eq : t.heuristic.core.settings = h.core.settings
  node_eq : t.model.node = m.node
  runNodes_eq : t.heuristic.core.runNodes =
    if t.outcome.isOk && !n.isRoot then h.core.runNodes ++ [n.path] else h.core.runNodes

namespace Collection

variable {h k : Heuristic α} {m l : Model α} {n : Node α}

theorem records_conclude (hs : k.core.settings = h.core.settings)
    (hr : k.core.runNodes = h.core.runNodes) (hm : l.node = m.node) (outcome : String)
    (accepted : Option α) : (conclude k l n outcome accepted).Records h m n := by
  refine ⟨hs, hm, ?_⟩
  show (if n.isRoot then k.core.runNodes else k.core.runNodes ++ [n.path]) = _
  rw [hr]
  cases n.isRoot <;> rfl

theorem records_runOne (h : Heuristic α) (m : Model α) (n : Node α) :
    (runOne h m n).Records h m n := by
  unfold runOne
  dsimp only
  generalize hs : h.seek (m.send (.start h.core.settings.name n.depth)) _ _ = s
  obtain ⟨-, hsettings, hnodes⟩ : h.core.Kept s.heuristic.core := hs ▸ h.kept_seek _ _ _
  have hnode : s.model.node = m.node := by
    rw [← hs]
    exact (h.agrees_seek _ _ _).node_eq.symm
  cases s.outcome with
  | error e => exact ⟨hsettings, hnode, hnodes⟩
  | ok o =>
    cases o with
    | nothing => exact records_conclude hsettings hnodes hnode _ _
    | improved objective =>
      unfold offer
      cases hp : s.model.propose objective s.buffer h.core.settings.name with
      | error f =>
        simp only [hp]
        exact ⟨hsettings, hnode, hnodes⟩
      | ok p =>
        have hkept : p.2.node = m.node := (Model.kept_propose hp).2.trans hnode
        simp only [hp, Checked.ok_bind]
        exact records_conclude hsettings hnodes hkept _ _

theorem records_runOneWithCuts (h : Heuristic α) (m : Model α) (n : Node α) (cuts : CutPool α) :
    (runOneWithCuts h m n cuts).1.Records h m n := by
  rw [runOneWithCuts_eq]
  exact records_conclude rfl rfl rfl _ _

end Collection

/-! ### Passes -/

/-- What a pass does with a heuristic. -/
inductive Fate where
  /-- The heuristic does not run: the gate is closed, or the pass has failed before. -/
  | idle
  | completed
  | failed
  deriving DecidableEq, Repr

/-- What a heuristic remembers after a pass at a node: the node, if it is below the root and a run
came to an end. It runs only if the gate is open. -/
structure Fate.Leads (f : Fate) (n : Node α) (c d : Core α) : Prop where
  settings_eq : d.settings = c.settings
  runNodes_eq : d.runNodes =
    if f = .completed ∧ n.isRoot = false then c.runNodes ++ [n.path] else c.runNodes
  isClear : f ≠ .idle → c.isClear n = true

theorem Fate.leads_idle {n : Node α} {c d : Core α} (hs : d.settings = c.settings)
    (hr : d.runNodes = c.runNodes) : Fate.idle.Leads n c d :=
  ⟨hs, hr, fun h => absurd rfl h⟩

theorem Core.runNodes_counted (c : Core α) (n : Node α) : (c.counted n).runNodes = c.runNodes := by
  unfold counted shouldRun
  split <;> rfl

theorem Core.isClear_of_runsAt {c : Core α} {n : Node α} (h : c.runsAt n = true) :
    c.isClear n = true := by
  unfold runsAt shouldRun at h
  split at h
  · exact (isDue_iff.1 h).2
  · cases h

/-- A run that the gate allows leads to what its turn records. -/
theorem Turn.Records.leads {t : Turn α} {h : Heuristic α} {m : Model α} {n : Node α}
    (ht : t.Records ⟨h.core.counted n, h.kind⟩ m n) (hrun : h.core.runsAt n = true) :
    (if t.outcome.isOk then Fate.completed else .failed).Leads n h.core t.heuristic.core := by
  refine ⟨ht.settings_eq.trans (h.core.counted_agrees n).settings_eq.symm, ?_,
    fun _ => Core.isClear_of_runsAt hrun⟩
  rw [ht.runNodes_eq, show (Heuristic.core ⟨h.core.counted n, h.kind⟩).runNodes = h.core.runNodes
    from h.core.runNodes_counted n]
  cases t.outcome.isOk <;> cases n.isRoot <;> simp

namespace Collection

variable {σ : Type} {run : Heuristic α → Model α → σ → Turn α × σ} {n : Node α}

/-- What a pass does with its heuristics, as far as it gets. -/
def fates (run : Heuristic α → Model α → σ → Turn α × σ) (n : Node α) :
    List (Heuristic α) → Model α → σ → List Fate
  | [], _, _ => []
  | h :: hs, m, s =>
    if h.core.runsAt n then
      let t := run ⟨h.core.counted n, h.kind⟩ m s
      if t.1.outcome.isOk then .completed :: fates run n hs t.1.model t.2 else [.failed]
    else .idle :: fates run n hs m s

/-- A run that also takes down the heuristic that runs, and how that ends. -/
def tracked (run : Heuristic α → Model α → σ → Turn α × σ) (h : Heuristic α) (m : Model α)
    (s : List (Heuristic α × Fate) × σ) : Turn α × List (Heuristic α × Fate) × σ :=
  let t := run h m s.2
  (t.1, s.1 ++ [(h, if t.1.outcome.isOk then .completed else .failed)], t.2)

/-- The heuristics that a pass runs, with the node counted, are those that it does something
with. -/
theorem tracked_eq (hs : List (Heuristic α)) (m : Model α) (s : List (Heuristic α × Fate) × σ) :
    (pass (tracked run) n hs m s).2.1 =
      s.1 ++ ((hs.zip (fates run n hs m s.2)).filter (·.2 ≠ .idle)).map
        fun (h, f) => (⟨h.core.counted n, h.kind⟩, f) := by
  induction hs generalizing m s with
  | nil => simp [pass, fates]
  | cons h hs ih =>
    unfold fates
    cases hgate : h.core.runsAt n with
    | false =>
      rw [pass_of_not_runs hgate, if_neg Bool.false_ne_true]
      exact ih m s
    | true =>
      cases ht : run ⟨h.core.counted n, h.kind⟩ m s.2 with
      | mk t s' =>
        rw [if_pos rfl]
        have htracked : tracked run ⟨h.core.counted n, h.kind⟩ m s =
            (t, s.1 ++ [(⟨h.core.counted n, h.kind⟩,
              if t.outcome.isOk then .completed else .failed)], s') := by
          rw [tracked, ht]
        cases ho : t.outcome with
        | error e =>
          rw [pass_of_error hgate htracked ho]
          simp [ho, Except.isOk, Except.toBool]
        | ok f =>
          rw [pass_of_ok hgate htracked ho]
          simp [ho, Except.isOk, Except.toBool, ih]

/-- What a pass does with the heuristic at a place, and what it leaves of it. -/
theorem leads_pass (hrun : ∀ h m s, m.node = n → (run h m s).1.Records h m n)
    (hs : List (Heuristic α)) {m : Model α} (hm : m.node = n) (s : σ) (i : Nat) :
    Option.Rel (fun h k => ((fates run n hs m s)[i]?.getD .idle).Leads n h.core k.core)
      hs[i]? (pass run n hs m s).1.heuristics[i]? := by
  induction hs generalizing m s i with
  | nil => exact .none
  | cons h hs ih =>
    unfold fates
    cases hgate : h.core.runsAt n with
    | false =>
      rw [pass_of_not_runs hgate, if_neg Bool.false_ne_true]
      cases i with
      | zero =>
        have hsettings := (h.core.counted_agrees n).settings_eq.symm
        exact .some (Fate.leads_idle hsettings (h.core.runNodes_counted n))
      | succ i => exact ih hm s i
    | true =>
      cases ht : run ⟨h.core.counted n, h.kind⟩ m s with
      | mk t s' =>
        have hrecords := hrun ⟨h.core.counted n, h.kind⟩ m s hm
        rw [ht] at hrecords
        have hleads := hrecords.leads hgate
        rw [if_pos rfl]
        cases ho : t.outcome with
        | error e =>
          -- the pass ends here, and the rest stays as it is
          rw [pass_of_error hgate ht ho]
          rw [ho] at hleads
          simp only [ho]
          cases i with
          | zero => exact .some hleads
          | succ i =>
            show Option.Rel _ hs[i]? hs[i]?
            cases hs[i]? with
            | none => exact .none
            | some k => exact .some (Fate.leads_idle rfl rfl)
        | ok f =>
          rw [pass_of_ok hgate ht ho]
          rw [ho] at hleads
          simp only [ho]
          cases i with
          | zero => exact .some hleads
          | succ i => exact ih (hrecords.node_eq.trans hm) s' i

end Collection

/-! ### Histories -/

/-- A run of a heuristic at a node. -/
structure Run (α : Type) where
  node : Node α
  /-- The run came to an end without an error. -/
  completed : Bool

/-- The run that a heuristic makes at a node, if it makes one. -/
def Fate.run? (n : Node α) : Fate → Option (Run α)
  | .idle => none
  | .completed => some ⟨n, true⟩
  | .failed => some ⟨n, false⟩

/-- Runs below the root are remembered, unless they fail. -/
def Run.isRemembered (r : Run α) : Bool :=
  r.completed && !r.node.isRoot

/-- What runs make a heuristic remember. All of them take place where it is clear of the runs
before. -/
structure Remembers (rs : List (Run α)) (c d : Core α) : Prop where
  settings_eq : d.settings = c.settings
  runNodes_eq : d.runNodes = c.runNodes ++ (rs.filter (·.isRemembered)).map (·.node.path)
  isClear : ∀ r ∈ rs, c.isClear r.node = true
  far : rs.Pairwise fun r r' => r.isRemembered = true → r'.node.isRoot = false →
    r.node.path.isFarFrom r'.node.path c.settings.farThreshold = true

section Histories

variable {f : Fate} {n k : Node α} {c d e : Core α}

/-- What is clear of all nodes that are remembered later was so before, and it is far from the node
that was added. -/
theorem Fate.Leads.isClear_of_isClear (h : f.Leads n c d) (hk : d.isClear k = true) :
    c.isClear k = true ∧ (f = .completed → n.isRoot = false → k.isRoot = false →
      n.path.isFarFrom k.path c.settings.farThreshold = true) := by
  obtain ⟨hsettings, hnodes, -⟩ := h
  unfold Core.isClear at hk ⊢
  rw [hsettings, hnodes] at hk
  by_cases hadded : f = .completed ∧ n.isRoot = false
  · rw [if_pos hadded, Core.allFar_append] at hk
    cases hroot : k.isRoot with
    | true => exact ⟨rfl, fun _ _ hk => by cases hk⟩
    | false =>
      rw [hroot, Bool.false_or, Bool.and_eq_true] at hk
      exact ⟨hk.1, fun _ _ _ => hk.2⟩
  · rw [if_neg hadded] at hk
    exact ⟨hk, fun hf hn => absurd ⟨hf, hn⟩ hadded⟩

theorem Remembers.nil (c : Core α) : Remembers [] c c where
  settings_eq := rfl
  runNodes_eq := (List.append_nil _).symm
  isClear _ hr := absurd hr List.not_mem_nil
  far := .nil

/-- One more run, or none, before others. -/
theorem Fate.Leads.remembers (h : f.Leads n c d) {rs : List (Run α)} (hrs : Remembers rs d e) :
    Remembers ((f.run? n).toList ++ rs) c e where
  settings_eq := hrs.settings_eq.trans h.settings_eq
  runNodes_eq := by
    rw [hrs.runNodes_eq, h.runNodes_eq]
    cases f <;> cases hroot : n.isRoot <;> simp [Fate.run?, Run.isRemembered, hroot]
  isClear r hr := by
    rcases List.mem_append.1 hr with hfirst | hrest
    · have hrun : f ≠ .idle ∧ r.node = n := by
        cases f <;> simp [Fate.run?] at hfirst <;> simp [hfirst]
      exact hrun.2 ▸ h.isClear hrun.1
    · exact (h.isClear_of_isClear (hrs.isClear r hrest)).1
  far := by
    have hrest := h.settings_eq ▸ hrs.far
    refine List.pairwise_append.2 ⟨?_, hrest, fun r hr r' hr' hremembered hroot => ?_⟩
    · cases f <;> simp [Fate.run?]
    · have hcompleted : f = .completed ∧ r.node = n := by
        cases f <;> simp [Fate.run?] at hr <;> simp [hr, Run.isRemembered] at hremembered ⊢
      obtain ⟨hf, rfl⟩ := hcompleted
      have hbelow : r.node.isRoot = false := by
        simpa using (Bool.and_eq_true_iff.1 hremembered).2
      exact (h.isClear_of_isClear (hrs.isClear r' hr')).2 hf hbelow hroot

end Histories

namespace Session

variable {s : Session α}

/-- The common part of the heuristic at a place. -/
def core? (s : Session α) (i : Nat) : Option (Core α) :=
  s.collection.heuristics[i]?.map (·.core)

/-- What an event does with the heuristics, as far as it gets. -/
def fates (s : Session α) : Event α → List Fate
  | .run =>
    if s.collection.attached then
      Collection.fates (fun h m () => (Collection.runOne h m m.node, ())) s.model.node
        s.collection.heuristics s.model ()
    else []
  | .runWithCuts cuts =>
    if s.collection.attached then
      Collection.fates (fun h m cuts => Collection.runOneWithCuts h m m.node cuts) s.model.node
        s.collection.heuristics s.model cuts
    else []
  | _ => []

/-- What an event does with the heuristic at a place. -/
def fate (s : Session α) (e : Event α) (i : Nat) : Fate :=
  (s.fates e)[i]?.getD .idle

/-- The session after events. -/
def afterAll (s : Session α) (es : List (Event α)) : Session α :=
  es.foldl after s

/-- The runs of the heuristic at a place throughout events. -/
def runs (s : Session α) (i : Nat) : List (Event α) → List (Run α)
  | [] => []
  | e :: es => ((s.fate e i).run? s.model.node).toList ++ (s.after e).runs i es

theorem leads_of_idle {o : Option (Core α)} (n : Node α) : Option.Rel (Fate.idle.Leads n) o o := by
  cases o with
  | none => exact .none
  | some c => exact .some (Fate.leads_idle rfl rfl)

/-- What an event does with the heuristic at a place, and what it leaves of it. -/
theorem leads_after (s : Session α) (e : Event α) (i : Nat) :
    Option.Rel ((s.fate e i).Leads s.model.node) (s.core? i) ((s.after e).core? i) := by
  have hmap {f : Fate} {n : Node α} {o o' : Option (Heuristic α)}
      (h : Option.Rel (fun h k => f.Leads n h.core k.core) o o') :
      Option.Rel (f.Leads n) (o.map (·.core)) (o'.map (·.core)) := by
    cases h with
    | none => exact .none
    | some h => exact .some h
  cases e with
  | setNode n => exact leads_of_idle _
  | replaceProblem p => exact leads_of_idle _
  | reset =>
    unfold core? after Collection.reset
    by_cases hk : s.collection.attached = true
    · simp only [if_pos hk, List.getElem?_map]
      cases s.collection.heuristics[i]? with
      | none => exact .none
      | some h => exact .some (Fate.leads_idle rfl rfl)
    · simp only [if_neg hk]
      exact leads_of_idle _
  | run =>
    unfold fate fates after Collection.runAtNode
    by_cases hk : s.collection.attached = true
    · simp only [if_pos hk]
      refine hmap (Collection.leads_pass (fun h m _ hm => ?_) _ rfl () i)
      rw [hm]
      exact Collection.records_runOne h m s.model.node
    · simp only [if_neg hk]
      exact leads_of_idle _
  | runWithCuts cuts =>
    unfold fate fates after Collection.runWithCuts
    by_cases hk : s.collection.attached = true
    · simp only [if_pos hk]
      refine hmap (Collection.leads_pass (fun h m cuts hm => ?_) _ rfl cuts i)
      rw [hm]
      exact Collection.records_runOneWithCuts h m s.model.node cuts
    · simp only [if_neg hk]
      exact leads_of_idle _

/-- What is remembered after events are the runs that took place, and what was remembered before. -/
theorem remembers_afterAll (s : Session α) (i : Nat) (es : List (Event α)) :
    Option.Rel (Remembers (s.runs i es)) (s.core? i) ((s.afterAll es).core? i) := by
  induction es generalizing s with
  | nil =>
    show Option.Rel (Remembers []) (s.core? i) (s.core? i)
    cases s.core? i with
    | none => exact .none
    | some c => exact .some (.nil c)
  | cons e es ih =>
    have hstep := s.leads_after e i
    have hrest := ih (s.after e)
    unfold runs
    show Option.Rel _ (s.core? i) (((s.after e).afterAll es).core? i)
    generalize s.core? i = o at hstep ⊢
    generalize (s.after e).core? i = o' at hstep hrest
    generalize ((s.after e).afterAll es).core? i = o'' at hrest ⊢
    cases hstep with
    | none =>
      cases hrest
      exact .none
    | some hstep =>
      cases hrest with
      | some hrest => exact .some (hstep.remembers hrest)

theorem runs_append (s : Session α) (i : Nat) (es es' : List (Event α)) :
    s.runs i (es ++ es') = s.runs i es ++ (s.afterAll es).runs i es' := by
  induction es generalizing s with
  | nil => rfl
  | cons e es ih =>
    rw [List.cons_append, runs, ih, runs, List.append_assoc]
    rfl

end Session

/-- No heuristic of the collection has run below the root. -/
def Collection.IsFresh (k : Collection α) : Prop :=
  ∀ h ∈ k.heuristics, h.core.runNodes = []

theorem Collection.isFresh_oneSerendipity : oneSerendipity.IsFresh := by
  intro h hh
  cases List.mem_singleton.1 hh
  rfl

namespace Session

/-- A fresh heuristic remembers its runs, and nothing else. -/
theorem exists_remembers {s : Session α} (hs : s.collection.IsFresh) {es : List (Event α)} {i : Nat}
    {d : Core α} (hd : (s.afterAll es).core? i = some d) :
    ∃ c, s.core? i = some c ∧ c.runNodes = [] ∧ Remembers (s.runs i es) c d := by
  have hrel := s.remembers_afterAll i es
  rw [hd] at hrel
  cases hc : s.core? i with
  | none =>
    rw [hc] at hrel
    cases hrel
  | some c =>
    rw [hc] at hrel
    cases hrel with
    | some hremembers =>
      obtain ⟨h, hh, rfl⟩ := Option.map_eq_some_iff.1 hc
      exact ⟨h.core, rfl, hs h (List.mem_of_getElem? hh), hremembers⟩

/-! ### Distances -/

/-- The nodes that a heuristic remembers are far from each other, and below the root it does not run
again where it has run, as far as runs count. -/
structure KeepsDistance (s : Session Binary64) (es : List (Event Binary64))
    (counts : Run Binary64 → Prop) : Prop where
  apart : ∀ i c, (s.afterAll es).core? i = some c →
    c.runNodes.Pairwise (Path.Apart c.settings.farThreshold)
  once : ∀ i c, (s.afterAll es).core? i = some c → (s.runs i es).Pairwise fun r r' =>
    counts r → r.node.isRoot = false → r'.node.isRoot = false →
      r.node.path.same r'.node.path = false ∧
        (r.node.path.HasNumbers → r.node.path ≠ r'.node.path)

/-- Remembered nodes are far from each other, and only a failed run may be repeated. -/
theorem keepsDistance {s : Session Binary64} (hs : s.collection.IsFresh)
    (es : List (Event Binary64)) : s.KeepsDistance es (·.completed = true) where
  apart i d hd := by
    obtain ⟨c, -, hnodes, hremembers⟩ := exists_remembers hs hd
    rw [hremembers.runNodes_eq, hnodes, List.nil_append, List.pairwise_map, List.pairwise_filter,
      hremembers.settings_eq]
    refine hremembers.far.imp fun {r r'} hfar hr hr' => ?_
    have hbelow : r'.node.isRoot = false := by
      simpa using (Bool.and_eq_true_iff.1 hr').2
    have hfar := hfar hr hbelow
    exact ⟨hfar, Path.isFarFrom_comm r.node.path r'.node.path _ ▸ hfar⟩
  once i d hd := by
    obtain ⟨c, -, -, hremembers⟩ := exists_remembers hs hd
    refine hremembers.far.imp fun {r r'} hfar hcompleted hroot hroot' => ?_
    have hfar := hfar (by rw [Run.isRemembered, hcompleted, hroot]; rfl) hroot'
    have hsame : r.node.path.same r'.node.path = false := by
      rw [Bool.eq_false_iff]
      intro hsame
      rw [Path.isFarFrom_of_same hsame] at hfar
      contradiction
    refine ⟨hsame, fun hnumbers heq => ?_⟩
    rw [← heq, Path.same_self hnumbers] at hsame
    contradiction

/-- The upper branch of a binary column. -/
def upperBranch : Node Binary64 where
  depth := 1
  path := [⟨0, .up, 1⟩]
  box := ⟨#[1], #[1]⟩
  solution := #[1]
  objective := -1
  solverSolution := none
  hotstart := none

/-- The lower branch of a binary column. -/
def lowerBranch : Node Binary64 where
  depth := 1
  path := [⟨0, .down, 0⟩]
  box := ⟨#[0], #[0]⟩
  solution := #[0]
  objective := 0
  solverSolution := none
  hotstart := none

/-- A serendipity heuristic at the root of a problem with one binary column. -/
def twoBranches : Session Binary64 where
  collection := Collection.oneSerendipity
  model := Collection.luckyBranch.setNode (.root Collection.oneBinary #[0] 0)

/-- A heuristic runs once at each branch, and does not come back. -/
theorem keepsDistance_twoBranches :
    (twoBranches.runs 0 [.setNode upperBranch, .run, .setNode lowerBranch, .run,
      .setNode upperBranch, .run]).map (·.isRemembered) = [true, true] ∧
    twoBranches.collection.IsFresh ∧
    twoBranches.KeepsDistance [.setNode upperBranch, .run, .setNode lowerBranch, .run,
      .setNode upperBranch, .run] (·.completed = true) :=
  ⟨by decide +kernel, Collection.isFresh_oneSerendipity,
    keepsDistance Collection.isFresh_oneSerendipity _⟩

/-- A serendipity heuristic at a node below the root, whose relaxation has no solution. -/
def misfit : Session Binary64 where
  collection := Collection.oneSerendipity
  model := Collection.luckyBranch.setNode { Collection.luckyBranch.node with solution := #[] }

/-- A run that fails is repeated at the same node. -/
theorem not_keepsDistance_misfit : misfit.collection.IsFresh ∧
    ¬ misfit.KeepsDistance [.run, .run] fun _ => True := by
  refine ⟨Collection.isFresh_oneSerendipity, fun h => ?_⟩
  have hfirst : misfit.fate .run 0 = .failed := by decide +kernel
  have hsecond : (misfit.after .run).fate .run 0 = .failed := by decide +kernel
  have hend : ((misfit.afterAll [.run, .run]).core? 0).isSome = true := by decide +kernel
  have hnode : (misfit.after .run).model.node = misfit.model.node := rfl
  obtain ⟨c, hc⟩ := Option.isSome_iff_exists.1 hend
  have honce := h.once 0 c hc
  simp only [runs, hfirst, hsecond, hnode] at honce
  have hnumbers : misfit.model.node.path.HasNumbers := by
    unfold Path.HasNumbers
    decide +kernel
  have hpair := (List.pairwise_cons.1 honce).1 _ (List.mem_singleton_self _)
  exact (hpair trivial rfl rfl).2 hnumbers rfl

/-! ### Another problem -/

/-- The problem is replaced after events, and the heuristics are told. -/
def renewed (s : Session α) (es : List (Event α)) (p : Problem α) : Session α :=
  s.afterAll (es ++ [.replaceProblem p, .reset])

end Session

/-- A run is remembered at a node that is not far from another one. -/
def Run.isNear (share : α) (r : Run α) (n : Node α) : Bool :=
  r.isRemembered && !r.node.path.isFarFrom n.path share

/-- Without earlier runs a node is clear if it is the root, or no run is near. -/
theorem Remembers.isClear_eq {rs : List (Run α)} {c d : Core α} (h : Remembers rs c d)
    (hc : c.runNodes = []) (n : Node α) :
    d.isClear n = (n.isRoot || !rs.any (·.isNear c.settings.farThreshold n)) := by
  have hall : ((rs.filter (·.isRemembered)).map (·.node.path)).all
      (·.isFarFrom n.path c.settings.farThreshold) =
      !rs.any (·.isNear c.settings.farThreshold n) := by
    rw [List.all_map, List.all_filter, List.not_any_eq_all_not]
    congr 1
    funext r
    simp only [Run.isNear, Function.comp, Bool.not_and, Bool.not_not]
  unfold Core.isClear History.allFar
  rw [h.settings_eq, h.runNodes_eq, hc, List.nil_append, hall]

namespace Session

/-- A reset for another problem forgets the tree of the problem before: of two histories each leaves
the heuristics clear of the same nodes of the new tree. -/
def ForgetsTree (s : Session α) (p : Problem α) (es es' : List (Event α)) : Prop :=
  ∀ n, Node.OfTree p n → ∀ i c c', (s.renewed es p).core? i = some c →
    (s.renewed es' p).core? i = some c' → c.isClear n = c'.isClear n

theorem exists_isClear_renewed {s : Session α} (hs : s.collection.IsFresh) {es : List (Event α)}
    {p : Problem α} {i : Nat} {d : Core α} (hd : (s.renewed es p).core? i = some d) :
    ∃ c, s.core? i = some c ∧ ∀ n, d.isClear n =
      (n.isRoot || !(s.runs i es).any (·.isNear c.settings.farThreshold n)) := by
  obtain ⟨c, hc, hnodes, hremembers⟩ := exists_remembers hs hd
  rw [runs_append] at hremembers
  -- the two events that set up the new problem run nothing
  have hruns : s.runs i es ++ (s.afterAll es).runs i [.replaceProblem p, .reset] = s.runs i es :=
    List.append_nil _
  rw [hruns] at hremembers
  exact ⟨c, hc, hremembers.isClear_eq hnodes⟩

/-- The tree of the old problem is forgotten if and only if the two histories have remembered runs
near the same nodes of the new tree, which only compares decisions of the two trees. -/
theorem forgetsTree_iff {s : Session α} (hs : s.collection.IsFresh) (p : Problem α)
    (es es' : List (Event α)) :
    s.ForgetsTree p es es' ↔ ∀ i c, s.core? i = some c → ∀ n, Node.OfTree p n →
      n.isRoot = false → (s.runs i es).any (·.isNear c.settings.farThreshold n) =
        (s.runs i es').any (·.isNear c.settings.farThreshold n) := by
  constructor
  · intro h i c hc n hn hroot
    have hend (es : List (Event α)) : ∃ d, (s.renewed es p).core? i = some d := by
      have hrel := s.remembers_afterAll i (es ++ [.replaceProblem p, .reset])
      rw [hc] at hrel
      generalize hd : (s.afterAll (es ++ [.replaceProblem p, .reset])).core? i = o at hrel
      cases hrel with
      | some _ => exact ⟨_, hd⟩
    obtain ⟨d, hd⟩ := hend es
    obtain ⟨d', hd'⟩ := hend es'
    have hsame := h n hn i d d' hd hd'
    obtain ⟨b, hb, hclear⟩ := exists_isClear_renewed hs hd
    obtain ⟨b', hb', hclear'⟩ := exists_isClear_renewed hs hd'
    cases hb.symm.trans hc
    cases hb'.symm.trans hc
    rw [hclear, hclear', hroot, Bool.false_or, Bool.false_or] at hsame
    exact Bool.not_inj hsame
  · intro h n hn i d d' hd hd'
    obtain ⟨c, hc, hclear⟩ := exists_isClear_renewed hs hd
    obtain ⟨c', hc', hclear'⟩ := exists_isClear_renewed hs hd'
    cases hc'.symm.trans hc
    rw [hclear, hclear']
    cases hroot : n.isRoot with
    | true => rfl
    | false => rw [h i c hc n hn hroot]

/-- One binary column of cost one. -/
def oneCostly : Problem Binary64 :=
  Collection.oneColumn 1 0

/-- Both branches are nodes of the tree of a problem with one binary column. -/
theorem ofTree_branches {p : Problem Binary64} (hl : p.lower = #[0]) (hu : p.upper = #[1]) :
    Node.OfTree p upperBranch ∧ Node.OfTree p lowerBranch := by
  have hroot : Node.OfTree p (.root p #[0] 0) := .root _ _
  have hupper : (Node.root p #[0] 0).child ⟨0, .up, 1⟩ #[1] (-1) = .ok upperBranch := by
    unfold Node.root
    rw [hl, hu]
    rfl
  have hlower : (Node.root p #[0] 0).child ⟨0, .down, 0⟩ #[0] 0 = .ok lowerBranch := by
    unfold Node.root
    rw [hl, hu]
    rfl
  exact ⟨.child hroot hupper, .child hroot hlower⟩

theorem forgetsTree_iff_twoBranches : twoBranches.collection.IsFresh ∧
    (twoBranches.ForgetsTree oneCostly [.setNode upperBranch, .run] [.setNode lowerBranch, .run] ↔
      ∀ i c, twoBranches.core? i = some c → ∀ n, Node.OfTree oneCostly n → n.isRoot = false →
        (twoBranches.runs i [.setNode upperBranch, .run]).any
            (·.isNear c.settings.farThreshold n) =
          (twoBranches.runs i [.setNode lowerBranch, .run]).any
            (·.isNear c.settings.farThreshold n)) :=
  ⟨Collection.isFresh_oneSerendipity,
    forgetsTree_iff Collection.isFresh_oneSerendipity oneCostly _ _⟩

/-- A heuristic that ran at the upper branch is kept from the upper branch of another problem, and
one that ran at the lower branch is not. -/
theorem not_forgetsTree_twoBranches :
    Node.OfTree Collection.oneBinary upperBranch ∧ Node.OfTree Collection.oneBinary lowerBranch ∧
      twoBranches.collection.IsFresh ∧
      ¬ twoBranches.ForgetsTree oneCostly [.setNode upperBranch, .run]
        [.setNode lowerBranch, .run] := by
  have hbounds : Collection.oneBinary.lower = #[0] ∧ Collection.oneBinary.upper = #[1] := by
    decide +kernel
  obtain ⟨hupper, hlower⟩ := ofTree_branches hbounds.1 hbounds.2
  refine ⟨hupper, hlower, Collection.isFresh_oneSerendipity, fun h => ?_⟩
  have hkept : ((twoBranches.renewed [.setNode upperBranch, .run] oneCostly).core? 0).map
      (·.isClear upperBranch) = some false := by
    decide +kernel
  have hfree : ((twoBranches.renewed [.setNode lowerBranch, .run] oneCostly).core? 0).map
      (·.isClear upperBranch) = some true := by
    decide +kernel
  obtain ⟨c, hc, hclosed⟩ := Option.map_eq_some_iff.1 hkept
  obtain ⟨c', hc', hopen⟩ := Option.map_eq_some_iff.1 hfree
  have hcostly : oneCostly.lower = #[0] ∧ oneCostly.upper = #[1] := by decide +kernel
  have hbranch := (ofTree_branches hcostly.1 hcostly.2).1
  rw [h upperBranch hbranch 0 c c' hc hc', hopen] at hclosed
  contradiction

end Session

end PrimalHeuristics
