import PrimalHeuristics.Proofs.Heuristic.FixSet
import PrimalHeuristics.Proofs.Heuristic.RoundedPoint

/-!
# The phases of rounding

A rounding heuristic is idle as long as it has no table of locks. From its first run on, until it is
attached again, its phase says how the last run ended. The phases in between are only left behind by
a run that stops because it broke a rule. Errors are reported before anything is changed: once a run
has gone past its table, its vectors are as long as they are read, and a sub-problem is left integer
columns only, whatever the bounds of the node are.

* `Repair.size_moveColumn`, `size_of_repair`: a repair keeps the length of a point;
* `Rounding.Ends`: how a run ends, and what it leaves, and `Rounding.ends_trial`;
* `Scene.kind_after`: which events reach the own part of a heuristic;
* `Rounding.IsSettled`: the phases between runs, and `Scene.isSettled_after`;
* `Scene.phases_afterAll`: what holds after any history.
-/

namespace PrimalHeuristics

variable {α : Type} [Scalar α]

/-! ### Lengths -/

/-- What every step that goes on keeps, a traversal that goes on keeps. -/
theorem Checked.keeps_of_foldlM {β γ : Type} {P : γ → Prop} {l : List β} {f : γ → β → Checked γ}
    (h : ∀ s, P s → ∀ b ∈ l, ∀ t, f s b = .ok t → P t) {s t : γ} (hs : P s)
    (ht : l.foldlM f s = .ok t) : P t := by
  induction l generalizing s with
  | nil =>
    cases ht
    exact hs
  | cons b l ih =>
    rw [List.foldlM_cons] at ht
    obtain ⟨u, hu, ht⟩ := Checked.bind_eq_ok.1 ht
    exact ih (fun s hs b hb => h s hs b (by simp [hb])) (h s hs b (by simp) u hu) ht

namespace Repair

variable {p : Problem α} {b : Box α} {integers : Bool} {t u : Repair α}

theorem size_moveColumn {r : Nat} {e : Nat × α} (h : moveColumn p b integers r t e = .ok u) :
    u.point.size = t.point.size := by
  unfold moveColumn at h
  split at h
  · cases h
    rfl
  · split at h
    · cases h
      rfl
    · obtain ⟨l, -, h⟩ := Checked.bind_eq_ok.1 h
      obtain ⟨v, -, h⟩ := Checked.bind_eq_ok.1 h
      dsimp only at h
      split at h
      · cases h
        rfl
      · obtain ⟨x, -, h⟩ := Checked.bind_eq_ok.1 h
        obtain ⟨y, -, h⟩ := Checked.bind_eq_ok.1 h
        split at h
        · cases h
          rfl
        · split at h
          · cases h
            simp [shift]
          · cases h
            rfl

theorem size_sweeps {k : Nat} (h : sweeps p b integers k t = .ok u) :
    u.point.size = t.point.size := by
  induction k generalizing t with
  | zero =>
    cases h
    rfl
  | succ k ih =>
    unfold sweeps at h
    split at h
    · cases h
      rfl
    · split at h
      · cases h
      · rename_i v hsweep
        have hsize : v.point.size = t.point.size :=
          Checked.keeps_of_foldlM (P := fun v => v.point.size = t.point.size)
            (fun _ hv r _ _ hrow => Checked.keeps_of_foldlM
              (P := fun v => v.point.size = t.point.size)
              (fun _ hv _ _ _ hmove => (size_moveColumn hmove).trans hv) hv hrow) rfl hsweep
        split at h
        · exact (ih h).trans hsize
        · cases h
          exact hsize

end Repair

/-- A repair keeps the length of a point, whatever the bounds are. -/
theorem size_of_repair {p : Problem α} {b : Box α} {x y : Array α} {rows : List Nat}
    (h : repair p b x = .ok (y, rows)) : y.size = x.size := by
  obtain ⟨_, -, h⟩ := Checked.bind_eq_ok.1 h
  obtain ⟨t, ht, h⟩ := Checked.bind_eq_ok.1 h
  obtain ⟨u, hu, h⟩ := Checked.bind_eq_ok.1 h
  cases h
  exact (Repair.size_sweeps hu).trans (Repair.size_sweeps ht)

/-! ### Runs -/

namespace Rounding

variable {p : Problem α} {n : Node α} {x : Array α} {r t : Rounding α}

/-- A run from a rounded point ends with an answer, or stops. It reports no error. -/
theorem answer_cases (hn : n.HasSize p.numCols) (hx : x.size = p.numCols) (s : Settings α)
    (best : α) : (∃ o, (attempt s p n.box best x).settle p n.box best = .ok o) ∨
      ∃ f, (attempt s p n.box best x).settle p n.box best = .error (.fault f) := by
  have hok (h : ∃ o, (attempt s p n.box best x).candidate = .ok o) :=
    Attempt.exists_settle_eq h hn.box best
  cases hrepair : repair p n.box x with
  | error f =>
    right
    refine ⟨f, ?_⟩
    unfold attempt
    rw [hrepair]
    rfl
  | ok found =>
    left
    obtain ⟨y, rows⟩ := found
    have hy := (size_of_repair hrepair).trans hx
    refine hok ?_
    unfold attempt
    rw [hrepair]
    cases rows with
    | nil => exact ⟨some y, rfl⟩
    | cons r rows =>
      exact Attempt.exists_complete_eq s hy (freesIntegers_freeFlags _ p (r :: rows)) hn.box _ _ _

/-- The heuristic is idle if and only if it has no table. -/
def IsLinked (r : Rounding α) : Prop :=
  r.phase = .idle ↔ r.locks = none

/-- The heuristic has a table, and is not idle. -/
structure IsActive (r : Rounding α) : Prop where
  locks_ne : r.locks ≠ none
  phase_ne : r.phase ≠ .idle

omit [Scalar α] in
theorem IsActive.isLinked (h : r.IsActive) : r.IsLinked :=
  iff_of_false h.phase_ne h.locks_ne

/-- How a run ends, and what it leaves of the heuristic. -/
inductive Ends (r : Rounding α) : Except (Failure α) (Option (α × Array α)) → Rounding α → Prop
  | refused (e : Error α) : Ends r (.error (.error e)) r
  | stopped (f : Fault) {t : Rounding α} (ht : t.IsActive) : Ends r (.error (.fault f)) t
  | abandoned {t : Rounding α} (ht : t.IsActive) (hphase : t.phase = .abandoned) :
    Ends r (.ok none) t
  | repaired {found : α × Array α} {t : Rounding α} (ht : t.IsActive)
    (hphase : t.phase = .repaired) : Ends r (.ok (some found)) t

theorem isActive_of_ensureLocks (hr : r.IsLinked) (h : r.ensureLocks p = .ok t) : t.IsActive := by
  unfold ensureLocks at h
  cases hlocks : r.locks with
  | none =>
    rw [hlocks] at h
    cases h
    exact ⟨nofun, nofun⟩
  | some table =>
    rw [hlocks] at h
    dsimp only at h
    split at h
    · cases h
      have hne : r.locks ≠ none := by simp [hlocks]
      exact ⟨hne, fun hidle => hne (hr.1 hidle)⟩
    · cases h

omit [Scalar α] in
/-- After a run with a result the phase says what it is. -/
theorem ends_conclude (ht : t.IsActive) {answer : Except (Failure α) (Option (α × Array α))}
    (h : (∃ o, answer = .ok o) ∨ ∃ f, answer = .error (.fault f)) :
    r.Ends answer (t.conclude answer) := by
  obtain ⟨o, rfl⟩ | ⟨f, rfl⟩ := h
  · cases o with
    | none => exact .abandoned ⟨ht.locks_ne, nofun⟩ rfl
    | some found => exact .repaired ⟨ht.locks_ne, nofun⟩ rfl
  · exact .stopped f ⟨ht.locks_ne, nofun⟩

theorem ends_trial (hr : r.IsLinked) (hn : n.HasSize p.numCols) (c : Core α) (best : α) :
    r.Ends (r.trial c p n best).answer (r.trial c p n best).own := by
  unfold trial
  cases hlocks : r.ensureLocks p with
  | error e => exact .refused e
  | ok t =>
    have ht := isActive_of_ensureLocks hr hlocks
    dsimp only
    split
    · exact .stopped _ ht
    · exact ends_conclude ht (.inl ⟨none, rfl⟩)
    · split
      · exact .stopped _ ht
      · rename_i x hpoint
        exact ends_conclude ht (answer_cases hn (point_spec hn hpoint).1 _ _)

end Rounding

/-- The phase in which a run with an outcome leaves a rounding heuristic. -/
def SeekOutcome.phase : SeekOutcome α → RoundingPhase
  | .nothing => .abandoned
  | .improved _ => .repaired

/-- The run stops, because it breaks a rule. -/
def Seek.Stops {ω : Type} (s : Seek α ω) : Prop :=
  ∃ f, s.outcome = .error (.fault f)

/-- A run with an error, or without integer columns, leaves a rounding heuristic as it is. Any other
one leaves it a table, and the phase of its outcome unless it stops. -/
theorem Heuristic.seek_phases {h : Heuristic α} {r : Rounding α} (hkind : h.kind = .rounding r)
    (hr : r.IsLinked) (m : Model α) (best : α) (buffer : Array α) :
    (((∃ e, (h.seek m best buffer).outcome = .error (.error e)) ∨ m.problem.numIntegers = 0) ∧
      (h.seek m best buffer).heuristic.kind = .rounding r) ∨
    (m.problem.numIntegers ≠ 0 ∧ ∃ t, (h.seek m best buffer).heuristic.kind = .rounding t ∧
      t.IsActive ∧ ((h.seek m best buffer).Stops ∨
        ∃ o, (h.seek m best buffer).outcome = .ok o ∧ t.phase = o.phase)) := by
  unfold seek Seek.Stops
  rcases h.check_cases m buffer with ⟨hcheck, hready⟩ | ⟨e, hcheck, -⟩
  · rw [hcheck]
    by_cases hinteger : m.problem.numIntegers = 0
    · dsimp only
      rw [if_pos hinteger]
      exact .inl ⟨.inr hinteger, hkind⟩
    · have hends := Rounding.ends_trial hr hready.node h.core best
      have htrial : h.kind.trial h.core m.problem m.node best =
          (Kind.rounding r).trial h.core m.problem m.node best := by rw [hkind]
      rw [htrial]
      dsimp only [Kind.trial]
      rw [if_neg hinteger]
      generalize r.trial h.core m.problem m.node best = t at hends
      obtain ⟨answer, core, own, messages⟩ := t
      dsimp only at hends ⊢
      cases hends with
      | refused e => exact .inl ⟨.inl ⟨e, rfl⟩, rfl⟩
      | stopped f ht => exact .inr ⟨hinteger, _, rfl, ht, .inl ⟨f, rfl⟩⟩
      | abandoned ht hphase => exact .inr ⟨hinteger, _, rfl, ht, .inr ⟨_, rfl, hphase⟩⟩
      | repaired ht hphase => exact .inr ⟨hinteger, _, rfl, ht, .inr ⟨_, rfl, hphase⟩⟩
  · rw [hcheck]
    exact .inl ⟨.inl ⟨e, rfl⟩, hkind⟩

/-! ### Histories -/

namespace Scene

variable {s : Scene α} {r : Rounding α}

/-- The own part of a heuristic after an event. -/
theorem kind_after (s : Scene α) (e : Event α) : (s.after e).heuristic.kind =
    match e with
    | .seek best buffer => (s.heuristic.seek s.model best buffer).heuristic.kind
    | .setWeights w => (s.heuristic.setWeights w).kind
    | .attach m => s.heuristic.kind.reset m.problem
    | _ => s.heuristic.kind := by
  cases e <;> rfl

/-- The scene after events. -/
def afterAll (s : Scene α) (es : List (Event α)) : Scene α :=
  es.foldl after s

/-- The event is no run that stops. -/
def Returns (s : Scene α) : Event α → Prop
  | .seek best buffer => ¬ (s.heuristic.seek s.model best buffer).Stops
  | _ => True

/-- No event of a history is a run that stops. -/
def AllReturn (s : Scene α) : List (Event α) → Prop
  | [] => True
  | e :: es => s.Returns e ∧ (s.after e).AllReturn es

end Scene

/-- The heuristic is not in the middle of a run. -/
structure Rounding.IsAtRest (r : Rounding α) : Prop where
  ne_locksComputed : r.phase ≠ .locksComputed
  ne_solutionAttempted : r.phase ≠ .solutionAttempted

omit [Scalar α] in
theorem SeekOutcome.isAtRest {t : Rounding α} {o : SeekOutcome α} (h : t.phase = o.phase) :
    t.IsAtRest := by
  cases o <;> exact ⟨by rw [h]; nofun, by rw [h]; nofun⟩

namespace Scene

variable {s : Scene α} {r : Rounding α}

/-- What an event leaves of a rounding heuristic. -/
theorem exists_rounding_after (hkind : s.heuristic.kind = .rounding r) (hr : r.IsLinked)
    (e : Event α) : ∃ t, (s.after e).heuristic.kind = .rounding t ∧ t.IsLinked ∧
      (s.Returns e → r.IsAtRest → t.IsAtRest) := by
  rw [kind_after]
  cases e with
  | seek best buffer =>
    rcases Heuristic.seek_phases hkind hr s.model best buffer with
      ⟨-, hsame⟩ | ⟨-, t, ht, hactive, hend⟩
    · exact ⟨r, hsame, hr, fun _ hrest => hrest⟩
    · refine ⟨t, ht, hactive.isLinked, fun hreturns _ => ?_⟩
      obtain ⟨o, -, hphase⟩ := hend.resolve_left hreturns
      exact SeekOutcome.isAtRest hphase
  | setWeights w =>
    refine ⟨{ r with weights := w }, ?_, hr, fun _ hrest => ⟨hrest.1, hrest.2⟩⟩
    unfold Heuristic.setWeights
    simp only [hkind]
  | attach m =>
    refine ⟨r.reset, ?_, iff_of_true rfl rfl, fun _ _ => ⟨nofun, nofun⟩⟩
    show s.heuristic.kind.reset m.problem = _
    rw [hkind]
    rfl
  | shouldRun | recordRun | set | draw | validate | setNode | propose | replaceProblem =>
    exact ⟨r, hkind, hr, fun _ hrest => hrest⟩

theorem exists_rounding_afterAll (hkind : s.heuristic.kind = .rounding r) (hr : r.IsLinked)
    (es : List (Event α)) : ∃ t, (s.afterAll es).heuristic.kind = .rounding t ∧ t.IsLinked ∧
      (s.AllReturn es → r.IsAtRest → t.IsAtRest) := by
  induction es generalizing s r with
  | nil => exact ⟨r, hkind, hr, fun _ hrest => hrest⟩
  | cons e es ih =>
    obtain ⟨t, ht, hlinked, hrest⟩ := exists_rounding_after hkind hr e
    obtain ⟨u, hu, hlinked', hrest'⟩ := ih ht hlinked
    exact ⟨u, hu, hlinked', fun hall hr => hrest' hall.2 (hrest hall.1 hr)⟩

/-- What the next run does to the phase: an error, or a problem without integer columns, leaves it as
it is, with the table; and with integer columns an outcome determines it. -/
structure NextRun (s : Scene α) (r : Rounding α) (best : α) (buffer : Array α) : Prop where
  unchanged : ((∃ e, (s.heuristic.seek s.model best buffer).outcome = .error (.error e)) ∨
    s.model.problem.numIntegers = 0) →
      (s.heuristic.seek s.model best buffer).heuristic.kind = .rounding r
  determined : ∀ o, (s.heuristic.seek s.model best buffer).outcome = .ok o →
    s.model.problem.numIntegers ≠ 0 →
      ∃ t, (s.heuristic.seek s.model best buffer).heuristic.kind = .rounding t ∧ t.phase = o.phase

theorem nextRun (hkind : s.heuristic.kind = .rounding r) (hr : r.IsLinked) (best : α)
    (buffer : Array α) : s.NextRun r best buffer := by
  rcases Heuristic.seek_phases hkind hr s.model best buffer with
    ⟨hcause, hsame⟩ | ⟨hinteger, t, ht, -, hend⟩
  · refine ⟨fun _ => hsame, fun o ho hinteger => ?_⟩
    obtain ⟨e, he⟩ := hcause.resolve_right hinteger
    cases ho.symm.trans he
  · refine ⟨fun hcause => ?_, fun o ho _ => ⟨t, ht, ?_⟩⟩
    · obtain ⟨e, he⟩ := hcause.resolve_right hinteger
      rcases hend with ⟨f, hf⟩ | ⟨o, ho, -⟩
      · cases he.symm.trans hf
      · cases he.symm.trans ho
    · rcases hend with ⟨f, hf⟩ | ⟨o', ho', hphase⟩
      · cases ho.symm.trans hf
      · cases ho.symm.trans ho'
        exact hphase

/-- After any history of a new rounding heuristic, it is idle if and only if it has no table, and the
next run does what it should to the phase. If no run stopped, it is not in the middle of one. -/
theorem phases_afterAll {h : Heuristic α} (hkind : h.kind = .rounding .fresh) (m : Model α)
    (es : List (Event α)) :
    ∃ r, (afterAll ⟨h, m, false⟩ es).heuristic.kind = .rounding r ∧
      (r.phase = .idle ↔ r.locks = none) ∧ (AllReturn ⟨h, m, false⟩ es → r.IsAtRest) ∧
      ∀ best buffer, (afterAll ⟨h, m, false⟩ es).NextRun r best buffer := by
  have hfresh : (Rounding.fresh : Rounding α).IsLinked := iff_of_true rfl rfl
  obtain ⟨r, hr, hlinked, hrest⟩ :=
    exists_rounding_afterAll (s := ⟨h, m, false⟩) hkind hfresh es
  exact ⟨r, hr, hlinked, fun hall => hrest hall ⟨nofun, nofun⟩,
    fun best buffer => nextRun hr hlinked best buffer⟩

/-- After a run the problem is replaced by one with another column, which the heuristic is not told. -/
def unreported : List (Event Binary64) :=
  [.attach Heuristic.halfOfEach, .seek 0 #[0, 0], .replaceProblem twoOfThree,
    .setNode (.root twoOfThree (.replicate 3 (Scalar.decimal 5 1)) (-1))]

/-- The next run reports the table, and leaves it with the phase. -/
theorem phases_afterAll_unreported :
    (Heuristic.ofKind (.rounding .fresh) : Heuristic Binary64).kind = .rounding .fresh ∧
      unused.AllReturn unreported ∧
      ((unused.afterAll unreported).heuristic.seek (unused.afterAll unreported).model 0 #[0, 0, 0]).outcome =
        .error (.error (.staleModel 2 3)) ∧
      ∃ r, (unused.afterAll unreported).heuristic.kind = .rounding r ∧
        (r.phase = .idle ↔ r.locks = none) ∧ r.IsAtRest ∧
        ((unused.afterAll unreported).heuristic.seek (unused.afterAll unreported).model 0
          #[0, 0, 0]).heuristic.kind = .rounding r := by
  have hreturn : unused.AllReturn unreported := by
    refine ⟨trivial, ?_, trivial, trivial, trivial⟩
    rintro ⟨f, hf⟩
    have hok : ((unused.after (.attach Heuristic.halfOfEach)).heuristic.seek
        (unused.after (.attach Heuristic.halfOfEach)).model 0 #[0, 0]).outcome =
          .ok (.improved (-1)) := by
      decide +kernel
    cases hok.symm.trans hf
  have hstale : ((unused.afterAll unreported).heuristic.seek (unused.afterAll unreported).model 0
      #[0, 0, 0]).outcome = .error (.error (.staleModel 2 3)) := by
    decide +kernel
  obtain ⟨r, hr, hlinked, hrest, hnext⟩ :=
    phases_afterAll (h := .ofKind (.rounding .fresh)) rfl Heuristic.halfOfEach unreported
  exact ⟨rfl, hreturn, hstale, r, hr, hlinked, hrest hreturn,
    (hnext 0 #[0, 0, 0]).unchanged (.inl ⟨_, hstale⟩)⟩

end Scene

end PrimalHeuristics
