import PrimalHeuristics.Proofs.Heuristic.FixSet
import PrimalHeuristics.Proofs.Heuristic.NodeBounds

/-!
# The errors that a run reports

The rules for a run are checked in their order, and the first one that is broken is reported. No
other error is, and if the bounds of the node are in order, the run then ends with an outcome.

There is one exception. The fix set of another problem with as many columns may name a column that
is left no whole number, for it is a continuous one now; there the run stops.

* `Heuristic.ReportsRules`: the errors of a run are the complaints;
* `FixScene.isSound_afterAll`: fix sets have columns of the problem for which they were derived;
* `Heuristic.reportsRules_iff`: a run reports the rules exactly if it does not trip over its fix
  set;
* `Heuristic.not_reportsRules_swapped`: a run that trips.
-/

namespace PrimalHeuristics

section Tables

variable {α : Type} [Scalar α]

/-- A run reports the first rule that is broken, and has an outcome if none is. -/
def Heuristic.ReportsRules (h : Heuristic α) (m : Model α) (best : α) (buffer : Array α) : Prop :=
  match h.complaint? m buffer with
  | some e => (h.seek m best buffer).outcome = .error (.error e)
  | none => ∃ o, (h.seek m best buffer).outcome = .ok o

/-! ### Fix sets -/

/-- The fix set has columns of the problem for which it was derived only. -/
def PartialFix.IsSound (f : PartialFix) : Prop :=
  ∀ c ∈ f.fixSet, c < f.numCols

theorem PartialFix.HasFixSetOf.isSound {f : PartialFix} {p : Problem α} (h : f.HasFixSetOf p) :
    f.IsSound := by
  intro c hc
  rw [h.fixSet_eq] at hc
  rw [h.numCols_eq]
  exact (Problem.mem_integerColumns.1 (mem_fixSetOf hc)).1

/-- Columns of the fix set of a problem are left a whole number if all integer columns are. -/
theorem PartialFix.HasFixSetOf.not_slips {f : PartialFix} {p : Problem α} (h : f.HasFixSetOf p)
    {b : Box α} (hwhole : b.LeavesIntegers p) (x : Array α) : ¬ Slips b x f.fixSet := by
  refine not_slips_of_forall fun c hc => ?_
  rw [h.fixSet_eq] at hc
  exact hwhole c (mem_fixSetOf hc)

namespace FixScene

variable {s : FixScene α}

/-- No event makes a fix set unsound. -/
theorem isSound_after (hs : ∃ f, s.heuristic.kind = .partialFix f ∧ f.IsSound) (e : FixEvent α) :
    ∃ f, (s.after e).heuristic.kind = .partialFix f ∧ f.IsSound := by
  obtain ⟨f, hkind, hf⟩ := hs
  cases e with
  | setPriority priority =>
    show ∃ f, (s.setPriority priority).heuristic.kind = .partialFix f ∧ f.IsSound
    unfold FixScene.setPriority
    cases hk : s.heuristic.setFixPriority s.model priority with
    | error _ => exact ⟨f, hkind, hf⟩
    | ok k =>
      dsimp only
      rw [Heuristic.setFixPriority_eq_ok hkind hk]
      cases s.heuristic.core.attached with
      | true => exact ⟨_, rfl, (PartialFix.hasFixSetOf_derive _ s.model.problem).isSound⟩
      | false => exact ⟨_, rfl, hf⟩
  | other e =>
    by_cases he : ∃ m, e = .attach m
    · obtain ⟨m, rfl⟩ := he
      refine ⟨f.derive m.problem, ?_, (f.hasFixSetOf_derive m.problem).isSound⟩
      show s.heuristic.kind.reset m.problem = _
      rw [hkind]
      rfl
    · exact ⟨f, (Scene.kept_after hkind fun m h => he ⟨m, h⟩).1, hf⟩

/-- Throughout a history the fix set has columns of the problem for which it was derived only. -/
theorem isSound_afterAll (hs : ∃ f, s.heuristic.kind = .partialFix f ∧ f.IsSound)
    (es : List (FixEvent α)) :
    ∃ f, (s.afterAll es).heuristic.kind = .partialFix f ∧ f.IsSound := by
  induction es generalizing s with
  | nil => exact hs
  | cons e es ih => exact ih (isSound_after hs e)

end FixScene

/-! ### Tables -/

namespace Kind

variable {p : Problem α}

/-- A table of another number of columns is reported. -/
theorem answer_trial_of_stale {k : Kind α} {size : Nat} (hsize : k.tableSize? = some size)
    (hne : size ≠ p.numCols) (c : Core α) (n : Node α) (best : α) :
    (k.trial c p n best).answer = .error (.error (.staleModel size p.numCols)) := by
  cases k with
  | rounding r =>
    obtain ⟨t, ht, rfl⟩ := Option.map_eq_some_iff.1 hsize
    have hlocks : r.ensureLocks p = .error (.staleModel t.size p.numCols) := by
      unfold Rounding.ensureLocks
      rw [ht]
      exact if_neg hne
    show (r.trial c p n best).answer = _
    unfold Rounding.trial
    rw [hlocks]
  | partialFix f =>
    obtain rfl : f.numCols = size := Option.some.inj hsize
    show (f.trial c p n best).answer = _
    unfold PartialFix.trial
    rw [if_neg hne]
  | serendipity s => cases hsize

theorem exists_ensureLocks_eq {r : Rounding α}
    (h : (rounding r).tableSize?.all (· = p.numCols) = true) : ∃ s, r.ensureLocks p = .ok s := by
  unfold Rounding.ensureLocks
  cases hlocks : r.locks with
  | none => exact ⟨_, rfl⟩
  | some t =>
    have hsize : t.size = p.numCols := by simpa [tableSize?, hlocks] using h
    exact ⟨r, if_pos hsize⟩

/-- What a kind asks of bounds that leave all integer columns a whole number. -/
def Fits (k : Kind α) (p : Problem α) (n : Node α) : Prop :=
  match k with
  | rounding _ => n.box.IsOrdered p.numCols
  | partialFix f => f.Fits p n
  | serendipity _ => True

/-- Bounds in order fit, unless fixing slips. -/
theorem fits_iff_of_isOrdered {k : Kind α} {n : Node α} (h : n.box.IsOrdered p.numCols) :
    k.Fits p n ↔
      ∀ f, k = .partialFix f → ¬ PartialFix.Slips n.box (PartialFix.source p n) f.fixSet := by
  cases k with
  | rounding r => exact iff_of_true h nofun
  | partialFix f => simp [Fits, PartialFix.Fits, h]
  | serendipity s => exact iff_of_true trivial nofun

end Kind

end Tables

/-! ### Runs within bounds -/

/-- Where both bounds of a column are given, they are numbers in order. -/
def Box.NeverCrosses (b : Box Binary64) : Prop :=
  ∀ c < Nat.min b.lower.size b.upper.size, b.lower.getD c 0 ≤ b.upper.getD c 0

instance (b : Box Binary64) : Decidable b.NeverCrosses :=
  inferInstanceAs (Decidable (∀ c < Nat.min b.lower.size b.upper.size, _))

theorem Box.NeverCrosses.isOrdered {b : Box Binary64} (h : b.NeverCrosses) {k : Nat}
    (hb : b.HasSize k) : b.IsOrdered k := by
  intro c hc
  exact h c (Nat.lt_min.2 ⟨hb.1 ▸ hc, hb.2 ▸ hc⟩)

/-- With a table for the problem, if there is any, a run has an answer exactly if the bounds of the
node fit: they are in order unless the run is one of serendipity, and fixing does not slip. -/
theorem Kind.exists_answer_iff {k : Kind Binary64} {p : Problem Binary64} {n : Node Binary64}
    (htable : k.tableSize?.all (· = p.numCols) = true)
    (hsound : ∀ f, k = .partialFix f → f.IsSound) (hn : n.HasSize p.numCols)
    (hb : n.box.IsNumeric p.numCols) (c : Core Binary64) (best : Binary64) :
    (∃ o, (k.trial c p n best).answer = .ok o) ↔ (n.box.LeavesIntegers p → k.Fits p n) := by
  cases k with
  | rounding r =>
    obtain ⟨s, hs⟩ := exists_ensureLocks_eq htable
    exact (Rounding.decides_trial hs hn hb c best).exists_answer_iff
  | partialFix f =>
    have hcols : f.numCols = p.numCols := by simpa [tableSize?] using htable
    exact (PartialFix.decides_trial hcols (hcols ▸ hsound f rfl) hn hb c best).exists_answer_iff
  | serendipity s =>
    exact iff_of_true (s.exists_answer_trial hn c best) fun _ => trivial

namespace Heuristic

/-- No rule is broken, but the fix set is that of another problem with as many columns, and fixing
comes to a column that is left no whole number. -/
def TripsOverFixSet (h : Heuristic Binary64) (m : Model Binary64) (buffer : Array Binary64) :
    Prop :=
  h.complaint? m buffer = none ∧ m.problem.numIntegers ≠ 0 ∧ m.node.box.LeavesIntegers m.problem ∧
    ∃ f, h.kind = .partialFix f ∧
      PartialFix.Slips m.node.box (PartialFix.source m.problem m.node) f.fixSet

variable {h : Heuristic Binary64} {m : Model Binary64} {buffer : Array Binary64}

/-- At a node whose bounds are in order, a run reports the first rule that is broken and has an
outcome if none is, exactly if it does not trip over its fix set. -/
theorem reportsRules_iff (hsound : ∀ f, h.kind = .partialFix f → f.IsSound)
    (hbox : m.node.box.NeverCrosses) (best : Binary64) (buffer : Array Binary64) :
    h.ReportsRules m best buffer ↔ ¬ h.TripsOverFixSet m buffer := by
  unfold ReportsRules TripsOverFixSet
  rcases h.check_cases m buffer with ⟨hcheck, hready⟩ | ⟨e, hcheck, hcomplaint⟩
  · rw [hready.complaint?_eq]
    by_cases hinteger : m.problem.numIntegers = 0
    · refine iff_of_true ?_ fun ht => ht.2.1 hinteger
      simp only [hinteger, decide_true, Bool.true_or, if_true]
      exact ⟨.nothing, outcome_seek_of_numIntegers hcheck hinteger best⟩
    · rw [outcome_seek hcheck hinteger, decide_eq_false hinteger, Bool.false_or]
      by_cases htable : h.kind.tableSize?.all (· = m.problem.numCols) = true
      · rw [if_pos htable]
        have hordered := hbox.isOrdered hready.node.box
        have hanswer := h.kind.exists_answer_iff htable hsound hready.node
          (hordered.isNumeric hready.node.box) h.core best
        rw [Kind.fits_iff_of_isOrdered hordered] at hanswer
        dsimp only
        rw [Checked.exists_map_eq_ok, hanswer]
        simp [hinteger]
      · rw [if_neg htable]
        obtain ⟨size, hsize, hne⟩ : ∃ size, h.kind.tableSize? = some size ∧
            size ≠ m.problem.numCols := by
          cases hsize : h.kind.tableSize? with
          | none => simp [hsize] at htable
          | some size => exact ⟨size, rfl, by simpa [hsize] using htable⟩
        refine iff_of_true ?_ fun ht => by cases ht.1
        rw [Kind.answer_trial_of_stale hsize hne, hsize]
        rfl
  · rw [hcomplaint]
    refine iff_of_true (outcome_seek_of_error hcheck best) fun ht => by cases ht.1

/-- The fix set of the problem at hand is never tripped over. -/
theorem not_tripsOverFixSet
    (hfix : ∀ f, h.kind = .partialFix f → f.HasFixSetOf m.problem) (buffer : Array Binary64) :
    ¬ h.TripsOverFixSet m buffer := by
  rintro ⟨-, -, hwhole, f, hkind, hslips⟩
  exact (hfix f hkind).not_slips hwhole _ hslips

theorem ordered_noRows : ∀ l ∈ (#[] : Array (Line Binary64)), l.Ordered 2 := by
  simp

theorem noZeros_noRows : ∀ l ∈ (#[] : Array (Line Binary64)), l.NoZeros := by
  simp

/-- Two binary columns of cost minus one, which are to be fixed. -/
def twoBinaries : Problem Binary64 where
  columns := #[⟨-1, 0, 1, true, 0⟩, ⟨-1, 0, 1, true, 0⟩]
  rowBounds := #[]
  matrix := .ofRows 2 #[] ordered_noRows noZeros_noRows
  sosSets := []
  numCols_matrix := rfl
  numRows_matrix := rfl

theorem numCols_twoBinaries : twoBinaries.matrix.numCols = 2 :=
  rfl

/-- The first one becomes continuous, between a quarter and three quarters. -/
def oneOfEach : Problem Binary64 :=
  { twoBinaries with
    columns := #[⟨-1, Scalar.decimal 25 2, Scalar.decimal 75 2, false, 1000⟩, ⟨-1, 0, 1, true, 0⟩]
    numCols_matrix := numCols_twoBinaries }

/-- A search for two binary columns. -/
def binarySearch : Model Binary64 where
  problem := twoBinaries
  node := .root twoBinaries #[0, 0] 0
  incumbent := Model.noIncumbent
  messages := #[]

/-- A new heuristic is attached, and then the problem is replaced by another one of its size. -/
def swapped : FixScene Binary64 :=
  (FixScene.start FixScene.untold binarySearch).afterAll
    [.other (.attach binarySearch), .other (.replaceProblem oneOfEach)]

theorem kind_swapped : swapped.heuristic.kind = .partialFix ⟨10000, [0, 1], 2⟩ := by
  rfl

theorem reportsRules_iff_swapped :
    (∀ f, swapped.heuristic.kind = .partialFix f → f.IsSound) ∧
      swapped.model.node.box.NeverCrosses ∧
      (swapped.heuristic.ReportsRules swapped.model Scalar.infinity #[0, 0] ↔
        ¬ swapped.heuristic.TripsOverFixSet swapped.model #[0, 0]) := by
  have hsound : ∀ f, swapped.heuristic.kind = .partialFix f → f.IsSound := by
    intro f hf
    cases kind_swapped.symm.trans hf
    unfold PartialFix.IsSound
    decide
  have hbox : swapped.model.node.box.NeverCrosses := by decide +kernel
  exact ⟨hsound, hbox, reportsRules_iff hsound hbox _ _⟩

/-- All rules are kept and all bounds are in order, and still the run stops. -/
theorem not_reportsRules_swapped : swapped.model.node.box.NeverCrosses ∧
    swapped.heuristic.complaint? swapped.model #[0, 0] = none ∧
    ¬ swapped.heuristic.ReportsRules swapped.model Scalar.infinity #[0, 0] := by
  have hcomplaint : swapped.heuristic.complaint? swapped.model #[0, 0] = none := by
    decide +kernel
  have hstop : (swapped.heuristic.seek swapped.model Scalar.infinity #[0, 0]).outcome =
      .error (.fault .emptyInterval) := by
    decide +kernel
  refine ⟨by decide +kernel, hcomplaint, fun h => ?_⟩
  unfold ReportsRules at h
  rw [hcomplaint] at h
  obtain ⟨o, ho⟩ := h
  rw [hstop] at ho
  cases ho

end Heuristic

end PrimalHeuristics
