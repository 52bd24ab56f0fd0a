import PrimalHeuristics.Proofs.Binary64.Sums
import PrimalHeuristics.Proofs.Collection.Frame
import PrimalHeuristics.Proofs.Heuristic.Totality

/-!
# What a run of a heuristic promises

A run has rules for its caller: the heuristic is attached, vectors have one entry for each column,
and no table was made for another number of columns. All but the last are checked before anything
else.

A run ends with an error, with nothing, or with a solution that counts: it is feasible at the node,
its objective is the one that is reported, and it is better than the best one so far. Only then is
the buffer written, and what the heuristics share is never touched.

* `Counts`: a solution that counts;
* `improvement_eq_some`, `Attempt.settle_eq_some`: how a candidate becomes one;
* `Kind.counts_of_trial`: every kind answers with one, if it answers with a solution at all;
* `Heuristic.rules`, `Heuristic.complaint?`: the rules, and the first that is broken;
* `Heuristic.check_cases`: the check reports it, unless all is ready for the run;
* `Heuristic.seek_cases`: the ways in which a run ends;
* `Heuristic.seek_keepsContract`: what that means for floating-point numbers.
-/

namespace PrimalHeuristics

section Answers

variable {α : Type} [Scalar α] {p : Problem α} {b : Box α} {n : Node α} {best v : α} {x : Array α}

/-! ### Solutions that count -/

/-- A solution with its objective counts within a box: it is feasible, and its objective is below
the best, or at least not as large as the best. -/
structure Counts (p : Problem α) (b : Box α) (best v : α) (x : Array α) : Prop where
  isFeasible : p.isFeasible x b.lower b.upper = .ok true
  objective_eq : v = p.objectiveValue x
  isBetter : v < best ∨ ¬ best ≤ v

theorem improvement_eq_some : improvement p b best x = .ok (some v) ↔
    p.isFeasible x b.lower b.upper = .ok true ∧ ¬ best ≤ v ∧ v = p.objectiveValue x := by
  unfold improvement
  rw [Checked.bind_eq_ok]
  constructor
  · rintro ⟨feasible, hfeasible, h⟩
    cases feasible with
    | false => cases h
    | true =>
      by_cases hbest : best ≤ p.objectiveValue x
      · rw [if_pos rfl, if_pos hbest] at h
        cases h
      · rw [if_pos rfl, if_neg hbest] at h
        cases h
        exact ⟨hfeasible, hbest, rfl⟩
  · rintro ⟨hfeasible, hbest, rfl⟩
    exact ⟨true, hfeasible, by rw [if_pos rfl, if_neg hbest]; rfl⟩

/-- A candidate is the answer exactly if it counts as an improvement. -/
theorem Attempt.settle_eq_some {a : Attempt α} : a.settle p b best = .ok (some (v, x)) ↔
    a.candidate = .ok (some x) ∧ improvement p b best x = .ok (some v) := by
  unfold settle
  rw [Checked.bind_eq_ok]
  constructor
  · rintro ⟨candidate, hcandidate, h⟩
    cases candidate with
    | none => cases h
    | some y =>
      obtain ⟨o, ho, h⟩ := Checked.bind_eq_ok.1 h
      cases hy : improvement p b best y with
      | error f =>
        rw [hy] at ho
        cases ho
      | ok w =>
        rw [hy] at ho
        cases ho
        cases o with
        | none => cases h
        | some w =>
          cases h
          exact ⟨hcandidate, hy⟩
  · rintro ⟨hcandidate, himproved⟩
    refine ⟨some x, hcandidate, ?_⟩
    simp only [himproved]
    rfl

theorem Attempt.settle_eq_none {a : Attempt α} (h : a.candidate = .ok none) :
    a.settle p b best = .ok none := by
  unfold settle
  rw [h]
  rfl

/-- What is left of an attempt counts. -/
theorem Attempt.counts_of_settle {a : Attempt α} (h : a.settle p b best = .ok (some (v, x))) :
    Counts p b best v x := by
  obtain ⟨-, himproved⟩ := settle_eq_some.1 h
  obtain ⟨hfeasible, hbest, hobjective⟩ := improvement_eq_some.1 himproved
  exact ⟨hfeasible, hobjective, .inr hbest⟩

/-! ### The kinds -/

theorem Rounding.counts_of_trial {r : Rounding α} {c : Core α}
    (h : (r.trial c p n best).answer = .ok (some (v, x))) : Counts p n.box best v x := by
  unfold trial at h
  split at h
  · cases h
  · split at h
    · cases h
    · cases h
    · split at h
      · cases h
      · exact Attempt.counts_of_settle h

theorem PartialFix.counts_of_trial {f : PartialFix} {c : Core α}
    (h : (f.trial c p n best).answer = .ok (some (v, x))) : Counts p n.box best v x := by
  unfold trial at h
  split at h
  · split at h
    · cases h
    · cases h
    · exact Attempt.counts_of_settle h
  · cases h

/-- A solution that the relaxation came across is only picked up if it counts. -/
theorem Serendipity.counts_of_capture (h : capture p n best = .ok (some (v, x))) :
    Counts p n.box best v x := by
  unfold capture at h
  split at h
  · cases h
  · obtain ⟨feasible, hfeasible, h⟩ := Checked.bind_eq_ok.1 h
    cases feasible with
    | false => cases h
    | true =>
      rw [if_pos rfl] at h
      dsimp only at h
      split at h
      · rename_i hlt
        cases h
        exact ⟨hfeasible, rfl, .inl hlt⟩
      · cases h

theorem Serendipity.counts_of_trial {s : Serendipity α} {c : Core α}
    (h : (s.trial c p n best).answer = .ok (some (v, x))) : Counts p n.box best v x := by
  unfold trial at h
  split at h
  · cases h
  · rename_i found hfound
    cases h
    exact counts_of_capture hfound
  · exact Attempt.counts_of_settle h

/-- Every solution that a run answers with counts. -/
theorem Kind.counts_of_trial {k : Kind α} {c : Core α}
    (h : (k.trial c p n best).answer = .ok (some (v, x))) : Counts p n.box best v x := by
  cases k with
  | rounding r => exact Rounding.counts_of_trial h
  | partialFix f => exact PartialFix.counts_of_trial h
  | serendipity s => exact Serendipity.counts_of_trial h

/-! ### The rules for a run -/

/-- The number of columns for which a kind has a table, if it has one. -/
def Kind.tableSize? : Kind α → Option Nat
  | rounding r => r.locks.map (·.size)
  | partialFix f => some f.numCols
  | serendipity _ => none

namespace Heuristic

/-- The rules for a run, in order, and the errors by which they are reported. Tables are only read
if there are integer columns. -/
def rules (h : Heuristic α) (m : Model α) (buffer : Array α) : List (Bool × Error α) :=
  let k := m.problem.numCols
  [(h.core.attached, .noModel h.core.settings.name),
    (m.node.solution.size = k, .vectorLength .solution k m.node.solution.size),
    (m.node.box.lower.size = k, .vectorLength .lowerBounds k m.node.box.lower.size),
    (m.node.box.upper.size = k, .vectorLength .upperBounds k m.node.box.upper.size),
    (buffer.size = k, .solutionLength k buffer.size),
    (m.problem.numIntegers = 0 || h.kind.tableSize?.all (· = k),
      .staleModel (h.kind.tableSize?.getD k) k)]

/-- The first rule that is broken. -/
def complaint? (h : Heuristic α) (m : Model α) (buffer : Array α) : Option (Error α) :=
  ((h.rules m buffer).find? fun r => !r.1).map (·.2)

variable {h : Heuristic α} {m : Model α} {buffer : Array α}

/-- What holds once a run has gone past its checks. -/
structure IsReady (h : Heuristic α) (m : Model α) (buffer : Array α) : Prop where
  attached : h.core.attached = true
  node : m.node.HasSize m.problem.numCols
  buffer : buffer.size = m.problem.numCols

/-- A run goes past its checks exactly if all rules but the last are kept; otherwise the first that
is broken is reported. -/
theorem check_cases (h : Heuristic α) (m : Model α) (buffer : Array α) :
    (h.check m buffer = .ok () ∧ h.IsReady m buffer) ∨
      ∃ e, h.check m buffer = .error e ∧ h.complaint? m buffer = some e := by
  unfold complaint? rules check Core.check SubProblem.checkLengths SubProblem.checkLengths
    SubProblem.checkLengths SubProblem.checkLengths
  by_cases hattached : h.core.attached = true
  · by_cases hsolution : m.node.solution.size = m.problem.numCols
    · by_cases hlower : m.node.box.lower.size = m.problem.numCols
      · by_cases hupper : m.node.box.upper.size = m.problem.numCols
        · by_cases hbuffer : buffer.size = m.problem.numCols
          · exact .inl ⟨by simp [*], hattached, ⟨hsolution, hlower, hupper⟩, hbuffer⟩
          · exact .inr ⟨_, by simp [*]; rfl, by simp [*]⟩
        · exact .inr ⟨_, by simp [*]; rfl, by simp [*]⟩
      · exact .inr ⟨_, by simp [*]; rfl, by simp [*]⟩
    · exact .inr ⟨_, by simp [*]; rfl, by simp [*]⟩
  · exact .inr ⟨_, by simp [*]; rfl, by simp [*]⟩

theorem isReady_of_check (hcheck : h.check m buffer = .ok ()) : h.IsReady m buffer := by
  rcases h.check_cases m buffer with ⟨-, hready⟩ | ⟨e, herror, -⟩
  · exact hready
  · cases hcheck.symm.trans herror

/-- The last rule is all that is left to complain about. -/
theorem IsReady.complaint?_eq (hready : h.IsReady m buffer) : h.complaint? m buffer =
    if m.problem.numIntegers = 0 || h.kind.tableSize?.all (· = m.problem.numCols) then none
    else some (.staleModel (h.kind.tableSize?.getD m.problem.numCols) m.problem.numCols) := by
  obtain ⟨hattached, ⟨hsolution, hlower, hupper⟩, hbuffer⟩ := hready
  unfold complaint? rules
  simp only [List.find?_cons, hattached, hsolution, hlower, hupper, hbuffer]
  cases (m.problem.numIntegers = 0 || h.kind.tableSize?.all (· = m.problem.numCols) : Bool) <;> rfl

end Heuristic

/-! ### Runs at a node -/

/-- The outcome of a run with an answer. -/
def SeekOutcome.ofAnswer : Option (α × Array α) → SeekOutcome α
  | none => .nothing
  | some (objective, _) => .improved objective

theorem Heuristic.outcome_seek_of_error {h : Heuristic α} {m : Model α} {buffer : Array α}
    {e : Error α} (hcheck : h.check m buffer = .error e) (best : α) :
    (h.seek m best buffer).outcome = .error (.error e) := by
  unfold seek
  rw [hcheck]

/-- There is nothing to look for without integer columns. -/
theorem Heuristic.outcome_seek_of_numIntegers {h : Heuristic α} {m : Model α} {buffer : Array α}
    (hcheck : h.check m buffer = .ok ()) (hinteger : m.problem.numIntegers = 0) (best : α) :
    (h.seek m best buffer).outcome = .ok .nothing := by
  unfold seek
  rw [hcheck]
  exact congrArg Seek.outcome (if_pos hinteger)

/-- A run that goes past its checks, on a problem with integer columns, ends as the trial of its
kind does. -/
theorem Heuristic.outcome_seek {h : Heuristic α} {m : Model α} {buffer : Array α}
    (hcheck : h.check m buffer = .ok ()) (hinteger : m.problem.numIntegers ≠ 0) (best : α) :
    (h.seek m best buffer).outcome =
      (h.kind.trial h.core m.problem m.node best).answer.map .ofAnswer := by
  unfold seek
  rw [hcheck]
  dsimp only
  rw [if_neg hinteger]
  cases (h.kind.trial h.core m.problem m.node best).answer with
  | error e => rfl
  | ok o => cases o <;> rfl

/-- A solution that the trial answers with is written to the buffer. -/
theorem Heuristic.buffer_seek {h : Heuristic α} {m : Model α} {buffer : Array α}
    (hcheck : h.check m buffer = .ok ()) (hinteger : m.problem.numIntegers ≠ 0)
    (hanswer : (h.kind.trial h.core m.problem m.node best).answer = .ok (some (v, x))) :
    (h.seek m best buffer).buffer = x := by
  unfold seek
  rw [hcheck]
  dsimp only
  rw [if_neg hinteger, hanswer]

/-- A run ends with an error or with nothing, and then the buffer is as it was, or with a solution
that counts, which is then in the buffer. -/
theorem Heuristic.seek_cases (h : Heuristic α) (m : Model α) (best : α) (buffer : Array α) :
    ((∃ e, (h.seek m best buffer).outcome = .error e) ∧ (h.seek m best buffer).buffer = buffer) ∨
      ((h.seek m best buffer).outcome = .ok .nothing ∧ (h.seek m best buffer).buffer = buffer) ∨
      ∃ v, (h.seek m best buffer).outcome = .ok (.improved v) ∧
        Counts m.problem m.node.box best v (h.seek m best buffer).buffer := by
  unfold seek
  cases h.check m buffer with
  | error e => exact .inl ⟨⟨_, rfl⟩, rfl⟩
  | ok u =>
    dsimp only
    split
    · exact .inr (.inl ⟨rfl, rfl⟩)
    · cases hanswer : (h.kind.trial h.core m.problem m.node best).answer with
      | error e => exact .inl ⟨⟨e, rfl⟩, rfl⟩
      | ok o =>
        cases o with
        | none => exact .inr (.inl ⟨rfl, rfl⟩)
        | some found => exact .inr (.inr ⟨found.1, rfl, Kind.counts_of_trial hanswer⟩)

end Answers

/-! ### Floating-point objectives -/

theorem Counts.lt_best {p : Problem Binary64} {b : Box Binary64} {best v : Binary64}
    {x : Array Binary64} (h : Counts p b best v x) (hbest : best.isNaN = false)
    (hv : v.isNaN = false) : v < best := by
  rcases h.isBetter with hlt | hle
  · exact hlt
  · exact Binary64.lt_of_not_le hbest hv hle

/-- The promises of a run: the buffer is only written with a solution that is feasible at the node,
has the objective that is reported and, if that is a number, is strictly better than the best one so
far. Problem, node and incumbent stay as they are. -/
structure Seek.KeepsContract (s : Seek Binary64 (SeekOutcome Binary64)) (m : Model Binary64)
    (best : Binary64) (buffer : Array Binary64) : Prop where
  nothing : s.outcome = .ok .nothing → s.buffer = buffer
  error : ∀ e, s.outcome = .error e → s.buffer = buffer
  improved : ∀ v, s.outcome = .ok (.improved v) →
    m.problem.isFeasible s.buffer m.node.box.lower m.node.box.upper = .ok true ∧
      v = m.problem.objectiveValue s.buffer ∧ (v.isNaN = false → v < best)
  model : m.Agrees s.model

namespace Heuristic

/-- Every run keeps its promises, in whatever state the heuristic and the model are. -/
theorem seek_keepsContract (h : Heuristic Binary64) (m : Model Binary64) {best : Binary64}
    (hbest : best.isNaN = false) (buffer : Array Binary64) :
    (h.seek m best buffer).KeepsContract m best buffer := by
  have hmodel := h.agrees_seek m best buffer
  obtain ⟨⟨e, he⟩, hsame⟩ | ⟨hnothing, hsame⟩ | ⟨v, hv, hcounts⟩ := h.seek_cases m best buffer
  · refine ⟨fun _ => hsame, fun _ _ => hsame, fun w hw => ?_, hmodel⟩
    rw [he] at hw
    cases hw
  · refine ⟨fun _ => hsame, fun _ _ => hsame, fun w hw => ?_, hmodel⟩
    rw [hnothing] at hw
    cases hw
  · refine ⟨fun hw => ?_, fun e he => ?_, fun w hw => ?_, hmodel⟩
    · rw [hv] at hw
      cases hw
    · rw [hv] at he
      cases he
    · rw [hv] at hw
      cases hw
      exact ⟨hcounts.isFeasible, hcounts.objective_eq, hcounts.lt_best hbest⟩

/-- Two binary columns of cost minus one, of which only one may be chosen. -/
def oneOfTwo : Problem Binary64 where
  columns := #[⟨-1, 0, 1, true, 0⟩, ⟨-1, 0, 1, true, 0⟩]
  rowBounds := #[⟨-Scalar.infinity, 1⟩]
  matrix := .ofEntries 1 2 [⟨0, 0, 1⟩, ⟨0, 1, 1⟩]
  sosSets := []
  numCols_matrix := rfl
  numRows_matrix := by simp

/-- The root, where the relaxation chooses half of each column. -/
def halfOfEach : Model Binary64 where
  problem := oneOfTwo
  node := .root oneOfTwo #[Scalar.decimal 5 1, Scalar.decimal 5 1] (-1)
  incumbent := Model.noIncumbent
  messages := #[]

theorem seek_keepsContract_halfOfEach :
    Binary64.isNaN 0 = false ∧
      (seek (ofKind (.rounding .fresh)).attachOnly halfOfEach 0 #[0, 0]).outcome =
        .ok (.improved (-1)) ∧
      (seek (ofKind (.rounding .fresh)).attachOnly halfOfEach 0 #[0, 0]).KeepsContract
        halfOfEach 0 #[0, 0] :=
  ⟨rfl, by decide +kernel, seek_keepsContract _ _ rfl _⟩

end Heuristic

end PrimalHeuristics
