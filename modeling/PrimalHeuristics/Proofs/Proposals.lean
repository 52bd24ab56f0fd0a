import PrimalHeuristics.Proofs.Collection.CutPhase
import PrimalHeuristics.Proofs.Heuristic.Contract
import PrimalHeuristics.Proofs.Tree

/-!
# Proposals

Whoever finds a solution proposes it to the model with an objective, and the model compares that
objective with the one of its incumbent. It turns down what is not better, and a value that is not a
number is neither better nor worse than anything.

* `Problem.Admits`: what the model asks of a solution;
* `Model.propose_eq`: the answer to one proposal;
* `Model.proposeAll`: proposals one after another;
* `Model.ImprovesStrictly`: each incumbent is strictly better than the one before;
* `Model.improvesStrictly_iff`: that is so as long as numbers are compared.
-/

namespace PrimalHeuristics

variable {α : Type} [Scalar α]

/-! ### One proposal -/

/-- The vector has the right length and is feasible within the bounds of the problem. -/
def Problem.Admits (p : Problem α) (x : Array α) : Prop :=
  x.size = p.numCols ∧ p.IsFeasible x ⟨p.lower, p.upper⟩

instance (p : Problem α) (x : Array α) : Decidable (p.Admits x) :=
  inferInstanceAs (Decidable (_ ∧ _))

theorem Problem.isFeasible_eq_admits (p : Problem α) (x : Array α) :
    p.isFeasible x p.lower p.upper = .ok (decide (p.Admits x)) := by
  unfold Problem.Admits
  by_cases hx : x.size = p.numCols
  · rw [p.isFeasible_eq (b := ⟨p.lower, p.upper⟩) hx ⟨p.size_lower, p.size_upper⟩]
    simp only [hx, true_and]
  · unfold isFeasible
    rw [if_pos hx]
    simp [hx]

/-- A solution with its objective, as a source proposes it. -/
structure Proposal (α : Type) where
  objective : α
  solution : Array α
  source : String

/-- The incumbent that a proposal becomes if it is accepted. -/
def Proposal.incumbent (o : Proposal α) : Incumbent α :=
  ⟨o.objective, o.solution⟩

namespace Model

/-- The answer to a proposal, and the model afterwards. No proposal breaks a rule. -/
theorem propose_eq (m : Model α) (o : Proposal α) :
    m.propose o.objective o.solution o.source = .ok (
      if m.problem.Admits o.solution then
        if m.incumbent.objective ≤ o.objective then (false, m)
        else (true, { m with incumbent := o.incumbent }.send (.newBest o.objective o.source))
      else (false, m.send (.log (.rejected o.source)))) := by
  unfold propose
  rw [m.problem.isFeasible_eq_admits, Checked.ok_bind]
  by_cases hadmits : m.problem.Admits o.solution
  · by_cases hle : m.incumbent.objective ≤ o.objective
    · simp only [hadmits, hle, decide_true, if_true, Checked.pure_eq]
    · simp only [hadmits, hle, decide_true, if_true, if_false, Checked.pure_eq]
      rfl
  · simp only [hadmits, decide_false, Bool.false_eq_true, if_false, Checked.pure_eq]

end Model

/-! ### Proposals one after another -/

/-- A proposal, its answer, and the model before and after it. -/
structure Proposal.Call (α : Type) [Scalar α] where
  proposal : Proposal α
  before : Model α
  accepted : Bool
  after : Model α

/-- Proposals one after another, each to the model that the one before has left. -/
def Model.proposeAll (m : Model α) : List (Proposal α) → Checked (List (Proposal.Call α))
  | [] => return []
  | o :: os => do
    let (accepted, l) ← m.propose o.objective o.solution o.source
    let calls ← l.proposeAll os
    return ⟨o, m, accepted, l⟩ :: calls

namespace Proposal.Call

/-- The call is made: the answer is the one of the model. -/
def IsMade (c : Proposal.Call α) : Prop :=
  c.before.propose c.proposal.objective c.proposal.solution c.proposal.source =
    .ok (c.accepted, c.after)

/-- A proposal is accepted if it is admitted by the problem and strictly better than the incumbent.
Then it is the incumbent, and otherwise the incumbent stays. -/
structure IsDecided (c : Proposal.Call α) : Prop where
  accepted_iff : c.accepted = true ↔ c.before.problem.Admits c.proposal.solution ∧
    c.proposal.objective < c.before.incumbent.objective
  stored : c.accepted = true → c.after.incumbent = c.proposal.incumbent
  unchanged : c.accepted = false → c.after.incumbent = c.before.incumbent

theorem IsMade.problem_eq {c : Proposal.Call α} (h : c.IsMade) :
    c.after.problem = c.before.problem := by
  unfold IsMade at h
  obtain ⟨o, m, accepted, l⟩ := c
  rw [Model.propose_eq] at h
  dsimp only at h ⊢
  split_ifs at h <;> cases h <;> rfl

variable {c : Proposal.Call Binary64}

/-- A proposal is decided as it should be exactly if numbers are compared. -/
theorem IsMade.isDecided_iff (h : c.IsMade) :
    c.IsDecided ↔ (c.before.problem.Admits c.proposal.solution →
      c.proposal.objective.isNaN = false ∧ c.before.incumbent.objective.isNaN = false) := by
  obtain ⟨o, m, accepted, l⟩ := c
  unfold IsMade at h
  rw [Model.propose_eq] at h
  dsimp only at h ⊢
  by_cases hadmits : m.problem.Admits o.solution
  · rw [if_pos hadmits] at h
    by_cases hle : m.incumbent.objective ≤ o.objective
    · -- the incumbent is no worse, so both are numbers
      rw [if_pos hle] at h
      cases h
      obtain ⟨hbest, hnew⟩ := Binary64.isNaN_of_le hle
      have hnot := Binary64.not_lt_of_le hle
      exact iff_of_true ⟨by simp [hnot], (fun h => by cases h), fun _ => rfl⟩ fun _ => ⟨hnew, hbest⟩
    · rw [if_neg hle] at h
      cases h
      constructor
      · intro hdecided _
        exact Binary64.isNaN_of_lt (hdecided.accepted_iff.1 rfl).2
      · intro hnumbers
        obtain ⟨hnew, hbest⟩ := hnumbers hadmits
        have hlt := Binary64.lt_of_not_le hbest hnew hle
        exact ⟨by simp [hadmits, hlt], fun _ => rfl, fun h => by cases h⟩
  · rw [if_neg hadmits] at h
    cases h
    exact iff_of_true ⟨by simp [hadmits], (fun h => by cases h), fun _ => rfl⟩
      fun h => absurd h hadmits

/-- A decision never puts something in the place of a number that is none, nor conversely. -/
theorem IsDecided.isNaN_after (h : c.IsDecided) :
    c.after.incumbent.objective.isNaN = c.before.incumbent.objective.isNaN := by
  cases haccepted : c.accepted with
  | false => rw [h.unchanged haccepted]
  | true =>
    obtain ⟨hnew, hbest⟩ := Binary64.isNaN_of_lt (h.accepted_iff.1 haccepted).2
    rw [h.stored haccepted, hbest]
    exact hnew

end Proposal.Call

namespace Model

/-- The objectives of the incumbents that proposals bring about, in order. -/
def objectivesOf (calls : List (Proposal.Call α)) : List α :=
  (calls.filter (·.accepted)).map (·.after.incumbent.objective)

/-- All proposals to a model are decided as they should be, and the objectives of its incumbents
strictly decrease. -/
structure ImprovesStrictly (m : Model α) (calls : List (Proposal.Call α)) : Prop where
  decided : ∀ c ∈ calls, c.IsDecided
  decreasing : (m.incumbent.objective :: objectivesOf calls).Pairwise fun v w => w < v

theorem improvesStrictly_nil (m : Model α) : m.ImprovesStrictly [] :=
  ⟨(fun c hc => by cases hc), List.pairwise_singleton _ _⟩

/-- One decision, and then others. -/
theorem improvesStrictly_cons {c : Proposal.Call Binary64} (hc : c.IsDecided)
    (calls : List (Proposal.Call Binary64)) :
    c.before.ImprovesStrictly (c :: calls) ↔ c.after.ImprovesStrictly calls := by
  suffices (c.before.incumbent.objective :: objectivesOf (c :: calls)).Pairwise (fun v w => w < v) ↔
      (c.after.incumbent.objective :: objectivesOf calls).Pairwise fun v w => w < v by
    constructor
    · rintro ⟨hdecided, hdecreasing⟩
      exact ⟨fun d hd => hdecided d (List.mem_cons_of_mem _ hd), this.1 hdecreasing⟩
    · rintro ⟨hdecided, hdecreasing⟩
      exact ⟨List.forall_mem_cons.2 ⟨hc, hdecided⟩, this.2 hdecreasing⟩
  cases haccepted : c.accepted with
  | false =>
    rw [hc.unchanged haccepted, objectivesOf, List.filter_cons_of_neg (by simp [haccepted])]
    rfl
  | true =>
    have hlt : c.after.incumbent.objective < c.before.incumbent.objective := by
      rw [hc.stored haccepted]
      exact (hc.accepted_iff.1 haccepted).2
    rw [objectivesOf, List.filter_cons_of_pos haccepted, List.map_cons]
    refine ⟨List.Pairwise.of_cons, fun hdecreasing => hdecreasing.cons ?_⟩
    -- whatever is below the new incumbent is below the old one
    exact List.forall_mem_cons.2 ⟨hlt, fun v hv =>
      Binary64.lt_trans (List.rel_of_pairwise_cons hdecreasing hv) hlt⟩

/-- Whatever is proposed, the model answers. The incumbents improve strictly if and only if neither
the first incumbent nor an admitted solution has an objective that is not a number. -/
theorem improvesStrictly_iff (m : Model Binary64) (os : List (Proposal Binary64)) :
    ∃ calls, m.proposeAll os = .ok calls ∧ calls.map (·.proposal) = os ∧
      (m.ImprovesStrictly calls ↔ ∀ o ∈ os, m.problem.Admits o.solution →
        o.objective.isNaN = false ∧ m.incumbent.objective.isNaN = false) := by
  induction os generalizing m with
  | nil => exact ⟨[], rfl, rfl, iff_of_true (improvesStrictly_nil m) fun o ho => by cases ho⟩
  | cons o os ih =>
    obtain ⟨⟨accepted, l⟩, hanswer⟩ : ∃ a, m.propose o.objective o.solution o.source = .ok a :=
      ⟨_, m.propose_eq o⟩
    have hmade : Proposal.Call.IsMade ⟨o, m, accepted, l⟩ := hanswer
    have hproblem : l.problem = m.problem := hmade.problem_eq
    obtain ⟨calls, hcalls, hmap, hiff⟩ := ih l
    refine ⟨⟨o, m, accepted, l⟩ :: calls, ?_, by rw [List.map_cons, hmap], ?_⟩
    · simp only [proposeAll, hanswer, hcalls, Checked.ok_bind, Checked.pure_eq]
    · rw [List.forall_mem_cons, ← hmade.isDecided_iff]
      by_cases hdecided : Proposal.Call.IsDecided ⟨o, m, accepted, l⟩
      · have hnumber : l.incumbent.objective.isNaN = m.incumbent.objective.isNaN :=
          hdecided.isNaN_after
        rw [and_iff_right hdecided, ← hproblem, ← hnumber, ← hiff]
        exact improvesStrictly_cons hdecided calls
      · exact iff_of_false (fun h => hdecided (h.decided _ List.mem_cons_self))
          fun h => hdecided h.1

/-- A search in which zero is an admitted solution. -/
def oneChoice : Model Binary64 where
  problem := Collection.oneBinary
  node := .root Collection.oneBinary #[0] 0
  incumbent := noIncumbent
  messages := #[]

/-- An admitted solution with an objective that is not a number becomes the incumbent. -/
theorem not_improvesStrictly_nan :
    ¬ ∃ calls, oneChoice.proposeAll [⟨0 / 0, #[0], "any"⟩] = .ok calls ∧
      oneChoice.ImprovesStrictly calls := by
  rintro ⟨calls, hcalls, himproves⟩
  obtain ⟨⟨accepted, l⟩, hanswer, hcalls⟩ := Checked.bind_eq_ok.1 hcalls
  cases hcalls
  have hmade : Proposal.Call.IsMade ⟨⟨0 / 0, #[0], "any"⟩, oneChoice, accepted, l⟩ := hanswer
  have hadmits : oneChoice.problem.Admits #[0] := by decide +kernel
  have hdecided := himproves.decided _ List.mem_cons_self
  have hnumber : (0 / 0 : Binary64).isNaN = false := (hmade.isDecided_iff.1 hdecided hadmits).1
  have hnan : (0 / 0 : Binary64).isNaN = true := by decide +kernel
  rw [hnan] at hnumber
  cases hnumber

end Model

end PrimalHeuristics
