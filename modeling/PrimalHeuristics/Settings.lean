import PrimalHeuristics.SubProblem.SubSolver

/-!
# Settings of a heuristic

A `Trigger` says at which nodes a heuristic fires, and `Settings` collects what all heuristics have
in common. Four of the numbers have to be in range; each has a check of its own, which is also the
one by which a change is refused.

* `Trigger.ofCode`, `Trigger.toCode`: the classic numbers of triggers;
* `Settings.validate`: the first check that fails, if there is one;
* `Settings.standard`: the settings of a heuristic that is told nothing.
-/

namespace PrimalHeuristics

/-- The nodes at which a heuristic fires. -/
inductive Trigger where
  | off
  | atRoot
  | notAtRoot
  | always
  deriving DecidableEq, Repr

namespace Trigger

/-- The heuristic fires at a node. -/
def firesAt (t : Trigger) (root : Bool) : Bool :=
  match t with
  | off => false
  | atRoot => root
  | notAtRoot => !root
  | always => true

/-- The trigger with a number below four. -/
def ofDigit? : Int → Option Trigger
  | 0 => some off
  | 1 => some atRoot
  | 2 => some notAtRoot
  | 3 => some always
  | _ => none

/-- The number of a trigger. -/
def digit : Trigger → Int
  | off => 0
  | atRoot => 1
  | notAtRoot => 2
  | always => 3

/-- The number of a trigger; ten more says that odd problems are trusted. -/
def toCode (t : Trigger) (trustOdd : Bool) : Int :=
  t.digit + if trustOdd then 10 else 0

/-- The trigger with a number, and whether the number says that odd problems are trusted. -/
def ofCode {α : Type} (code : Int) : Except (Error α) (Trigger × Bool) :=
  let trustOdd : Bool := 10 ≤ code
  match ofDigit? (code - if trustOdd then 10 else 0) with
  | some t => .ok (t, trustOdd)
  | none => .error (.invalidSetting "when" (.unknownCode code))

theorem ofCode_toCode {α : Type} (t : Trigger) (trustOdd : Bool) :
    (ofCode (t.toCode trustOdd) : Except (Error α) (Trigger × Bool)) = .ok (t, trustOdd) := by
  cases t <;> cases trustOdd <;> rfl

end Trigger

/-- What all heuristics can be told. -/
structure Settings (α : Type) where
  name : String
  trigger : Trigger
  /-- Problems with special ordered sets do not switch the heuristic off. -/
  trustOddProblems : Bool
  /-- The most nodes that a sub-problem may take. -/
  numberNodes : UInt64
  /-- Options of the feasibility pump; minus one is off. -/
  feasibilityPumpOptions : Int32
  /-- The greatest share of rows and columns that a sub-problem may have. -/
  fractionSmall : α
  /-- The heuristic runs at every so many nodes at which it fires. -/
  howOften : UInt32
  /-- The growth of that number after a run without success. -/
  decayFactor : α
  seed : UInt64
  /-- Nodes are far from each other if less than this share of their decisions agrees. -/
  farThreshold : α
  subSolver : SubSolver
  deriving BEq

namespace Settings

variable {α : Type}

/-- A refusal unless a condition holds. -/
def demand (field : String) (reason : Refusal α) (holds : Bool) : Except (Error α) Unit :=
  if holds then .ok () else .error (.invalidSetting field reason)

theorem demand_eq_ok {field : String} {reason : Refusal α} {holds : Bool} :
    demand field reason holds = .ok () ↔ holds = true := by
  cases holds <;> simp [demand]

/-- How often a heuristic may run. -/
def checkHowOften (n : UInt32) : Except (Error α) Unit :=
  demand "how_often" .zeroCount (n != 0)

variable [Scalar α]

/-- What may be a share of rows and columns: any positive number. -/
def checkFractionSmall (x : α) : Except (Error α) Unit :=
  demand "fraction_small" (.notPositive x) (!(Scalar.isNaN x || x ≤ 0))

/-- What may be a share of decisions: a positive number up to one. -/
def checkFarThreshold (x : α) : Except (Error α) Unit :=
  demand "far_threshold" (.outsideUnit x) (0 < x && x ≤ 1)

/-- What may be a growth: any number that is not negative. -/
def checkDecayFactor (x : α) : Except (Error α) Unit :=
  demand "decay_factor" (.negative x) (!(Scalar.isNaN x || x < 0))

/-- The first refusal, if there is one. -/
def validate (s : Settings α) : Except (Error α) Unit := do
  checkFractionSmall s.fractionSmall
  checkFarThreshold s.farThreshold
  checkHowOften s.howOften
  checkDecayFactor s.decayFactor

theorem validate_eq_ok {s : Settings α} : s.validate = .ok () ↔
    checkFractionSmall s.fractionSmall = .ok () ∧ checkFarThreshold s.farThreshold = .ok () ∧
      checkHowOften (α := α) s.howOften = .ok () ∧ checkDecayFactor s.decayFactor = .ok () := by
  unfold validate
  simp only [Checked.bind_eq_ok]
  constructor
  · rintro ⟨_, hfraction, _, hfar, _, hoften, hdecay⟩
    exact ⟨hfraction, hfar, hoften, hdecay⟩
  · rintro ⟨hfraction, hfar, hoften, hdecay⟩
    exact ⟨(), hfraction, (), hfar, (), hoften, hdecay⟩

/-- The settings of a heuristic that is told nothing. -/
def standard : Settings α where
  name := "Unknown"
  trigger := .notAtRoot
  trustOddProblems := false
  numberNodes := 200
  feasibilityPumpOptions := -1
  fractionSmall := 1
  howOften := 1
  decayFactor := 0
  seed := 1234567
  farThreshold := Scalar.decimal 5 1
  subSolver := .activityBounds

/-- The standard settings under a name. -/
def named (name : String) : Settings α :=
  { standard with name }

end Settings

end PrimalHeuristics
