import PrimalHeuristics.Settings

/-!
# Replaying settings

Settings are told apart from default ones by statements: one for each field whose value differs, in
the order of the fields. Values are compared as they are written, so numbers compare by value, and
all that are not finite are alike.

* `Settings.fields`: all fields with their values;
* `Statement.differences`: the statements that turn default fields into given ones.
-/

namespace PrimalHeuristics

/-- The value of a field, as it is written. -/
inductive FieldValue (α : Type) where
  | text (s : String)
  | flag (b : Bool)
  | integer (n : Int)
  | real (x : α)
  /-- Stands for a number that is not finite. -/
  | missing
  deriving BEq

/-- The value of a field that holds a number. -/
def FieldValue.ofReal {α : Type} [Scalar α] (x : α) : FieldValue α :=
  if Scalar.isFinite x then .real x else .missing

/-- Sets a field to a value. -/
structure Statement (α : Type) where
  field : String
  value : FieldValue α
  deriving BEq

namespace Statement

variable {α : Type} [Scalar α]

/-- The statements for fields that have no equal among the defaults. -/
def differences (current defaults : List (Statement α)) : List (Statement α) :=
  current.filter fun s => !defaults.contains s

end Statement

/-- The word for a trigger. -/
def Trigger.word : Trigger → String
  | off => "off"
  | atRoot => "at_root"
  | notAtRoot => "not_at_root"
  | always => "always"

/-- The word for a sub-solver. -/
def SubSolver.word : SubSolver → String
  | activityBounds => "activity_bounds"

namespace Settings

variable {α : Type} [Scalar α]

/-- All fields with their values, in order. -/
def fields (s : Settings α) : List (Statement α) :=
  [⟨"name", .text s.name⟩,
    ⟨"when", .text s.trigger.word⟩,
    ⟨"trust_odd_problems", .flag s.trustOddProblems⟩,
    ⟨"number_nodes", .integer s.numberNodes.toNat⟩,
    ⟨"feasibility_pump_options", .integer s.feasibilityPumpOptions.toInt⟩,
    ⟨"fraction_small", .ofReal s.fractionSmall⟩,
    ⟨"how_often", .integer s.howOften.toNat⟩,
    ⟨"decay_factor", .ofReal s.decayFactor⟩,
    ⟨"seed", .integer s.seed.toNat⟩,
    ⟨"far_threshold", .ofReal s.farThreshold⟩,
    ⟨"sub_solver", .text s.subSolver.word⟩]

/-- The statements that turn default settings into given ones. -/
def replay (s defaults : Settings α) : List (Statement α) :=
  Statement.differences s.fields defaults.fields

end Settings

end PrimalHeuristics
