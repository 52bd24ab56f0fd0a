import PrimalHeuristics.Error
import PrimalHeuristics.Report.Number

/-!
# The wording of errors

`Error.message` is the text under which an error is reported.
-/

namespace PrimalHeuristics

/-- Why a setting is refused, in words. -/
def Refusal.message : Refusal Binary64 → String
  | notPositive value => s!"{Report.number value} is not positive"
  | outsideUnit value => s!"{Report.number value} is outside (0, 1]"
  | zeroCount => "must be at least 1"
  | negative value => s!"{Report.number value} is negative"
  | negativePriority value => s!"{value} is negative"
  | unknownCode code => s!"unknown code {code}"

/-- The name of a vector. -/
def VectorRole.name : VectorRole → String
  | solution => "solution"
  | values => "values"
  | freeFlags => "free flags"
  | lowerBounds => "lower bounds"
  | upperBounds => "upper bounds"

/-- An error, in words. -/
def Error.message : Error Binary64 → String
  | noModel name => s!"heuristic '{name}' is not attached to a model"
  | solutionLength expected got =>
    s!"solution buffer has length {got}, model has {expected} columns"
  | vectorLength role expected got =>
    s!"relaxation {role.name} has length {got}, model has {expected} columns"
  | staleModel cached current =>
    s!"cached tables cover {cached} columns but the model has {current}, " ++
      "reset_model was not called"
  | invalidSetting field reason => s!"invalid value for '{field}': {reason.message}"
  | entryOutOfRange row col => s!"matrix entry ({row}, {col}) out of range"
  | continuousColumn col =>
    s!"sub-problem column {col} is continuous and free, " ++
      "the relaxation backend only handles integer columns"
  | unreadable => "settings: no settings"
  | relaxation text => s!"relaxation backend: {text}"

end PrimalHeuristics
