import PrimalHeuristics.Checked

/-!
# Errors

An `Error` says which promise a call breaks or which setting is refused; the library goes on
unchanged. A heuristic that finds nothing reports no error. `Failure` joins errors with the faults
that stop a computation. The wording of the errors is in `Report.Error`.
-/

namespace PrimalHeuristics

/-- Why a setting is refused. -/
inductive Refusal (α : Type) where
  | notPositive (value : α)
  | outsideUnit (value : α)
  | zeroCount
  | negative (value : α)
  | negativePriority (value : Int)
  | unknownCode (code : Int)
  deriving DecidableEq, Repr

/-- The vectors whose length has to be the number of columns. -/
inductive VectorRole where
  | solution
  | values
  | freeFlags
  | lowerBounds
  | upperBounds
  deriving DecidableEq, Repr

/-- A call that is not carried out, by its cause. -/
inductive Error (α : Type) where
  /-- A heuristic or a collection is not attached to a model. -/
  | noModel (name : String)
  /-- The vector for the solution does not have one entry for each column. -/
  | solutionLength (expected got : Nat)
  /-- A vector of a node or of a restriction does not have one entry for each column. -/
  | vectorLength (role : VectorRole) (expected got : Nat)
  /-- A table was made for another number of columns. -/
  | staleModel (cached current : Nat)
  /-- A setting is refused. -/
  | invalidSetting (field : String) (reason : Refusal α)
  /-- A matrix entry, or the column that is named, does not exist. -/
  | entryOutOfRange (row col : Nat)
  /-- The relaxation handles no free continuous column. -/
  | continuousColumn (col : Nat)
  /-- The text holds no settings. -/
  | unreadable
  /-- The relaxation of a node failed. -/
  | relaxation (text : String)
  deriving DecidableEq, Repr

/-- What ends a computation without a result. -/
inductive Failure (α : Type) where
  | error (e : Error α)
  | fault (f : Fault)
  deriving DecidableEq, Repr

namespace Failure

variable {α β : Type}

/-- A computation that may break a rule, as one that may fail. -/
def ofChecked : Checked β → Except (Failure α) β
  | .ok b => .ok b
  | .error f => .error (.fault f)

/-- A computation that may report an error, as one that may fail. -/
def ofError : Except (Error α) β → Except (Failure α) β
  | .ok b => .ok b
  | .error e => .error (.error e)

instance : MonadLift Checked (Except (Failure α)) := ⟨ofChecked⟩

instance : MonadLift (Except (Error α)) (Except (Failure α)) := ⟨ofError⟩

end Failure

end PrimalHeuristics
