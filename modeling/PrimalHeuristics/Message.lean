import PrimalHeuristics.Tree.Decision

/-!
# Messages

Heuristics and the model tell of their work by messages; `Console` renders them. Running times are
part of a report only if someone measured them: this library never does.
-/

namespace PrimalHeuristics

/-- A remark. -/
inductive Note (α : Type) where
  | text (s : String)
  /-- A heuristic proposed a solution that is not feasible. -/
  | rejected (source : String)
  /-- What is left to repair is too large for a sub-problem. -/
  | repairTooLarge (name : String) (size : Nat) (fraction : α)
  /-- A heuristic found no solution, but estimates the best one. -/
  | estimate (name : String) (value : α)

/-- Tells how a heuristic fared at a node. -/
structure RunReport (α : Type) where
  name : String
  depth : Nat
  outcome : String
  /-- The objective of a solution that was accepted. -/
  objective : Option α
  /-- The objective of the incumbent afterwards. -/
  best : α
  seconds : Option α

/-- Tells how the search of a sub-problem ended. -/
structure SubSolveReport (α : Type) where
  label : String
  columns : Nat
  rows : Nat
  nodes : Nat
  status : Int
  objective : Option α
  seconds : Option α

/-- Tells what a heuristic did all in all. -/
structure Statistics (α : Type) where
  name : String
  runs : Nat
  solutions : Nat
  subSolveNodes : Nat
  seconds : Option α

/-- What is told. -/
inductive Message (α : Type) where
  | log (note : Note α)
  | phase (title : String)
  | start (name : String) (depth : Nat)
  | finish (report : RunReport α)
  | disabled (name reason : String)
  | subSolve (report : SubSolveReport α)
  | newBest (objective : α) (source : String)
  /-- The last message. -/
  | exit (statistics : List (Statistics α))

end PrimalHeuristics
