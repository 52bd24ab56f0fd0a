import PrimalHeuristics.Heuristic.PartialFix
import PrimalHeuristics.Heuristic.Rounding
import PrimalHeuristics.Heuristic.Serendipity
import PrimalHeuristics.Settings.Replay

/-!
# Heuristics

A heuristic looks for a solution at the current node that is better than the best one so far. There
are three kinds: rounding, partial fixing and serendipity. A caller hands in a buffer, which changes
only if a solution is found.

* `Heuristic.seek`: one run at the current node;
* `Heuristic.attach`, `Heuristic.validate`: a heuristic meets a model;
* `Heuristic.setWeights` and the like: settings of a kind, without effect on the others;
* `Heuristic.replay`: the settings that are not standard.
-/

namespace PrimalHeuristics

variable {α : Type}

/-- The kind of a heuristic, with the part that is its own. -/
inductive Kind (α : Type) where
  | rounding (own : Rounding α)
  | partialFix (own : PartialFix)
  | serendipity (own : Serendipity α)

/-- A heuristic. -/
structure Heuristic (α : Type) where
  core : Core α
  kind : Kind α

/-- The outcome of a run. -/
inductive SeekOutcome (α : Type) where
  | nothing
  /-- The buffer holds a solution with this objective. -/
  | improved (objective : α)
  deriving DecidableEq

/-- The outcome of a run while cuts are generated. -/
inductive CutOutcome (α : Type) where
  | nothing
  | improved (objective : α)
  /-- No solution, but an estimate of the best one. -/
  | estimated (value : α)
  deriving DecidableEq

/-- A row that cuts off points: the sum of the entries has to lie between the bounds. -/
structure Cut (α : Type) where
  entries : List (Nat × α)
  bounds : RowBounds α

/-- The cuts that were handed in, in order. -/
abbrev CutPool (α : Type) := Array (Cut α)

/-- What a run leaves behind. -/
structure Seek (α ω : Type) [Scalar α] where
  outcome : Except (Failure α) ω
  heuristic : Heuristic α
  model : Model α
  buffer : Array α

variable [Scalar α]

namespace Kind

/-- The name that a heuristic of the kind has by default. -/
def name : Kind α → String
  | rounding _ => "Rounding"
  | partialFix _ => "Partial"
  | serendipity _ => "Serendipity"

/-- The kind, for another problem. -/
def reset (p : Problem α) : Kind α → Kind α
  | rounding r => .rounding r.reset
  | partialFix f => .partialFix (f.derive p)
  | serendipity s => .serendipity s

/-- No kind can deal with special ordered sets. -/
def canDealWithOdd : Kind α → Bool
  | rounding _ | partialFix _ | serendipity _ => false

/-- A run at a node. -/
def trial (k : Kind α) (c : Core α) (p : Problem α) (n : Node α) (best : α) : Trial α (Kind α) :=
  match k with
  | rounding r => let t := r.trial c p n best; { t with own := rounding t.own }
  | partialFix f => let t := f.trial c p n best; { t with own := partialFix t.own }
  | serendipity s => let t := s.trial c p n best; { t with own := serendipity t.own }

/-- What the kind adds to the statements of the settings. -/
def replay : Kind α → List (Statement α)
  | rounding r =>
    let fields (w : Weights α) : List (Statement α) :=
      [⟨"lock_jitter", .ofReal w.lockJitter⟩, ⟨"objective_weight", .ofReal w.objectiveWeight⟩]
    Statement.differences (fields r.weights) (fields .standard)
  | partialFix f =>
    if f.fixPriority = PartialFix.defaultPriority then []
    else [⟨"fix_priority", .integer f.fixPriority⟩]
  | serendipity s =>
    if s.jitter == Serendipity.defaultJitter then [] else [⟨"jitter", .ofReal s.jitter⟩]

end Kind

namespace Heuristic

/-- A fresh heuristic with standard settings. -/
def ofKind (k : Kind α) : Heuristic α :=
  ⟨.named k.name, k⟩

/-- A fresh heuristic with given settings, if they are valid. -/
def ofSettings? (k : Kind α) (s : Settings α) : Except (Error α) (Heuristic α) := do
  return ⟨← Core.ofSettings? s, k⟩

omit [Scalar α] in
/-- Marks the heuristic as attached, and does nothing else. -/
def attachOnly (h : Heuristic α) : Heuristic α :=
  { h with core := { h.core with attached := true } }

/-- Attaches the heuristic to a model; what it knew of another problem is dropped. -/
def attach (h : Heuristic α) (m : Model α) : Heuristic α :=
  { h.attachOnly with kind := h.kind.reset m.problem }

/-- Sets the weights of a rounding heuristic. -/
def setWeights (h : Heuristic α) (w : Weights α) : Heuristic α :=
  match h.kind with
  | .rounding r => { h with kind := .rounding { r with weights := w } }
  | _ => h

/-- Sets the jitter of a serendipity heuristic, whose sign does not matter. -/
def setJitter (h : Heuristic α) (x : α) : Heuristic α :=
  match h.kind with
  | .serendipity _ => { h with kind := .serendipity ⟨Scalar.abs x⟩ }
  | _ => h

/-- Sets the priority value up to which a partial fixing heuristic fixes columns. -/
def setFixPriority (h : Heuristic α) (m : Model α) (priority : Int) :
    Except (Error α) (Heuristic α) := do
  match h.kind with
  | .partialFix f =>
    let f ← f.setPriority priority (if h.core.attached then some m.problem else none)
    return { h with kind := .partialFix f }
  | _ => return h

/-- Switches the heuristic off if it cannot deal with the problem. -/
def validate (h : Heuristic α) (m : Model α) : Heuristic α × Model α :=
  let (core, m) :=
    match h.kind with
    | .rounding _ =>
      if h.core.attached && m.problem.numRows == 0 then h.core.disable m "model has no rows"
      else h.core.disableIfOdd m h.kind.canDealWithOdd
    | _ => h.core.disableIfOdd m h.kind.canDealWithOdd
  ({ h with core }, m)

/-- The settings that the heuristic has by default. -/
def defaultSettings (h : Heuristic α) : Settings α :=
  .named h.kind.name

/-- The statements that make a default heuristic of the kind to this one. -/
def replay (h : Heuristic α) : List (Statement α) :=
  h.core.settings.replay h.defaultSettings ++ h.kind.replay

/-- The heuristic may work on the model, and the buffer fits the problem. -/
def check (h : Heuristic α) (m : Model α) (buffer : Array α) : Except (Error α) Unit := do
  h.core.check m
  if buffer.size ≠ m.problem.numCols then
    .error (.solutionLength m.problem.numCols buffer.size)

/-- Looks for a solution below `best` at the current node; there is nothing to look for in a problem
without integer columns. -/
def seek (h : Heuristic α) (m : Model α) (best : α) (buffer : Array α) :
    Seek α (SeekOutcome α) :=
  match h.check m buffer with
  | .error e => ⟨.error (.error e), h, m, buffer⟩
  | .ok () =>
    if m.problem.numIntegers = 0 then ⟨.ok .nothing, h, m, buffer⟩
    else
      let t := h.kind.trial h.core m.problem m.node best
      let h := ⟨t.core, t.own⟩
      let m := m.sendAll t.messages
      match t.answer with
      | .error e => ⟨.error e, h, m, buffer⟩
      | .ok none => ⟨.ok .nothing, h, m, buffer⟩
      | .ok (some (objective, x)) => ⟨.ok (.improved objective), h, m, x⟩

/-- Looks for a solution while cuts are generated, and may add cuts. No kind does anything here. -/
def seekWithCuts (h : Heuristic α) (m : Model α) (_best : α) (buffer : Array α)
    (cuts : CutPool α) : Seek α (CutOutcome α) × CutPool α :=
  (⟨.ok .nothing, h, m, buffer⟩, cuts)

/-- Searches a sub-problem on behalf of the heuristic, which counts its nodes. -/
def subSolve (h : Heuristic α) (m : Model α) (s : SubProblem α) (cap : Nat) (cutoff : α)
    (label : String) : Except (Failure α) (SearchResult α) × Heuristic α × Model α :=
  match h.core.settings.subSolve s cap cutoff label with
  | .error e => (.error e, h, m)
  | .ok (result, report) =>
    (.ok result, { h with core := h.core.addSubSolveNodes result.nodes },
      h.core.tell m (.subSolve report))

end Heuristic

end PrimalHeuristics
