import PrimalHeuristics.Heuristic

/-!
# Collections of heuristics

A collection runs its heuristics in order at the nodes of a search. Each improvement is proposed to
the model right away, so that later heuristics see it. An error ends the pass; what happened before
it stays.

* `Collection.runAtNode`: a pass over all heuristics that fire at the current node;
* `Collection.runWithCuts`: the same while cuts are generated;
* `Collection.finish`: what all heuristics did, which is also the last message.
-/

namespace PrimalHeuristics

variable {α : Type}

/-- Heuristics that run together. -/
structure Collection (α : Type) where
  heuristics : List (Heuristic α)
  attached : Bool

/-- A solution that the model accepted. -/
structure Find (α : Type) where
  heuristic : String
  objective : α
  deriving DecidableEq

/-- What a pass over heuristics leaves behind. -/
structure Pass (α : Type) [Scalar α] where
  outcome : Except (Failure α) (List (Find α))
  heuristics : List (Heuristic α)
  model : Model α

/-- What one heuristic leaves behind in a pass. -/
structure Turn (α : Type) [Scalar α] where
  outcome : Except (Failure α) (Option (Find α))
  heuristic : Heuristic α
  model : Model α

namespace Collection

def empty : Collection α :=
  ⟨[], false⟩

def size (k : Collection α) : Nat :=
  k.heuristics.length

variable [Scalar α]

/-! ### Members and models -/

/-- Adds a heuristic, attached to the model if the collection is. -/
def add (k : Collection α) (m : Model α) (h : Heuristic α) : Collection α :=
  { k with heuristics := k.heuristics ++ [if k.attached then h.attach m else h] }

/-- Attaches all heuristics, and those that are added later. -/
def attach (k : Collection α) (m : Model α) : Collection α × Model α :=
  (⟨k.heuristics.map (·.attach m), true⟩, m.send (.phase "model attached"))

/-- Tells all heuristics that the model has another problem. -/
def reset (k : Collection α) (m : Model α) : Except (Error α) (Collection α × Model α) :=
  if k.attached then
    .ok ({ k with heuristics := k.heuristics.map (·.attach m) }, m.send (.phase "model reset"))
  else .error (.noModel "collection")

/-- Validates heuristics one after another. -/
def validateList : List (Heuristic α) → Model α → List (Heuristic α) × Model α
  | [], m => ([], m)
  | h :: l, m =>
    let (h, m) := h.validate m
    let (l, m) := validateList l m
    (h :: l, m)

/-- Switches off all heuristics that cannot deal with the problem. -/
def validate (k : Collection α) (m : Model α) : Collection α × Model α :=
  let (heuristics, m) := validateList k.heuristics m
  ({ k with heuristics }, m)

/-! ### Passes -/

/-- The end of a turn: the run is recorded and reported. -/
def conclude (h : Heuristic α) (m : Model α) (n : Node α) (outcome : String)
    (accepted : Option α) : Turn α where
  outcome := .ok (accepted.map (⟨h.core.settings.name, ·⟩))
  heuristic := { h with core := h.core.recordRun n accepted.isSome }
  model := m.send <| .finish {
    name := h.core.settings.name
    depth := n.depth
    outcome := outcome
    objective := accepted
    best := m.incumbent.objective
    seconds := none }

/-- An improvement is proposed to the model; the objective, if it is accepted. -/
def offer (s : String) (m : Model α) (objective : α) (x : Array α) :
    Checked (Option α × Model α) := do
  let (accepted, m) ← m.propose objective x s
  return (if accepted then some objective else none, m)

/-- The buffer that a heuristic is given. -/
def blank (m : Model α) : Array α :=
  Array.replicate m.problem.numCols 0

/-- The run of a heuristic, once it has been told to. -/
def runOne (h : Heuristic α) (m : Model α) (n : Node α) : Turn α :=
  let name := h.core.settings.name
  let m := m.send (.start name n.depth)
  let s := h.seek m m.incumbent.objective (blank m)
  match s.outcome with
  | .error e => ⟨.error e, s.heuristic, s.model⟩
  | .ok .nothing => conclude s.heuristic s.model n "none" none
  | .ok (.improved objective) =>
    match offer name s.model objective s.buffer with
    | .error f => ⟨.error (.fault f), s.heuristic, s.model⟩
    | .ok (accepted, m) =>
      conclude s.heuristic m n (if accepted.isSome then "improved" else "none") accepted

/-- The run of a heuristic while cuts are generated. -/
def runOneWithCuts (h : Heuristic α) (m : Model α) (n : Node α) (cuts : CutPool α) :
    Turn α × CutPool α :=
  let name := h.core.settings.name
  let (s, cuts) := h.seekWithCuts m m.incumbent.objective (blank m) cuts
  let turn :=
    match s.outcome with
    | .error e => ⟨.error e, s.heuristic, s.model⟩
    | .ok .nothing => conclude s.heuristic s.model n "none" none
    | .ok (.estimated value) =>
      conclude s.heuristic (s.model.send (.log (.estimate name value))) n "estimate" none
    | .ok (.improved objective) =>
      match offer name s.model objective s.buffer with
      | .error f => ⟨.error (.fault f), s.heuristic, s.model⟩
      | .ok (accepted, m) => conclude s.heuristic m n "improved" accepted
  (turn, cuts)

/-- A pass over heuristics; those that are not to run at the node are passed over. The second
component is handed from run to run. -/
def pass {σ : Type} (run : Heuristic α → Model α → σ → Turn α × σ) (n : Node α) :
    List (Heuristic α) → Model α → σ → Pass α × σ
  | [], m, state => (⟨.ok [], [], m⟩, state)
  | h :: l, m, state =>
    let (due, core) := h.core.shouldRun n
    let h := { h with core }
    if due then
      let (t, state) := run h m state
      match t.outcome with
      | .error e => (⟨.error e, t.heuristic :: l, t.model⟩, state)
      | .ok find =>
        let (p, state) := pass run n l t.model state
        (⟨p.outcome.map (find.toList ++ ·), t.heuristic :: p.heuristics, p.model⟩, state)
    else
      let (p, state) := pass run n l m state
      (⟨p.outcome, h :: p.heuristics, p.model⟩, state)

/-- Runs all heuristics that are to run at the current node. -/
def runAtNode (k : Collection α) (m : Model α) : Pass α :=
  if k.attached then
    (pass (fun h m () => (runOne h m m.node, ())) m.node k.heuristics m ()).1
  else
    ⟨.error (.error (.noModel "collection")), k.heuristics, m⟩

/-- Runs all heuristics that are to run at the current node while cuts are generated. -/
def runWithCuts (k : Collection α) (m : Model α) (cuts : CutPool α) : Pass α × CutPool α :=
  if k.attached then
    pass (fun h m cuts => runOneWithCuts h m m.node cuts) m.node k.heuristics m cuts
  else
    (⟨.error (.error (.noModel "collection")), k.heuristics, m⟩, cuts)

/-! ### Reports -/

/-- The statements of all heuristics, by their names. -/
def replay (k : Collection α) : List (String × List (Statement α)) :=
  k.heuristics.map fun h => (h.core.settings.name, h.replay)

omit [Scalar α] in
/-- What a heuristic did. -/
def statisticsOf (h : Heuristic α) : Statistics α where
  name := h.core.settings.name
  runs := h.core.tally.runs
  solutions := h.core.tally.solutions
  subSolveNodes := h.core.tally.subSolveNodes
  seconds := none

/-- What all heuristics did, which is also told if the collection is attached. -/
def finish (k : Collection α) (m : Model α) : List (Statistics α) × Model α :=
  let statistics := k.heuristics.map statisticsOf
  (statistics, if k.attached then m.send (.exit statistics) else m)

end Collection

end PrimalHeuristics
