import PrimalHeuristics.Model
import PrimalHeuristics.Random.Digest
import PrimalHeuristics.Random.Stream
import PrimalHeuristics.Settings

/-!
# What every heuristic carries

A heuristic has settings, a random stream of its own, and a memory of its runs: how many there were,
and the nodes below the root at which they took place. The memory decides when it runs again.

* `Core.setFractionSmall` and the like: settings that are checked, and refused without a trace;
* `Core.nodeStream`: a stream that depends on the seed and on the position of a node only;
* `Core.shouldRun`, `Core.recordRun`: the gate before a run, and what is remembered after it;
* `Core.disable`: switches the heuristic off, and says why.
-/

namespace PrimalHeuristics

/-- Counts of what a heuristic did. -/
structure Tally where
  runs : Nat
  solutions : Nat
  subSolveNodes : Nat
  deriving DecidableEq, Repr

/-- The part that all heuristics have in common. -/
structure Core (α : Type) where
  /-- The heuristic is attached to the model of the search. -/
  attached : Bool
  settings : Settings α
  stream : Stream
  /-- The nodes below the root at which the heuristic has run. -/
  runNodes : History α
  /-- The number of nodes at which the heuristic fired. -/
  eligible : Nat
  /-- The heuristic runs at every so many of them; grows with runs that find nothing. -/
  interval : α
  tally : Tally

namespace Core

variable {α : Type} [Scalar α]

/-- A fresh heuristic with settings that are not checked. -/
def ofSettings (s : Settings α) : Core α where
  attached := false
  settings := s
  stream := .ofSeed s.seed
  runNodes := []
  eligible := 0
  interval := Scalar.ofNat s.howOften.toNat
  tally := ⟨0, 0, 0⟩

/-- A fresh heuristic, if its settings are valid. -/
def ofSettings? (s : Settings α) : Except (Error α) (Core α) := do
  s.validate
  return ofSettings s

/-- A fresh heuristic with standard settings under a name. -/
def named (name : String) : Core α :=
  ofSettings (.named name)

/-! ### Settings -/

omit [Scalar α] in
/-- The same heuristic with other settings. -/
def withSettings (c : Core α) (f : Settings α → Settings α) : Core α :=
  { c with settings := f c.settings }

omit [Scalar α] in
/-- Sets the trigger by its number, which also says whether odd problems are trusted. -/
def setTriggerCode (c : Core α) (code : Int) : Except (Error α) (Core α) := do
  let (trigger, trustOdd) ← Trigger.ofCode code
  return c.withSettings fun s => { s with trigger := trigger, trustOddProblems := trustOdd }

def setFractionSmall (c : Core α) (x : α) : Except (Error α) (Core α) := do
  Settings.checkFractionSmall x
  return c.withSettings fun s => { s with fractionSmall := x }

/-- Sets how often the heuristic runs; the growth so far is forgotten. -/
def setHowOften (c : Core α) (n : UInt32) : Except (Error α) (Core α) := do
  Settings.checkHowOften n
  return { c.withSettings fun s => { s with howOften := n } with
    interval := Scalar.ofNat n.toNat }

def setDecayFactor (c : Core α) (x : α) : Except (Error α) (Core α) := do
  Settings.checkDecayFactor x
  return c.withSettings fun s => { s with decayFactor := x }

def setFarThreshold (c : Core α) (x : α) : Except (Error α) (Core α) := do
  Settings.checkFarThreshold x
  return c.withSettings fun s => { s with farThreshold := x }

omit [Scalar α] in
/-- Sets the seed; the stream starts anew. -/
def setSeed (c : Core α) (seed : UInt64) : Core α :=
  { c.withSettings fun s => { s with seed } with stream := .ofSeed seed }

/-! ### Random numbers -/

/-- The stream of a node: the same for the same seed and position. -/
def nodeStream (seed : UInt64) (position : Path α) : Stream :=
  .ofSeed (digest seed position.words)

/-- The next number of the persistent stream. -/
def draw (c : Core α) : α × Core α :=
  ((c.stream.uniform α).1, { c with stream := (c.stream.uniform α).2 })

/-! ### Runs -/

/-- The heuristic runs at one of so many nodes at which it fires. -/
def stride (c : Core α) : Nat :=
  Scalar.toCount (Scalar.round (Scalar.max c.interval 1))

/-- The heuristic is to run at a node that it fires at: it is the node's turn, and below the root
the node is far from all nodes of earlier runs. -/
def isDue (c : Core α) (n : Node α) : Bool :=
  c.eligible % c.stride == 0 &&
    (n.isRoot || c.runNodes.allFar n.path c.settings.farThreshold)

/-- Whether the heuristic is to run at a node; nodes at which it fires are counted. -/
def shouldRun (c : Core α) (n : Node α) : Bool × Core α :=
  if c.settings.trigger.firesAt n.isRoot then
    (c.isDue n, { c with eligible := c.eligible + 1 })
  else (false, c)

/-- What is remembered of a run at a node. -/
def recordRun (c : Core α) (n : Node α) (found : Bool) : Core α :=
  { c with
    tally := { c.tally with
      runs := c.tally.runs + 1
      solutions := c.tally.solutions + if found then 1 else 0 }
    interval := if found then c.interval else c.interval * (1 + c.settings.decayFactor)
    runNodes := if n.isRoot then c.runNodes else c.runNodes ++ [n.path] }

omit [Scalar α] in
/-- Counts nodes of sub-problems. -/
def addSubSolveNodes (c : Core α) (n : Nat) : Core α :=
  { c with tally := { c.tally with subSolveNodes := c.tally.subSolveNodes + n } }

/-- The heuristic may work on the model: it is attached, and the vectors of the node have one entry
for each column. -/
def check (c : Core α) (m : Model α) : Except (Error α) Unit := do
  if c.attached then
    SubProblem.checkLengths m.problem.numCols
      [(.solution, m.node.solution.size), (.lowerBounds, m.node.box.lower.size),
        (.upperBounds, m.node.box.upper.size)]
  else .error (.noModel c.settings.name)

/-! ### Messages -/

/-- Sends a message, if the heuristic is attached. -/
def tell (c : Core α) (m : Model α) (message : Message α) : Model α :=
  if c.attached then m.send message else m

/-- Switches the heuristic off. -/
def disable (c : Core α) (m : Model α) (reason : String) : Core α × Model α :=
  (c.withSettings fun s => { s with trigger := .off }, c.tell m (.disabled c.settings.name reason))

/-- Switches the heuristic off if the problem has special ordered sets that nobody vouched for. -/
def disableIfOdd (c : Core α) (m : Model α) (canDealWithOdd : Bool) : Core α × Model α :=
  if c.attached && !m.problem.sosSets.isEmpty && !canDealWithOdd &&
      !c.settings.trustOddProblems then
    c.disable m "model has special ordered sets"
  else (c, m)

end Core

end PrimalHeuristics
