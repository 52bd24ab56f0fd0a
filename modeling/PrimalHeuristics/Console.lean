import PrimalHeuristics.Report.Message
import PrimalHeuristics.Text.Columns

/-!
# The console

A console prints messages as they come, and keeps the totals that are printed with the last one: the
running times, the nodes of sub-problems, and the heuristics that were started since the last phase
began. After the last message nothing is printed any more.

Messages carry the sender and the time at which they come. There is one sender, and times are not
measured.

* `Console.receive`: one more message;
* `Console.render`: the lines for a list of messages.
-/

namespace PrimalHeuristics

/-- What was printed so far, and the totals. -/
structure Console where
  lines : Array String
  /-- The running times of all runs, if times are measured. -/
  seconds : Option Binary64
  subSolveNodes : Nat
  /-- The heuristics that were started in the current phase, each once. -/
  active : List String
  /-- The last message has come. -/
  closed : Bool

namespace Console

/-- Nothing is printed yet; `timed` says whether running times are measured. -/
def start (timed : Bool) : Console :=
  ⟨#[], if timed then some 0 else none, 0, [], false⟩

/-! ### Layout -/

/-- The number of columns that titles take. -/
def width : Nat := 30

/-- A text in the middle of a title, between characters that fill it up. -/
def centred (fill : Char) (s : String) : String :=
  let free := width - Text.columns s
  "".pushn fill (free / 2) ++ s ++ "".pushn fill (free - free / 2)

/-- The line between parts of the output. -/
def rule : String :=
  "".pushn '⎯' width

/-- The sender of all messages. -/
def sender : String := "ThreadId(1)"

/-- The sender and the time that is not measured. -/
def stamp : String :=
  "[" ++ sender ++ "] " ++ NumberFormat.alignRight 6 "-.--"

/-- Prints lines; a line break in a text ends a line. -/
def print (c : Console) (l : List String) : Console :=
  { c with lines := c.lines ++ (l.flatMap (·.splitOn "\n")).toArray }

/-! ### Messages -/

/-- The running time of one more run. -/
def addSeconds (c : Console) (seconds : Option Binary64) : Console :=
  { c with seconds := do return (← c.seconds) + (← seconds) }

/-- The totals, in words. -/
def totals (c : Console) : String :=
  s!"total_heuristic_time: {Report.orDash (Report.cell 8 2) c.seconds}s / " ++
    s!"sub_solve_nodes: {c.subSolveNodes} / active: {c.active.length}"

/-- Prints a message. -/
def receive (c : Console) (m : Message Binary64) : Console :=
  if c.closed then c
  else
    match m with
    | .log note => c.print [stamp ++ "  " ++ note.toText]
    | .phase title =>
      { c with active := [] }.print [centred '⎯' sender, centred ' ' title, rule]
    | .start name depth =>
      { c with active := if c.active.contains name then c.active else name :: c.active }.print
        [s!"{stamp} started   {name} at depth {depth}"]
    | .finish report => (c.addSeconds report.seconds).print [s!"{stamp} completed {report.toText}"]
    | .disabled name reason => c.print [s!"{name} switched off: {reason}"]
    | .subSolve report =>
      { c with subSolveNodes := c.subSolveNodes + report.nodes }.print
        [s!"{stamp} sub-solve {report.toText}"]
    | .newBest objective source =>
      c.print [s!"{stamp}  Has new best: {Report.number objective} ({source})"]
    | .exit statistics =>
      { c with closed := true }.print <|
        [centred '⎯' "Statistics", c.totals] ++ statistics.map Statistics.toText ++ [rule]

/-- The lines for a list of messages. -/
def render (timed : Bool) (l : List (Message Binary64)) : Array String :=
  (l.foldl receive (start timed)).lines

end Console

end PrimalHeuristics
