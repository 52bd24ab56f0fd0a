import PrimalHeuristics.Message
import PrimalHeuristics.Report.Number

/-!
# The wording of messages

Each report is one line. What was not measured, and an objective that does not exist, is a dash.
-/

namespace PrimalHeuristics

/-- A remark, in words. -/
def Note.toText : Note Binary64 → String
  | text s => s
  | rejected source => s!"rejected infeasible solution from {source}"
  | repairTooLarge name size fraction =>
    s!"{name}: repair sub-problem of size {size} above fraction {Report.number fraction}"
  | estimate name value => s!"{name} estimates {Report.number value}"

/-- A value that may be missing, in words. -/
def Report.orDash (text : Binary64 → String) : Option Binary64 → String
  | none => "-"
  | some x => text x

/-- A running time. -/
def Report.seconds : Option Binary64 → String :=
  Report.orDash (Report.cell 5 2)

/-- How a heuristic fared at a node, in words. -/
def RunReport.toText (r : RunReport Binary64) : String :=
  s!"{r.name} depth=<{r.depth}> outcome=<{r.outcome}> " ++
    s!"obj=<{Report.orDash Report.number r.objective}> obj*=<{Report.number r.best}> " ++
    s!"runtime=<{Report.seconds r.seconds}>"

/-- How the search of a sub-problem ended, in words. -/
def SubSolveReport.toText (r : SubSolveReport Binary64) : String :=
  s!"{r.label} cols=<{r.columns}> rows=<{r.rows}> nodes=<{r.nodes}> status=<{r.status}> " ++
    s!"obj=<{Report.orDash (Report.cell 10 6) r.objective}> " ++
    s!"runtime=<{Report.seconds r.seconds}>"

/-- What a heuristic did all in all, in words. -/
def Statistics.toText (s : Statistics Binary64) : String :=
  s!"{NumberFormat.alignLeft 12 s.name} runs=<{s.runs}> solutions=<{s.solutions}> " ++
    s!"sub_nodes=<{s.subSolveNodes}> runtime=<{Report.seconds s.seconds}>"

end PrimalHeuristics
