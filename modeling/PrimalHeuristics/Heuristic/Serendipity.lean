import PrimalHeuristics.Heuristic.Attempt

/-!
# Solutions by luck, and greedy covers

A solution that the relaxation came across on its own is picked up if it counts. Otherwise, if all
columns are binary and all rows ask for a minimum of a sum with positive coefficients, a cover is
built greedily: as long as a row is not covered, the column is taken that is cheapest for each such
row it helps, with a small random term.

* `Serendipity.capture`: the solution of the relaxation, if it counts;
* `Cover.extend`: one more column;
* `Serendipity.cover`: the cover, if there is one;
* `Serendipity.trial`: a run.
-/

namespace PrimalHeuristics

/-- The part of a serendipity heuristic that is its own. -/
structure Serendipity (α : Type) where
  /-- The scale of the random term that is added to scores. -/
  jitter : α

variable {α : Type} [Scalar α]

/-- All rows ask for a minimum with positive coefficients, and all columns are binary. -/
def Problem.isCovering (p : Problem α) : Bool :=
  ((List.range p.numRows).all fun r =>
    !Scalar.isBound (p.boundsOf r).upper && (p.matrix.row r).all fun e => (0 : α) < e.2) &&
  (List.range p.numCols).all p.isBinary

/-- A choice of columns, with the activities of all rows. -/
structure Cover (α : Type) where
  point : Array α
  activities : Array α

namespace Cover

/-- An entry that is one, up to the tolerance, or more. -/
def reachesOne (x : α) : Bool :=
  1 - Scalar.intTol ≤ x

/-- The columns that are chosen from the start: those that the relaxation or the lower bound has at
one, unless the upper bound forbids it. -/
def start (p : Problem α) (n : Node α) : Checked (Cover α) := do
  let x ← (Array.range p.numCols).mapM fun c => do
    let chosen : Bool := reachesOne (← Checked.read n.solution c) ||
      reachesOne (← Checked.read n.box.lower c)
    return if chosen && reachesOne (← Checked.read n.box.upper c) then 1 else 0
  return ⟨x, ← p.matrix.activities x⟩

/-- The row is not covered. -/
def isOpen (p : Problem α) (t : Cover α) (r : Nat) : Bool :=
  t.activities.getD r 0 < (p.boundsOf r).lower - Scalar.feasTol

/-- Some row is not covered. -/
def hasOpenRow (p : Problem α) (t : Cover α) : Bool :=
  (List.range p.numRows).any (isOpen p t)

/-- The number of open rows that a column helps; zero if it cannot be chosen. -/
def helps (p : Problem α) (upper : Array α) (t : Cover α) (c : Nat) : Nat :=
  if Scalar.decimal 5 1 < t.point.getD c 0 || upper.getD c 0 < 1 - Scalar.intTol then 0
  else (p.matrix.column c).countP fun e => isOpen p t e.1

/-- The cheaper of a column and the best one so far; a column that helps takes a number from the
stream. -/
def consider (p : Problem α) (upper : Array α) (jitter : α) (t : Cover α)
    (s : Option (Nat × α) × Stream) (c : Nat) : Option (Nat × α) × Stream :=
  let h := helps p upper t c
  if h = 0 then s
  else
    let (random, stream) := s.2.uniform α
    let score := p.cost c / Scalar.ofNat h + jitter * random
    match s.1 with
    | none => (some (c, score), stream)
    | some (d, least) => (if score < least then some (c, score) else some (d, least), stream)

/-- The column to choose next, with the stream afterwards. -/
def next (p : Problem α) (upper : Array α) (jitter : α) (t : Cover α) (stream : Stream) :
    Option Nat × Stream :=
  let (best, stream) :=
    (List.range p.numCols).foldl (consider p upper jitter t) (none, stream)
  (best.map (·.1), stream)

/-- Chooses a column. -/
def choose (p : Problem α) (t : Cover α) (c : Nat) : Cover α where
  point := t.point.setIfInBounds c 1
  activities := (p.matrix.column c).foldl (fun y e => y.modify e.1 (· + e.2)) t.activities

/-- Chooses columns until all rows are covered, if so many columns suffice. -/
def extend (p : Problem α) (upper : Array α) (jitter : α) :
    Nat → Cover α → Stream → Option (Cover α) × Stream
  | fuel, t, stream =>
    if hasOpenRow p t then
      match fuel, next p upper jitter t stream with
      | fuel + 1, (some c, stream) => extend p upper jitter fuel (t.choose p c) stream
      | _, (_, stream) => (none, stream)
    else (some t, stream)

end Cover

namespace Serendipity

def defaultJitter : α :=
  Scalar.decimal 1 6

/-- A heuristic with the default jitter. -/
def fresh : Serendipity α :=
  ⟨defaultJitter⟩

/-- The solution that the relaxation came across, if it is feasible and strictly better than the
best. -/
def capture (p : Problem α) (n : Node α) (best : α) : Checked (Option (α × Array α)) := do
  match n.solverSolution with
  | none => return none
  | some (_, x) =>
    if ← p.isFeasible x n.box.lower n.box.upper then
      let objective := p.objectiveValue x
      return if objective < best then some (objective, x) else none
    else return none

/-- A greedy cover, with the stream afterwards. No column is chosen twice, so their number is fuel
enough. -/
def cover (jitter : α) (p : Problem α) (n : Node α) (stream : Stream) :
    Checked (Option (Array α)) × Stream :=
  if p.isCovering then
    match Cover.start p n with
    | .error f => (.error f, stream)
    | .ok t =>
      let (t, stream) := t.extend p n.box.upper jitter p.numCols stream
      (.ok (t.map (·.point)), stream)
  else (.ok none, stream)

/-- A run. -/
def trial (s : Serendipity α) (c : Core α) (p : Problem α) (n : Node α) (best : α) :
    Trial α (Serendipity α) :=
  match capture p n best with
  | .error f => { answer := .error (.fault f), core := c, own := s }
  | .ok (some found) => { answer := .ok (some found), core := c, own := s }
  | .ok none =>
    let (x, stream) := cover s.jitter p n c.stream
    let a : Attempt α := { candidate := Failure.ofChecked x }
    { answer := a.settle p n.box best, core := { c with stream }, own := s }

end Serendipity

end PrimalHeuristics
