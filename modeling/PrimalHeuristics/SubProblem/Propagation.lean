import PrimalHeuristics.SubProblem.Relaxation

/-!
# Propagation of row activities

In a row, what all columns but one contribute at least and at most limits the remaining one. A sweep
applies this to every entry of every row in turn, and later entries see the bounds that earlier ones
tightened; the range of activities of a row is taken once, before its first entry.

Contributions without a limit are counted apart from the finite ones, so that one of them can be
taken off again.

* `ActivityRange`: the range of activities of a row;
* `Propagation.sweep`: one sweep over all rows;
* `Relaxation.activity`: up to a number of sweeps, then the cheapest corner of what is left.
-/

namespace PrimalHeuristics

variable {α : Type}

/-- The activities of a row over a box: finite contributions are added up, others are counted. -/
structure ActivityRange (α : Type) where
  minFinite : α
  minInfinite : Nat
  maxFinite : α
  maxInfinite : Nat

/-- Runs over a list until a step stops with its own result. -/
def foldUntil {σ ε β : Type} (step : σ → β → Checked (Except ε σ)) :
    List β → σ → Checked (Except ε σ)
  | [], s => .ok (.ok s)
  | b :: l, s =>
    match step s b with
    | .error f => .error f
    | .ok (.error e) => .ok (.error e)
    | .ok (.ok t) => foldUntil step l t

@[simp] theorem foldUntil_nil {σ ε β : Type} (step : σ → β → Checked (Except ε σ)) (s : σ) :
    foldUntil step [] s = .ok (.ok s) := rfl

theorem foldUntil_cons {σ ε β : Type} {step : σ → β → Checked (Except ε σ)} {b : β} {s t : σ}
    (l : List β) (h : step s b = .ok (.ok t)) : foldUntil step (b :: l) s = foldUntil step l t := by
  simp [foldUntil, h]

variable [Scalar α]

namespace ActivityRange

/-- The least and the greatest contribution of a column with coefficient `a`. -/
def contribution (a lower upper : α) : α × α :=
  if 0 < a then (a * lower, a * upper) else (a * upper, a * lower)

def empty : ActivityRange α :=
  ⟨0, 0, 0, 0⟩

/-- Adds a least contribution. -/
def addMin (g : ActivityRange α) (low : α) : ActivityRange α :=
  if Scalar.isBound low then { g with minFinite := g.minFinite + low }
  else { g with minInfinite := g.minInfinite + 1 }

/-- Adds a greatest contribution. -/
def addMax (g : ActivityRange α) (high : α) : ActivityRange α :=
  if Scalar.isBound high then { g with maxFinite := g.maxFinite + high }
  else { g with maxInfinite := g.maxInfinite + 1 }

/-- The range of a row over a box. -/
def ofLine (l : Line α) (b : Box α) : Checked (ActivityRange α) :=
  l.foldlM (fun g e => do
    let c := contribution e.2 (← Checked.read b.lower e.1) (← Checked.read b.upper e.1)
    return (g.addMin c.1).addMax c.2) empty

/-- The least activity. -/
def min (g : ActivityRange α) : α :=
  if 0 < g.minInfinite then -Scalar.infinity else g.minFinite

/-- The greatest activity. -/
def max (g : ActivityRange α) : α :=
  if 0 < g.maxInfinite then Scalar.infinity else g.maxFinite

/-- The least activity of all columns but the one that contributes `own` to it. -/
def minWithout (g : ActivityRange α) (own : α) : α :=
  if Scalar.isBound own then
    if 0 < g.minInfinite then -Scalar.infinity else g.minFinite - own
  else if g.minInfinite = 1 then g.minFinite
  else -Scalar.infinity

/-- The greatest activity of all columns but the one that contributes `own` to it. -/
def maxWithout (g : ActivityRange α) (own : α) : α :=
  if Scalar.isBound own then
    if 0 < g.maxInfinite then Scalar.infinity else g.maxFinite - own
  else if g.maxInfinite = 1 then g.maxFinite
  else Scalar.infinity

end ActivityRange

namespace Propagation

/-- A box in the middle of a sweep, and whether the sweep tightened it. -/
structure Progress (α : Type) where
  box : Box α
  changed : Bool

/-- The bounds of a column with coefficient `a` that a row leaves it: `a x` is at most the upper row
bound less the least rest, and at least the lower row bound less the greatest rest. -/
def limits (bounds : RowBounds α) (g : ActivityRange α) (a lower upper : α) : α × α :=
  let own := ActivityRange.contribution a lower upper
  let restMin := g.minWithout own.1
  let restMax := g.maxWithout own.2
  let (l, u) :=
    if Scalar.isBound bounds.upper && Scalar.isFinite restMin then
      let limit := (bounds.upper - restMin) / a
      if 0 < a then (lower, Scalar.min upper limit) else (Scalar.max lower limit, upper)
    else (lower, upper)
  if Scalar.isBound bounds.lower && Scalar.isFinite restMax then
    let limit := (bounds.lower - restMax) / a
    if 0 < a then (Scalar.max l limit, u) else (l, Scalar.min u limit)
  else (l, u)

/-- Bounds brought to whole numbers, for an integer column. -/
def toWhole (integer : Bool) (l : α × α) : α × α :=
  if integer then
    (Scalar.ceil (l.1 - Scalar.intTol), Scalar.floor (l.2 + Scalar.intTol))
  else l

/-- The bounds of a column are replaced where they get tighter by more than the tolerance. -/
def Progress.tighten (p : Progress α) (c : Nat) (lower upper : α) (l : α × α) : Progress α :=
  let p :=
    if lower + Scalar.feasTol < l.1 then
      ⟨⟨p.box.lower.setIfInBounds c l.1, p.box.upper⟩, true⟩
    else p
  if l.2 < upper - Scalar.feasTol then
    ⟨⟨p.box.lower, p.box.upper.setIfInBounds c l.2⟩, true⟩
  else p

/-- One entry of a row; stops with the box if no value is left for its column. -/
def tightenEntry (s : SubProblem α) (bounds : RowBounds α) (g : ActivityRange α) (p : Progress α)
    (e : Nat × α) : Checked (Except (Box α) (Progress α)) := do
  let lower ← Checked.read p.box.lower e.1
  let upper ← Checked.read p.box.upper e.1
  let l := toWhole (s.isInteger e.1) (limits bounds g e.2 lower upper)
  if l.2 + Scalar.feasTol < l.1 then return .error p.box
  else return .ok (p.tighten e.1 lower upper l)

/-- One row; stops with the box if its activity cannot come between its bounds. -/
def tightenRow (s : SubProblem α) (p : Progress α) (r : Nat) :
    Checked (Except (Box α) (Progress α)) := do
  let bounds := s.boundsOf r
  let g ← ActivityRange.ofLine (s.matrix.row r) p.box
  if bounds.upper + Scalar.feasTol < g.min || g.max < bounds.lower - Scalar.feasTol then
    return .error p.box
  else
    foldUntil (tightenEntry s bounds g) (s.matrix.row r) p

/-- One sweep over all rows. -/
def sweep (s : SubProblem α) (b : Box α) : Checked (Except (Box α) (Progress α)) :=
  foldUntil (tightenRow s) (List.range s.numRows) ⟨b, false⟩

/-- Sweeps until nothing changes, at most so many; stops with the box if a sweep does. -/
def sweeps (s : SubProblem α) : Nat → Box α → Checked (Except (Box α) (Box α))
  | 0, b => .ok (.ok b)
  | n + 1, b =>
    match sweep s b with
    | .error f => .error f
    | .ok (.error b) => .ok (.error b)
    | .ok (.ok p) => if p.changed then sweeps s n p.box else .ok (.ok p.box)

/-- Sweeps, then the cheapest corner of what is left. -/
def bound (passes : Nat) (s : SubProblem α) (b : Box α) : Checked (NodeBound α × Box α) := do
  match ← sweeps s passes b with
  | .error b => return (.infeasible, b)
  | .ok b => return (← s.cheapestCorner b, b)

end Propagation

/-- Propagation with at most so many sweeps, then the cheapest corner. -/
def Relaxation.activity (passes : Nat) : Relaxation α Unit where
  solve s b state := (Failure.ofChecked (Propagation.bound passes s b), state)

/-- The sweeps of a relaxation unless set otherwise. -/
def Relaxation.defaultPasses : Nat := 8

end PrimalHeuristics
