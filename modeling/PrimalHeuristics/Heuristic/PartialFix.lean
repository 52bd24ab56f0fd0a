import PrimalHeuristics.Heuristic.Attempt

/-!
# Fixing the important columns

Integer columns whose priority value is low are fixed at the whole numbers that the relaxation, or a
solution supplied by the user, has for them. The rest is left to a sub-problem.

* `PartialFix.derive`: the fix set of a problem;
* `PartialFix.fixColumns`: the values at which it is fixed, if all of them are whole;
* `PartialFix.trial`: a run.
-/

namespace PrimalHeuristics

/-- The part of a partial fixing heuristic that is its own. -/
structure PartialFix where
  /-- Columns with this priority value or a lower one are fixed. -/
  fixPriority : Int
  fixSet : List Nat
  /-- The number of columns of the problem for which the fix set was derived. -/
  numCols : Nat
  deriving DecidableEq, Repr

namespace PartialFix

/-- The priority value up to which columns are fixed unless set otherwise. -/
def defaultPriority : Int := 10000

/-- A heuristic that knows nothing of a problem. -/
def fresh : PartialFix :=
  ⟨defaultPriority, [], 0⟩

variable {α : Type} [Scalar α]

/-- The integer columns of a problem that are fixed. -/
def fixSetOf (p : Problem α) (priority : Int) : List Nat :=
  p.integerColumns.filter fun c => p.columns[c]?.any fun k => k.priority ≤ priority

/-- The heuristic with the fix set of a problem. -/
def derive (f : PartialFix) (p : Problem α) : PartialFix :=
  { f with fixSet := fixSetOf p f.fixPriority, numCols := p.numCols }

/-- Sets the priority value, and derives the fix set anew if there is a problem. -/
def setPriority (f : PartialFix) (priority : Int) (p : Option (Problem α)) :
    Except (Error α) PartialFix :=
  if priority < 0 then .error (.invalidSetting "fix_priority" (.negativePriority priority))
  else
    let f := { f with fixPriority := priority }
    .ok (p.elim f f.derive)

/-- The vector from which columns are fixed: the one of the user if it fits the problem. -/
def source (p : Problem α) (n : Node α) : Array α :=
  match n.hotstart with
  | some x => if x.size = p.numCols then x else n.solution
  | none => n.solution

/-- Fixes columns at the whole numbers that `x` has for them, brought between their bounds. There is
no result if the first entry that is not integral comes before a fault. -/
def fixColumns (b : Box α) (x : Array α) : List Nat → Array α → Checked (Option (Array α))
  | [], values => .ok (some values)
  | c :: l, values => do
    let v ← Checked.read x c
    if Scalar.intTol < Scalar.abs (v - Scalar.round v) then
      return none
    else
      let whole ← Scalar.clamp (Scalar.round v) (Scalar.ceil (← Checked.read b.lower c))
        (Scalar.floor (← Checked.read b.upper c))
      fixColumns b x l (values.setIfInBounds c whole)

/-- All values at which columns are fixed. -/
def values (f : PartialFix) (p : Problem α) (n : Node α) : Checked (Option (Array α)) := do
  fixColumns n.box (source p n) f.fixSet (← n.box.nearest p.numCols (source p n))

/-- The columns that are left to the sub-problem. -/
def freeFlags (f : PartialFix) (k : SubSolver) (p : Problem α) : Array Bool :=
  (Array.range p.numCols).map fun c =>
    !f.fixSet.contains c && (k.handlesContinuous || p.isInteger c)

/-- The important columns are fixed, and the rest is left to a sub-problem. -/
def attempt (f : PartialFix) (s : Settings α) (p : Problem α) (n : Node α) (best : α) :
    Attempt α :=
  match f.values p n with
  | .error e => .failed (.fault e)
  | .ok none => .nothing
  | .ok (some x) =>
    .complete s p n.box x (f.freeFlags s.subSolver p) best "partial" fun _ => []

/-- A run. -/
def trial (f : PartialFix) (c : Core α) (p : Problem α) (n : Node α) (best : α) :
    Trial α PartialFix :=
  if f.numCols = p.numCols then
    match p.emptyIntegerDomain n.box.lower n.box.upper with
    | .error e => { answer := .error (.fault e), core := c, own := f }
    | .ok (some _) => { answer := .ok none, core := c, own := f }
    | .ok none =>
      let a := f.attempt c.settings p n best
      { answer := a.settle p n.box best
        core := c.addSubSolveNodes a.subSolveNodes
        own := f
        messages := a.messages }
  else
    { answer := .error (.error (.staleModel f.numCols p.numCols)), core := c, own := f }

end PartialFix

end PrimalHeuristics
