import PrimalHeuristics.Decimal.Layout
import PrimalHeuristics.Json.Reader
import PrimalHeuristics.Settings.Replay

/-!
# Settings as text

Settings are written as a JSON object, one field a line in the order of `Settings.fields`. Reading
is more generous: the fields may come in any order, those that are missing keep their standard
values, and those that are unknown are passed over; an array gives the fields in their order. A
field that is given twice, or has a value of another kind, spoils the text.

* `Statement.toText`: a statement, in words;
* `Settings.toText`: the object;
* `Settings.parse`: settings from a text, if they are valid.
-/

namespace PrimalHeuristics

/-! ### Writing -/

/-- Numbers always have a point or an exponent; the exponent has a sign. -/
def FieldValue.format : NumberFormat where
  positional e := -5 ≤ e && e < 16
  pointZero := true
  plusSign := true
  tie := .even

/-- The value of a field, as it is written. -/
def FieldValue.toText : FieldValue Binary64 → String
  | text s => Quoted.quote s
  | flag b => if b then "true" else "false"
  | integer n => toString n
  | real x => format.text x
  | missing => "null"

/-- A statement, in words. -/
def Statement.toText (s : Statement Binary64) : String :=
  "set_" ++ s.field ++ "(" ++ s.value.toText ++ ")"

namespace Settings

/-- The line of a field. -/
def lineOf (s : Statement Binary64) : String :=
  "  " ++ Quoted.quote s.field ++ ": " ++ s.value.toText

/-- The settings as an object. -/
def toText (s : Settings Binary64) : String :=
  "\x7b\n" ++ ",\n".intercalate (s.fields.map lineOf) ++ "\n\x7d"

end Settings

/-! ### Reading -/

namespace Json

/-- A string that has a text. -/
def toText? : Json → Option String
  | string text => text
  | _ => none

def toFlag? : Json → Option Bool
  | bool b => some b
  | _ => none

/-- The value of a number. -/
def toValue? : Json → Option NumeralValue
  | number n => n.value?
  | _ => none

/-- A word of 64 bits. -/
def toWord? (j : Json) : Option UInt64 :=
  match j.toValue? with
  | some (.natural n) => some n
  | _ => none

/-- A word of 32 bits. -/
def toHalfWord? (j : Json) : Option UInt32 :=
  match j.toValue? with
  | some (.natural n) => if n.toNat < UInt32.size then some n.toUInt32 else none
  | _ => none

/-- A whole number of 32 bits, with a sign. -/
def toInt? (j : Json) : Option Int32 :=
  match j.toValue? with
  | some (.natural n) => if n.toNat < Nat.pow 2 31 then some (Int32.ofNat n.toNat) else none
  | some (.negative n) =>
    if Int32.minValue.toInt ≤ n.toInt then some (Int32.ofInt n.toInt) else none
  | _ => none

/-- A real number; whole ones are rounded to the nearest. -/
def toReal? (j : Json) : Option Binary64 :=
  match j.toValue? with
  | some (.natural n) => some (Scalar.ofNat n.toNat)
  | some (.negative n) => some (-Scalar.ofNat n.toInt.natAbs)
  | some (.real x) => some x
  | none => none

/-- A word from a list: a string, or an object whose only member has that key and no value. -/
def toWordIn? : Json → Option String
  | string text => text
  | object [(key, null)] => key
  | _ => none

end Json

/-- The trigger with a word. -/
def Trigger.ofWord? : String → Option Trigger
  | "off" => some off
  | "at_root" => some atRoot
  | "not_at_root" => some notAtRoot
  | "always" => some always
  | _ => none

/-- The sub-solver with a word. -/
def SubSolver.ofWord? : String → Option SubSolver
  | "activity_bounds" => some activityBounds
  | _ => none

namespace Settings

/-- The settings with the value of a field replaced; an unknown field changes nothing. -/
def setField? (s : Settings Binary64) (field : String) (j : Json) : Option (Settings Binary64) :=
  match field with
  | "name" => j.toText?.map fun v => { s with name := v }
  | "when" => (j.toWordIn?.bind Trigger.ofWord?).map fun v => { s with trigger := v }
  | "trust_odd_problems" => j.toFlag?.map fun v => { s with trustOddProblems := v }
  | "number_nodes" => j.toWord?.map fun v => { s with numberNodes := v }
  | "feasibility_pump_options" => j.toInt?.map fun v => { s with feasibilityPumpOptions := v }
  | "fraction_small" => j.toReal?.map fun v => { s with fractionSmall := v }
  | "how_often" => j.toHalfWord?.map fun v => { s with howOften := v }
  | "decay_factor" => j.toReal?.map fun v => { s with decayFactor := v }
  | "seed" => j.toWord?.map fun v => { s with seed := v }
  | "far_threshold" => j.toReal?.map fun v => { s with farThreshold := v }
  | "sub_solver" => (j.toWordIn?.bind SubSolver.ofWord?).map fun v => { s with subSolver := v }
  | _ => some s

/-- The names of all fields, in order. -/
def fieldNames : List String :=
  (standard : Settings Binary64).fields.map (·.field)

/-- The settings with the values of several fields replaced. -/
def setFields? (s : Settings Binary64) (l : List (String × Json)) : Option (Settings Binary64) :=
  l.foldlM (fun s (field, j) => s.setField? field j) s

/-- The settings that a value stands for. -/
def ofJson? : Json → Option (Settings Binary64)
  | .array items =>
    if items.length ≤ fieldNames.length then standard.setFields? (fieldNames.zip items) else none
  | .object members => do
    let l ← members.mapM fun (key, j) => key.map (·, j)
    if ((l.map (·.1)).filter fieldNames.contains).Nodup then standard.setFields? l else none
  | _ => none

/-- The settings of a text, if they are valid. -/
def parse (s : String) : Except (Error Binary64) (Settings Binary64) :=
  match (Json.parse? s).bind ofJson? with
  | none => .error .unreadable
  | some settings => do
    settings.validate
    return settings

end Settings

end PrimalHeuristics
