import PrimalHeuristics.Decimal.Layout

/-!
# Numbers in messages

Messages write numbers with the fewest digits that read back, and never with an exponent; tables
write them with a set number of places. Infinite values and values that are no number are words.
-/

namespace PrimalHeuristics

namespace Report

/-- A value that is not finite, as a word, and any other as `finite` writes it. -/
def withWords (finite : Binary64 → String) (x : Binary64) : String :=
  if x.isNaN then "NaN"
  else if x.isInfinite then (if x.isNegative then "-inf" else "inf")
  else finite x

/-- Numbers in messages have no exponent and no needless point, and ties go up. -/
def plain : NumberFormat where
  positional _ := true
  pointZero := false
  plusSign := false
  tie := .up

/-- A number in a message. -/
def number : Binary64 → String :=
  withWords plain.text

/-- A number in a table, with a set number of places. -/
def rounded (places : Nat) : Binary64 → String :=
  withWords (NumberFormat.fixedPlaces places)

/-- A number in a column of a table. -/
def cell (width places : Nat) (x : Binary64) : String :=
  NumberFormat.alignRight width (rounded places x)

end Report

end PrimalHeuristics
