import PrimalHeuristics.Decimal.Shortest

/-!
# How decimals are written

A `NumberFormat` holds the decisions of a text format for finite numbers; `NumberFormat.text` writes
the shortest digits of a number in it. `fixedPlaces` writes a number rounded to a set number of
places instead: of its exact binary value, ties to even.

Signs are written for negative numbers and for minus zero.
-/

namespace PrimalHeuristics

/-- The decisions of a text format for finite numbers. -/
structure NumberFormat where
  /-- The decimal exponents of the leading digit at which a number is written without exponent. -/
  positional : Int → Bool
  /-- A whole number without exponent is written with a point and a zero. -/
  pointZero : Bool
  /-- A positive exponent is written with its sign. -/
  plusSign : Bool
  tie : Decimal.Tie

namespace NumberFormat

def zeros (n : Nat) : String :=
  "".pushn '0' n

/-- The digits with the point at its place. -/
def positionalText (pointZero : Bool) (d : Decimal) : String :=
  let ds := toString d.digits
  if 0 ≤ d.exponent then
    ds ++ zeros d.exponent.toNat ++ (if pointZero then ".0" else "")
  else
    let places := (-d.exponent).toNat
    if places < ds.length then
      (ds.take (ds.length - places)).toString ++ "." ++ (ds.drop (ds.length - places)).toString
    else
      "0." ++ zeros (places - ds.length) ++ ds

/-- The decimal exponent of the leading digit. -/
def leadingExponent (d : Decimal) : Int :=
  d.exponent + ((toString d.digits).length : Int) - 1

/-- The digits with the point after the first one, and the exponent. -/
def exponentText (plusSign : Bool) (d : Decimal) : String :=
  let ds := toString d.digits
  let e := leadingExponent d
  let mantissa :=
    if ds.length ≤ 1 then ds else (ds.take 1).toString ++ "." ++ (ds.drop 1).toString
  mantissa ++ "e" ++ (if 0 ≤ e && plusSign then "+" else "") ++ toString e

/-- A finite number in the format. -/
def text (f : NumberFormat) (x : Binary64) : String :=
  let d := Decimal.shortest f.tie x
  (if x.isNegative then "-" else "") ++
    if f.positional (leadingExponent d) then positionalText f.pointZero d
    else exponentText f.plusSign d

/-- A finite number with a set number of places. -/
def fixedPlaces (places : Nat) (x : Binary64) : String :=
  let n := Binary64.roundQuotient (x.units * Nat.pow 10 places) (1 <<< 1074)
  let ds := toString n
  let padded := zeros (places + 1 - ds.length) ++ ds
  (if x.isNegative then "-" else "") ++
    if places = 0 then padded
    else
      (padded.take (padded.length - places)).toString ++ "." ++
        (padded.drop (padded.length - places)).toString

/-- A text with blanks in front, up to a width. -/
def alignRight (width : Nat) (s : String) : String :=
  "".pushn ' ' (width - s.length) ++ s

/-- A text with blanks behind, up to a width. -/
def alignLeft (width : Nat) (s : String) : String :=
  s.pushn ' ' (width - s.length)

end NumberFormat

end PrimalHeuristics
