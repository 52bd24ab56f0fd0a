/-!
# Binary floating-point numbers of 64 bits

A number is its word: a sign bit, eleven exponent bits and 52 fraction bits. This module holds the
kinds of words and their orders; `Binary64.Arithmetic` rounds exact results to words.

Conventions:

* the *magnitude* is the word without its sign. Magnitudes are ordered as the numbers are, the
  infinite one is `infinityWord`, and those above it are no numbers;
* a finite magnitude `m` stands for `significand · 2 ^ exponent` *units* of `2 ^ (-1074)`, where
  `exponent` is zero for the two lowest exponent fields;
* zeros of both signs are equal numbers, but `totalCompare` puts minus zero first.
-/

namespace PrimalHeuristics

/-- A floating-point number, as its word. -/
structure Binary64 where
  bits : UInt64
  deriving DecidableEq, Repr

namespace Binary64

/-- The word of plus infinity. -/
def infinityWord : UInt64 := 0x7FF0000000000000

/-- The sign bit. -/
def signWord : UInt64 := 0x8000000000000000

/-- The word of one. -/
def oneWord : UInt64 := 0x3FF0000000000000

/-- The number of a sign and a magnitude. -/
def ofMagnitude (negative : Bool) (m : UInt64) : Binary64 :=
  ⟨if negative then m ||| signWord else m⟩

/-- The word without its sign. -/
def magnitude (x : Binary64) : UInt64 :=
  x.bits &&& 0x7FFFFFFFFFFFFFFF

def isNegative (x : Binary64) : Bool :=
  signWord ≤ x.bits

def isNaN (x : Binary64) : Bool :=
  infinityWord < x.magnitude

def isInfinite (x : Binary64) : Bool :=
  x.magnitude == infinityWord

def isFinite (x : Binary64) : Bool :=
  x.magnitude < infinityWord

def isZero (x : Binary64) : Bool :=
  x.magnitude == 0

/-- The power of two by which the significand is scaled. -/
def exponent (x : Binary64) : Nat :=
  (x.magnitude >>> 52).toNat - 1

/-- The digits of a finite number, the hidden one included. -/
def significand (x : Binary64) : Nat :=
  x.magnitude.toNat - (x.exponent <<< 52)

/-- The magnitude of a finite number in units of `2 ^ (-1074)`. -/
def units (x : Binary64) : Nat :=
  x.significand <<< x.exponent

/-! ### Sign and order -/

/-- The number on the other side of zero. -/
def neg (x : Binary64) : Binary64 :=
  ⟨x.bits ^^^ signWord⟩

/-- The distance from zero. -/
def abs (x : Binary64) : Binary64 :=
  ⟨x.magnitude⟩

/-- Strictly below, as numbers. -/
def lt (a b : Binary64) : Bool :=
  if a.isNaN || b.isNaN then false
  else match a.isNegative, b.isNegative with
    | false, false => a.magnitude < b.magnitude
    | true, true => b.magnitude < a.magnitude
    | true, false => !(a.isZero && b.isZero)
    | false, true => false

/-- Equal, as numbers. -/
def eq (a b : Binary64) : Bool :=
  !a.isNaN && !b.isNaN && (a.bits == b.bits || (a.isZero && b.isZero))

/-- Below or equal, as numbers. -/
def le (a b : Binary64) : Bool :=
  a.lt b || a.eq b

/-- A word whose order as a number is the order of all values, from the negative ones that are no
numbers up to the positive ones that are none. -/
def orderWord (x : Binary64) : UInt64 :=
  if x.isNegative then ~~~x.bits else x.bits ||| signWord

/-- The order of all values. -/
def totalCompare (a b : Binary64) : Ordering :=
  compare a.orderWord b.orderWord

/-! ### Whole numbers -/

/-- The bits of a magnitude below the units digit, for magnitudes from one up to `2 ^ 52`. -/
def fractionWidth (m : UInt64) : UInt64 :=
  (1075 : UInt64) - (m >>> (52 : UInt64))

/-- Every magnitude from here on is a whole number, infinite or no number. -/
def wholeWord : UInt64 := 0x4330000000000000

/-- The greatest whole magnitude that is not above. -/
def wholeBelow (m : UInt64) : UInt64 :=
  if wholeWord ≤ m then m
  else if m < oneWord then 0
  else (m >>> fractionWidth m) <<< fractionWidth m

/-- The least whole magnitude above a magnitude that is not whole itself. -/
def wholeAbove (m : UInt64) : UInt64 :=
  if m < oneWord then oneWord
  else wholeBelow m + (1 <<< fractionWidth m)

/-- The distance to the whole number below is at least a half. -/
def upperHalf (m : UInt64) : Bool :=
  if wholeWord ≤ m then false
  else if m < oneWord then 0x3FE0000000000000 ≤ m
  else m &&& (1 <<< (fractionWidth m - 1)) != 0

/-- The whole number toward zero, or away from it. -/
def toWhole (x : Binary64) (away : Bool) : Binary64 :=
  ofMagnitude x.isNegative <|
    if away && wholeBelow x.magnitude != x.magnitude then wholeAbove x.magnitude
    else wholeBelow x.magnitude

/-- The greatest whole number that is not above. -/
def floor (x : Binary64) : Binary64 :=
  x.toWhole x.isNegative

/-- The least whole number that is not below. -/
def ceil (x : Binary64) : Binary64 :=
  x.toWhole !x.isNegative

/-- The nearest whole number; a half goes away from zero. -/
def round (x : Binary64) : Binary64 :=
  x.toWhole (upperHalf x.magnitude)

/-- The whole part, brought into the range of 64 bit counts. -/
def toCount (x : Binary64) : Nat :=
  if x.isNaN || x.isNegative then 0
  else if x.isInfinite then UInt64.size - 1
  else Nat.min (x.units >>> 1074) (UInt64.size - 1)

end Binary64

end PrimalHeuristics
