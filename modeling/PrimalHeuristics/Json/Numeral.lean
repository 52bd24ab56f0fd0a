import PrimalHeuristics.Binary64.Arithmetic

/-!
# Numerals

A numeral has a whole part without leading zeros, and may have a sign, a fraction and an exponent.

* `Numeral.ofChars?`: the parts of a numeral;
* `Numeral.value?`: its value. Whole numbers that fit into 64 bits, with or without sign, are exact.
  All others are real numbers: digits are collected as long as they fit into 64 bits, the number
  that they make is brought to floating point, and the power of ten is multiplied or divided in
  afterwards. Each of these steps rounds. A value beyond the finite numbers is refused.
-/

namespace PrimalHeuristics

/-- The parts of a numeral. -/
structure Numeral where
  negative : Bool
  whole : List Nat
  fraction : List Nat
  /-- The power of ten, if the numeral gives one. -/
  exponent : Option Int
  deriving DecidableEq, Repr

/-- The value of a numeral. -/
inductive NumeralValue where
  | natural (n : UInt64)
  /-- A whole number below zero. -/
  | negative (n : Int64)
  | real (x : Binary64)
  deriving DecidableEq, Repr

namespace Numeral

/-! ### Reading -/

/-- The digits at the front, and the rest. -/
def digits : List Char → List Nat × List Char
  | [] => ([], [])
  | c :: rest =>
    if '0' ≤ c ∧ c ≤ '9' then ((c.toNat - 48) :: (digits rest).1, (digits rest).2)
    else ([], c :: rest)

/-- The number that digits make. -/
def ofDigits (l : List Nat) : Nat :=
  l.foldl (fun n d => 10 * n + d) 0

/-- A sign at the front, and whether it is a minus. -/
def sign : List Char → Bool × List Char
  | '-' :: rest => (true, rest)
  | '+' :: rest => (false, rest)
  | rest => (false, rest)

/-- The fraction, which needs a digit if there is a point. -/
def fraction? : List Char → Option (List Nat × List Char)
  | '.' :: rest =>
    match digits rest with
    | ([], _) => none
    | answer => some answer
  | rest => some ([], rest)

/-- The exponent, which needs a digit if there is its letter. -/
def exponent? : List Char → Option (Option Int × List Char)
  | [] => some (none, [])
  | c :: rest =>
    if c = 'e' ∨ c = 'E' then
      match digits (sign rest).2 with
      | ([], _) => none
      | (l, tail) =>
        some (some (if (sign rest).1 then -(ofDigits l : Int) else ofDigits l), tail)
    else some (none, c :: rest)

/-- The parts of a numeral that is all of a text. -/
def ofChars? (s : List Char) : Option Numeral := do
  let (negative, s) := match s with
    | '-' :: rest => (true, rest)
    | s => (false, s)
  let (whole, s) := digits s
  if whole = [] ∨ (whole.head? = some 0 ∧ 1 < whole.length) then none
  let (fraction, s) ← fraction? s
  let (exponent, s) ← exponent? s
  if s = [] then some { negative, whole, fraction, exponent } else none

/-! ### Values -/

/-- One more digit still fits into 64 bits. -/
def fits (n d : Nat) : Bool :=
  10 * n + d < UInt64.size

/-- The digits of the whole part that fit into 64 bits, as a number, and the number of others. -/
def collectWhole : Nat → List Nat → Nat × Nat
  | n, [] => (n, 0)
  | n, d :: l => if fits n d then collectWhole (10 * n + d) l else (n, l.length + 1)

/-- The digits of the fraction that still fit, after the number `n`, and how many they are. -/
def collectFraction : Nat → List Nat → Nat × Nat
  | n, [] => (n, 0)
  | n, d :: l =>
    if fits n d then
      let (m, k) := collectFraction (10 * n + d) l
      (m, k + 1)
    else (n, 0)

/-- The greatest power of ten by which is multiplied or divided at once. -/
def stepLimit : Nat := 308

/-- The number times a power of ten, if that is finite. -/
def scaleUp (x : Binary64) (k : Nat) : Option Binary64 :=
  if k ≤ stepLimit then
    let y := x * Scalar.ofNat (Nat.pow 10 k)
    if y.isInfinite then none else some y
  else if x == 0 then some x
  else none

/-- The number divided by a power of ten, in steps. -/
def scaleDown (x : Binary64) (k : Nat) : Binary64 :=
  if k ≤ stepLimit then x / Scalar.ofNat (Nat.pow 10 k)
  else if x == 0 then x
  else scaleDown (x / Scalar.ofNat (Nat.pow 10 stepLimit)) (k - stepLimit)
termination_by k
decreasing_by simp only [stepLimit] at *; omega

/-- A number scaled by a power of ten, if that is finite. -/
def scale (n : Nat) (e : Int) : Option Binary64 :=
  if 0 ≤ e then scaleUp (Scalar.ofNat n) e.toNat
  else some (scaleDown (Scalar.ofNat n) (-e).toNat)

/-- The value as a real number. -/
def real? (d : Numeral) : Option Binary64 := do
  let (n, dropped) := collectWhole 0 d.whole
  let (n, places) := collectFraction n d.fraction
  let x ← scale n (dropped - places + d.exponent.getD 0)
  return if d.negative then -x else x

/-- The numeral is a whole number without exponent that fits into 64 bits. -/
def isCount (d : Numeral) : Bool :=
  d.fraction.isEmpty && d.exponent.isNone && ofDigits d.whole < UInt64.size

/-- The value of a numeral; the zero with a sign is a real number. -/
def value? (d : Numeral) : Option NumeralValue :=
  let n := ofDigits d.whole
  if d.isCount then
    if !d.negative then some (.natural n.toUInt64)
    else if 0 < n ∧ n ≤ Nat.pow 2 63 then some (.negative (Int64.ofInt (-n)))
    else d.real?.map .real
  else d.real?.map .real

end Numeral

end PrimalHeuristics
