import PrimalHeuristics.Binary64.Arithmetic

/-!
# The fewest decimal digits of a floating-point number

A floating-point number stands for the interval of reals that round to it. `shortest` gives a
decimal of that interval with as few digits as possible, and of those the one nearest to the number.

Everything is compared exactly, in quarters of a unit, that is in `2 ^ (-1076)`: the ends of the
interval lie halfway to the neighbours, and belong to it if the significand is even. Below a power
of two the neighbour is only half as far away. On the grid of the multiples of `10 ^ g` the two
neighbours of the number are tried, for finer and finer grids.
-/

namespace PrimalHeuristics

/-- A nonnegative decimal `digits · 10 ^ exponent`. -/
structure Decimal where
  digits : Nat
  exponent : Int
  deriving DecidableEq, Repr

namespace Decimal

/-- Which of two equally near decimals is taken. -/
inductive Tie where
  | even
  | up
  deriving DecidableEq, Repr

/-- A finite positive number with the reals that round to it, in quarters of a unit. -/
structure Spread where
  value : Nat
  lower : Nat
  upper : Nat
  /-- The ends round to the number too. -/
  closed : Bool

/-- The spread of a finite number other than zero. -/
def Spread.of (x : Binary64) : Spread :=
  let m := x.significand
  let s := x.exponent
  let below := if m = Nat.pow 2 52 ∧ 0 < s then 1 else 2
  { value := (4 * m) <<< s
    lower := (4 * m - below) <<< s
    upper := (4 * m + 2) <<< s
    closed := m % 2 == 0 }

/-- Compares a decimal with a count of quarters. -/
def compareQuarters (d : Decimal) (n : Nat) : Ordering :=
  compare ((d.digits * Nat.pow 10 d.exponent.toNat) <<< 1076) (n * Nat.pow 10 (-d.exponent).toNat)

/-- A decimal that rounds to the number. -/
def Spread.contains (s : Spread) (d : Decimal) : Bool :=
  let l := d.compareQuarters s.lower
  let u := d.compareQuarters s.upper
  (l == .gt || (s.closed && l == .eq)) && (u == .lt || (s.closed && u == .eq))

/-- The least `k` for which the number is below `10 ^ k`, found near a multiple of its binary
logarithm. -/
def Spread.scale (s : Spread) : Int :=
  let k := (((s.value.log2 : Int) - 1076) * 30103) / 100000
  if compareQuarters ⟨1, k⟩ s.value = .gt then k
  else if compareQuarters ⟨1, k + 1⟩ s.value = .gt then k + 1
  else k + 2

/-- The better neighbour on the grid of `10 ^ g`, if one rounds to the number. -/
def Spread.onGrid (s : Spread) (tie : Tie) (g : Int) : Option Decimal :=
  let a := (s.value * Nat.pow 10 (-g).toNat) / (Nat.pow 10 g.toNat <<< 1076)
  let low : Decimal := ⟨a, g⟩
  let high : Decimal := ⟨a + 1, g⟩
  match s.contains low, s.contains high with
  | true, false => some low
  | false, true => some high
  | false, false => none
  | true, true =>
    match compareQuarters ⟨2 * a + 1, g⟩ (2 * s.value), tie with
    | .gt, _ => some low
    | .lt, _ => some high
    | .eq, .even => some (if a % 2 = 0 then low else high)
    | .eq, .up => some high

/-- The decimal without its trailing zeros; `fuel` bounds their number. -/
def strip : Nat → Decimal → Decimal
  | 0, d => d
  | fuel + 1, d =>
    if d.digits % 10 = 0 ∧ d.digits ≠ 0 then strip fuel ⟨d.digits / 10, d.exponent + 1⟩ else d

/-- The exact value of a finite number. -/
def exact (x : Binary64) : Decimal :=
  ⟨(x.significand <<< (x.exponent - 1074)) * Nat.pow 5 (1074 - x.exponent),
    -((1074 - x.exponent : Nat) : Int)⟩

/-- The shortest decimal that rounds to the magnitude of a finite number. -/
def shortest (tie : Tie) (x : Binary64) : Decimal :=
  if x.isZero then ⟨0, 0⟩
  else
    let s := Spread.of x
    let found := (List.range 17).findSome? fun n => s.onGrid tie (s.scale - (n + 1 : Nat))
    strip 20 (found.getD (exact x))

end Decimal

end PrimalHeuristics
