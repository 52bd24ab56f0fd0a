import PrimalHeuristics.Checked

/-!
# The numbers of the library

Every algorithm of the library is written once, for any type of numbers with the operations of
`Scalar`. Sums and products are taken in the order in which they are written, so that the answer is
also settled for a type whose operations round.

Conventions:

* `==`, `<` and `≤` compare values; a value that is not a number compares with nothing;
* `Scalar.totalCompare` is a linear order of all values, those that are not numbers included;
* a list is summed from its first entry on, and the sum of nothing is minus zero, the neutral
  element of an addition that knows signed zeros.
-/

namespace PrimalHeuristics

/-- The operations on numbers that the heuristics use, and the tolerances in that type. -/
class Scalar (α : Type) extends Zero α, One α, Add α, Sub α, Mul α, Div α, Neg α, BEq α where
  /-- Strictly below, as values. -/
  lt : α → α → Bool
  /-- Below or equal, as values. -/
  le : α → α → Bool
  /-- A count, as a number. -/
  ofNat : Nat → α
  /-- `decimal m k` is `m / 10 ^ k`. -/
  decimal : Nat → Nat → α
  /-- Above every other number. -/
  infinity : α
  /-- The distance from zero. -/
  abs : α → α
  /-- The greatest whole number that is not above. -/
  floor : α → α
  /-- The least whole number that is not below. -/
  ceil : α → α
  /-- The nearest whole number; a half goes away from zero. -/
  round : α → α
  isNaN : α → Bool
  isFinite : α → Bool
  totalCompare : α → α → Ordering
  /-- The whole part, brought into the range of 64 bit counts. -/
  toCount : α → Nat
  /-- A word that stands for the number where positions of a search tree are hashed. -/
  word : α → UInt64
  /-- Bounds and rows may be violated by this much. -/
  feasTol : α
  /-- A value this close to a whole number counts as integral. -/
  intTol : α
  /-- Nodes whose bound is this close to the incumbent are pruned. -/
  objTol : α
  /-- A bound of this magnitude is no bound. -/
  infiniteBound : α

namespace Scalar

variable {α : Type} [Scalar α]

instance (priority := low) : LT α := ⟨fun a b => lt a b = true⟩

instance (priority := low) : LE α := ⟨fun a b => le a b = true⟩

instance (a b : α) : Decidable (a < b) := inferInstanceAs (Decidable (lt a b = true))

instance (a b : α) : Decidable (a ≤ b) := inferInstanceAs (Decidable (le a b = true))

/-- The smaller of two numbers; the second of equal ones, and the other one if one is no number. -/
def min (a b : α) : α :=
  if isNaN b then a else if a < b then a else b

/-- The larger of two numbers; the second of equal ones, and the other one if one is no number. -/
def max (a b : α) : α :=
  if isNaN b then a else if b < a then a else b

/-- The point of the interval from `lower` to `upper` that is nearest to `x`. -/
def clamp (x lower upper : α) : Checked α :=
  if lower ≤ upper then
    let y := if x < lower then lower else x
    .ok (if upper < y then upper else y)
  else
    .error .emptyInterval

/-- Minus one or one, by the side of zero on which a number lies; a zero has a side too. -/
def sign (x : α) : α :=
  if isNaN x then x else if totalCompare x 0 = .lt then -1 else 1

/-- The sum of a list, from its first entry on. -/
def sum (l : List α) : α :=
  l.foldl (· + ·) (-0)

/-- The magnitude says that there is a bound. -/
def isBound (x : α) : Bool :=
  abs x < infiniteBound

/-- No whole number is further than the tolerance. -/
def isIntegral (x : α) : Bool :=
  abs (x - round x) ≤ intTol

section Choice

variable {β : Type}

/-- The first entry whose key is least. -/
def firstLeast (key : β → α) : List β → Option β
  | [] => none
  | b :: l => some <| l.foldl (fun c d => if totalCompare (key d) (key c) = .lt then d else c) b

/-- The last entry whose key is greatest. -/
def lastGreatest (key : β → α) : List β → Option β
  | [] => none
  | b :: l => some <| l.foldl (fun c d => if totalCompare (key d) (key c) = .lt then c else d) b

end Choice

end Scalar

end PrimalHeuristics
