import PrimalHeuristics.Scalar
import PrimalHeuristics.Binary64

/-!
# Arithmetic on 64 bit floating-point numbers

A finite result is computed exactly, in whole numbers of units of `2 ^ (-1074)`, and then rounded
once: to the nearest word, on a tie to the even one. The magnitude `s · 2 ^ 52 + m`, for
`m ≤ 2 ^ 53`, stands for `m · 2 ^ s` units, also where `m` carries into the next exponent; so one
formula covers all finite words, and what exceeds them is infinite.

* `nearest`: the word nearest to a quotient of units;
* `nearestScaled`: the same for a whole number scaled by powers of two;
* `Binary64` as a `Scalar`.

A result that is no number carries the sign and the digits of the first operand that is none; an
operation on numbers without a result, such as infinity minus infinity, answers `invalid`.
-/

namespace PrimalHeuristics

namespace Binary64

/-! ### Rounding -/

/-- The whole number nearest to `n / d`, on a tie the even one. -/
def roundQuotient (n d : Nat) : Nat :=
  let q := n / d
  let r := 2 * (n % d)
  if r < d then q else if d < r then q + 1 else q + q % 2

/-- The magnitude with significand `m` and exponent `s`, or the infinite one if there is none. -/
def packed (s m : Nat) : UInt64 :=
  (Nat.min ((s <<< 52) + m) infinityWord.toNat).toUInt64

/-- The magnitude nearest to `n / d` units. -/
def nearest (n d : Nat) : UInt64 :=
  let s := (n / d).log2 - 52
  packed s (roundQuotient n (d <<< s))

/-- The magnitude nearest to `n · 2 ^ up / 2 ^ down` units. -/
def nearestScaled (n up down : Nat) : UInt64 :=
  if n = 0 then 0
  else
    let s := n.log2 + up - (down + 52)
    packed s (roundQuotient (n <<< (up - (down + s))) (1 <<< (down + s - up)))

/-! ### Operations -/

/-- What an operation on numbers answers if it has no result. -/
def invalid : Binary64 := ⟨0xFFF8000000000000⟩

/-- A value that is no number, in the form in which operations hand it on. -/
def quiet (x : Binary64) : Binary64 :=
  ⟨x.bits ||| 0x0008000000000000⟩

/-- An operation on numbers, extended to all values. -/
def onNumbers (f : Binary64 → Binary64 → Binary64) (a b : Binary64) : Binary64 :=
  if a.isNaN then a.quiet else if b.isNaN then b.quiet else f a b

/-- The sum of two finite numbers: magnitudes of one sign add up, others are subtracted, and what
cancels leaves plus zero. -/
def addFinite (a b : Binary64) : Binary64 :=
  let s := Nat.min a.exponent b.exponent
  let m := a.significand <<< (a.exponent - s)
  let n := b.significand <<< (b.exponent - s)
  if a.isNegative == b.isNegative then ofMagnitude a.isNegative (nearestScaled (m + n) s 0)
  else if m = n then ⟨0⟩
  else if n < m then ofMagnitude a.isNegative (nearestScaled (m - n) s 0)
  else ofMagnitude b.isNegative (nearestScaled (n - m) s 0)

/-- The sum of two numbers. -/
def addNumbers (a b : Binary64) : Binary64 :=
  if a.isInfinite then
    if b.isInfinite && a.isNegative != b.isNegative then invalid else a
  else if b.isInfinite then b
  else addFinite a b

def add (a b : Binary64) : Binary64 :=
  onNumbers addNumbers a b

def sub (a b : Binary64) : Binary64 :=
  onNumbers (fun a b => addNumbers a b.neg) a b

/-- The product of two numbers. -/
def mulNumbers (a b : Binary64) : Binary64 :=
  let negative := a.isNegative != b.isNegative
  if a.isInfinite || b.isInfinite then
    if a.isZero || b.isZero then invalid else ofMagnitude negative infinityWord
  else
    ofMagnitude negative
      (nearestScaled (a.significand * b.significand) (a.exponent + b.exponent) 1074)

def mul (a b : Binary64) : Binary64 :=
  onNumbers mulNumbers a b

/-- The quotient of two numbers. -/
def divNumbers (a b : Binary64) : Binary64 :=
  let negative := a.isNegative != b.isNegative
  if a.isInfinite then
    if b.isInfinite then invalid else ofMagnitude negative infinityWord
  else if b.isInfinite then ofMagnitude negative 0
  else if b.isZero then
    if a.isZero then invalid else ofMagnitude negative infinityWord
  else
    ofMagnitude negative <|
      nearest (a.significand <<< (a.exponent + 1074 - b.exponent))
        (b.significand <<< (b.exponent - (a.exponent + 1074)))

def div (a b : Binary64) : Binary64 :=
  onNumbers divNumbers a b

/-- The number nearest to a count. -/
def ofNat (n : Nat) : Binary64 :=
  ⟨nearestScaled n 1074 0⟩

/-- The number nearest to `m / 10 ^ k`. -/
def decimal (m k : Nat) : Binary64 :=
  ⟨nearest (m <<< 1074) (Nat.pow 10 k)⟩

/-- The tolerances are the numbers nearest to `1e-6`, `1e-5`, `1e-7` and `1e20`. -/
instance : Scalar Binary64 where
  zero := ⟨0⟩
  one := ⟨oneWord⟩
  add := add
  sub := sub
  mul := mul
  div := div
  neg := neg
  beq := eq
  lt := lt
  le := le
  ofNat := ofNat
  decimal := decimal
  infinity := ⟨infinityWord⟩
  abs := abs
  floor := floor
  ceil := ceil
  round := round
  isNaN := isNaN
  isFinite := isFinite
  totalCompare := totalCompare
  toCount := toCount
  word := bits
  feasTol := ⟨0x3EB0C6F7A0B5ED8D⟩
  intTol := ⟨0x3EE4F8B588E368F1⟩
  objTol := ⟨0x3E7AD7F29ABCAF48⟩
  infiniteBound := ⟨0x4415AF1D78B58C40⟩

theorem tolerances_eq :
    (Scalar.feasTol : Binary64) = decimal 1 6 ∧ (Scalar.intTol : Binary64) = decimal 1 5 ∧
      (Scalar.objTol : Binary64) = decimal 1 7 ∧
      (Scalar.infiniteBound : Binary64) = ofNat (Nat.pow 10 20) := by
  decide +kernel

end Binary64

end PrimalHeuristics
