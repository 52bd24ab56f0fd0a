import Mathlib.Algebra.Order.Floor.Ring
import Mathlib.Data.Rat.Floor
import Mathlib.Tactic
import PrimalHeuristics.Scalar

/-!
# Exact numbers

The rational numbers, two infinities, and a value for operations without a result: the numbers over
which the algorithms of the library are exact, since no operation rounds.

* `Exact` as a `Scalar`, with the tolerances `1e-6`, `1e-5`, `1e-7` and the infinite bound `1e20`;
* `Exact` as a commutative monoid under addition, so that a sum does not depend on its order;
* the orders `≤` and `<`, which compare nothing with `Exact.nan`.
-/

namespace PrimalHeuristics

/-- A rational number, an infinity, or no number. -/
inductive Exact where
  | finite (q : ℚ)
  | infinite (negative : Bool)
  /-- The answer of an operation without a result. -/
  | nan
  deriving DecidableEq

namespace Exact

/-! ### Operations -/

def add : Exact → Exact → Exact
  | finite a, finite b => finite (a + b)
  | finite _, infinite t => infinite t
  | infinite s, finite _ => infinite s
  | infinite s, infinite t => if s = t then infinite s else nan
  | nan, _ | _, nan => nan

def neg : Exact → Exact
  | finite a => finite (-a)
  | infinite s => infinite !s
  | nan => nan

def mul : Exact → Exact → Exact
  | finite a, finite b => finite (a * b)
  | finite a, infinite t => if a = 0 then nan else infinite (decide (a < 0) != t)
  | infinite s, finite b => if b = 0 then nan else infinite (s != decide (b < 0))
  | infinite s, infinite t => infinite (s != t)
  | nan, _ | _, nan => nan

def div : Exact → Exact → Exact
  | finite a, finite b =>
    if b = 0 then (if a = 0 then nan else infinite (decide (a < 0))) else finite (a / b)
  | finite _, infinite _ => finite 0
  | infinite s, finite b => infinite (s != decide (b < 0))
  | infinite _, infinite _ | nan, _ | _, nan => nan

/-- Equal, as numbers. -/
def eq : Exact → Exact → Bool
  | finite a, finite b => a = b
  | infinite s, infinite t => s = t
  | _, _ => false

/-- Strictly below, as numbers. -/
def lt : Exact → Exact → Bool
  | finite a, finite b => a < b
  | finite _, infinite t => !t
  | infinite s, finite _ => s
  | infinite s, infinite t => s && !t
  | nan, _ | _, nan => false

/-- Below or equal, as numbers. -/
def le : Exact → Exact → Bool
  | finite a, finite b => a ≤ b
  | finite _, infinite t => !t
  | infinite s, finite _ => s
  | infinite s, infinite t => s || !t
  | nan, _ | _, nan => false

/-- The order of all values, with the one that is no number at the end. -/
def totalCompare : Exact → Exact → Ordering
  | finite a, finite b => compare a b
  | finite _, infinite t => if t then .gt else .lt
  | infinite s, finite _ => if s then .lt else .gt
  | infinite s, infinite t => compare t s
  | nan, nan => .eq
  | nan, _ => .gt
  | _, nan => .lt

def isNaN : Exact → Bool
  | nan => true
  | _ => false

def isFinite : Exact → Bool
  | finite _ => true
  | _ => false

def abs : Exact → Exact
  | finite a => finite |a|
  | infinite _ => infinite false
  | nan => nan

/-- A rule that takes rational numbers to whole ones; infinities are whole already. -/
def toWhole (f : ℚ → ℤ) : Exact → Exact
  | finite a => finite (f a)
  | x => x

/-- The nearest whole number; a half goes away from zero. -/
def nearest (q : ℚ) : ℤ :=
  if 0 ≤ q then ⌊q + 1 / 2⌋ else ⌈q - 1 / 2⌉

/-- The whole part, brought into the range of 64 bit counts. -/
def toCount : Exact → Nat
  | finite a => min ⌊a⌋.toNat (UInt64.size - 1)
  | infinite s => if s then 0 else UInt64.size - 1
  | nan => 0

/-- A word for each number; different numbers may share one. -/
def word : Exact → UInt64
  | finite a => UInt64.ofInt a.num + UInt64.ofNat a.den
  | infinite s => if s then 1 else 2
  | nan => 3

instance : Scalar Exact where
  zero := finite 0
  one := finite 1
  add := add
  sub a b := a.add b.neg
  mul := mul
  div := div
  neg := neg
  beq := eq
  lt := lt
  le := le
  ofNat n := finite n
  decimal m k := finite (m / 10 ^ k)
  infinity := infinite false
  abs := abs
  floor := toWhole Int.floor
  ceil := toWhole Int.ceil
  round := toWhole nearest
  isNaN := isNaN
  isFinite := isFinite
  totalCompare := totalCompare
  toCount := toCount
  word := word
  feasTol := finite (1 / 10 ^ 6)
  intTol := finite (1 / 10 ^ 5)
  objTol := finite (1 / 10 ^ 7)
  infiniteBound := finite (10 ^ 20)

/-! ### Rules of computation -/

section Rules

variable (a b : ℚ) (s t : Bool) (x : Exact)

theorem zero_eq : (0 : Exact) = finite 0 := rfl
theorem one_eq : (1 : Exact) = finite 1 := rfl

@[simp] theorem finite_add : finite a + finite b = finite (a + b) := rfl
@[simp] theorem finite_add_infinite : finite a + infinite t = infinite t := rfl
@[simp] theorem infinite_add_finite : infinite s + finite b = infinite s := rfl
@[simp] theorem infinite_add_infinite :
    infinite s + infinite t = if s = t then infinite s else nan := rfl
@[simp] theorem nan_add : nan + x = nan := by cases x <;> rfl
@[simp] theorem add_nan : x + nan = nan := by cases x <;> rfl

@[simp] theorem neg_finite : -finite a = finite (-a) := rfl
@[simp] theorem neg_infinite : -infinite s = infinite !s := rfl
@[simp] theorem neg_nan : -nan = nan := rfl

theorem sub_eq (x y : Exact) : x - y = x + -y := rfl

@[simp] theorem finite_sub : finite a - finite b = finite (a - b) := by
  rw [sub_eq, neg_finite, finite_add, sub_eq_add_neg]

@[simp] theorem nan_sub : nan - x = nan := by rw [sub_eq, nan_add]

@[simp] theorem infinite_sub_finite : infinite s - finite b = infinite s := rfl

@[simp] theorem finite_mul : finite a * finite b = finite (a * b) := rfl

theorem le_iff {x y : Exact} : x ≤ y ↔ le x y = true := Iff.rfl
theorem lt_iff {x y : Exact} : x < y ↔ lt x y = true := Iff.rfl

@[simp] theorem finite_le : finite a ≤ finite b ↔ a ≤ b := decide_eq_true_iff
@[simp] theorem finite_lt : finite a < finite b ↔ a < b := decide_eq_true_iff
@[simp] theorem finite_le_infinite : finite a ≤ infinite t ↔ t = false := by simp [le_iff, le]
@[simp] theorem finite_lt_infinite : finite a < infinite t ↔ t = false := by simp [lt_iff, lt]
@[simp] theorem infinite_le_finite : infinite s ≤ finite b ↔ s = true := by simp [le_iff, le]
@[simp] theorem infinite_lt_finite : infinite s < finite b ↔ s = true := by simp [lt_iff, lt]
@[simp] theorem infinite_le_infinite : infinite s ≤ infinite t ↔ s = true ∨ t = false := by
  simp [le_iff, le]
@[simp] theorem infinite_lt_infinite : infinite s < infinite t ↔ s = true ∧ t = false := by
  simp [lt_iff, lt]
@[simp] theorem not_nan_le : ¬ nan ≤ x := by cases x <;> simp [le_iff, le]
@[simp] theorem not_nan_lt : ¬ nan < x := by cases x <;> simp [lt_iff, lt]
@[simp] theorem not_le_nan : ¬ x ≤ nan := by cases x <;> simp [le_iff, le]
@[simp] theorem not_lt_nan : ¬ x < nan := by cases x <;> simp [lt_iff, lt]

@[simp] theorem floor_finite : Scalar.floor (finite a) = finite ⌊a⌋ := rfl
@[simp] theorem ceil_finite : Scalar.ceil (finite a) = finite ⌈a⌉ := rfl
@[simp] theorem round_finite : Scalar.round (finite a) = finite (nearest a) := rfl
@[simp] theorem abs_finite : Scalar.abs (finite a) = finite |a| := rfl
@[simp] theorem abs_infinite : Scalar.abs (infinite s) = infinite false := rfl
@[simp] theorem abs_nan : Scalar.abs nan = nan := rfl
@[simp] theorem isNaN_finite : Scalar.isNaN (finite a) = false := rfl
@[simp] theorem isNaN_infinite : Scalar.isNaN (infinite s) = false := rfl
@[simp] theorem isNaN_nan : Scalar.isNaN nan = true := rfl
@[simp] theorem isFinite_finite : Scalar.isFinite (finite a) = true := rfl
@[simp] theorem isFinite_infinite : Scalar.isFinite (infinite s) = false := rfl
@[simp] theorem isFinite_nan : Scalar.isFinite nan = false := rfl

@[simp] theorem not_lt_infinite_true : ¬ x < infinite true := by
  rcases x with q | s | _ <;> simp
@[simp] theorem not_infinite_false_lt : ¬ infinite false < x := by
  rcases x with q | s | _ <;> simp

theorem infinity_eq : (Scalar.infinity : Exact) = infinite false := rfl
theorem feasTol_eq : (Scalar.feasTol : Exact) = finite (1 / 10 ^ 6) := rfl
theorem intTol_eq : (Scalar.intTol : Exact) = finite (1 / 10 ^ 5) := rfl
theorem objTol_eq : (Scalar.objTol : Exact) = finite (1 / 10 ^ 7) := rfl
theorem infiniteBound_eq : (Scalar.infiniteBound : Exact) = finite (10 ^ 20) := rfl

@[simp] theorem isBound_finite : Scalar.isBound (finite a) = decide (|a| < 10 ^ 20) := by
  simp only [Scalar.isBound, abs_finite, infiniteBound_eq, finite_lt]
@[simp] theorem isBound_infinite : Scalar.isBound (infinite s) = false := by
  simp [Scalar.isBound, infiniteBound_eq]
@[simp] theorem isBound_nan : Scalar.isBound nan = false := by
  simp [Scalar.isBound, infiniteBound_eq]

theorem min_finite : Scalar.min (finite a) (finite b) = finite (min a b) := by
  rw [Scalar.min, isNaN_finite, if_neg Bool.false_ne_true]
  by_cases h : a < b
  · rw [if_pos ((finite_lt a b).2 h), min_eq_left h.le]
  · rw [if_neg (mt (finite_lt a b).1 h), min_eq_right (not_lt.1 h)]

theorem max_finite : Scalar.max (finite a) (finite b) = finite (max a b) := by
  rw [Scalar.max, isNaN_finite, if_neg Bool.false_ne_true]
  by_cases h : b < a
  · rw [if_pos ((finite_lt b a).2 h), max_eq_left h.le]
  · rw [if_neg (mt (finite_lt b a).1 h), max_eq_right (not_lt.1 h)]

theorem finite_beq_zero : (finite a == 0) = decide (a = 0) := rfl

theorem finite_div (h : b ≠ 0) : finite a / finite b = finite (a / b) := if_neg h

/-- The numbers that are bounds. -/
theorem isBound_iff {x : Exact} : Scalar.isBound x = true ↔ ∃ q, x = finite q ∧ |q| < 10 ^ 20 := by
  rcases x with q | s | _ <;> simp

end Rules

/-! ### Order -/

protected theorem le_trans {x y z : Exact} (hxy : x ≤ y) (hyz : y ≤ z) : x ≤ z := by
  rcases x with a | (_ | _) | _ <;> rcases y with b | (_ | _) | _ <;>
    rcases z with c | (_ | _) | _ <;> simp_all
  exact hxy.trans hyz

protected theorem le_of_lt {x y : Exact} (h : x < y) : x ≤ y := by
  rcases x with a | (_ | _) | _ <;> rcases y with b | (_ | _) | _ <;> simp_all
  exact h.le

protected theorem lt_of_lt_of_le {x y z : Exact} (hxy : x < y) (hyz : y ≤ z) : x < z := by
  rcases x with a | (_ | _) | _ <;> rcases y with b | (_ | _) | _ <;>
    rcases z with c | (_ | _) | _ <;> simp_all
  exact hxy.trans_le hyz

protected theorem lt_of_le_of_lt {x y z : Exact} (hxy : x ≤ y) (hyz : y < z) : x < z := by
  rcases x with a | (_ | _) | _ <;> rcases y with b | (_ | _) | _ <;>
    rcases z with c | (_ | _) | _ <;> simp_all
  exact hxy.trans_lt hyz

protected theorem lt_irrefl (x : Exact) : ¬ x < x := by
  rcases x with a | (_ | _) | _ <;> simp

section Tolerance

variable {x y : Exact} {e : ℚ}

theorem lt_of_add_finite_lt (he : 0 ≤ e) (h : x + finite e < y) : x < y := by
  rcases x with a | (_ | _) | _ <;> rcases y with b | (_ | _) | _ <;> simp_all
  linarith

theorem lt_of_lt_sub_finite (he : 0 ≤ e) (h : x < y - finite e) : x < y := by
  rcases x with a | (_ | _) | _ <;> rcases y with b | (_ | _) | _ <;> simp_all
  linarith

theorem sub_finite_le (h : x ≤ y) : x - finite e ≤ y - finite e := by
  rcases x with a | (_ | _) | _ <;> rcases y with b | (_ | _) | _ <;> simp_all

theorem add_finite_le (h : x ≤ y) : x + finite e ≤ y + finite e := by
  rcases x with a | (_ | _) | _ <;> rcases y with b | (_ | _) | _ <;> simp_all

theorem sub_finite_le_finite {q : ℚ} (he : 0 ≤ e) (h : x ≤ finite q) : x - finite e ≤ finite q := by
  rcases x with a | (_ | _) | _ <;> simp_all
  linarith

theorem lt_of_not_le {q : ℚ} (hx : x ≠ nan) (h : ¬ x ≤ finite q) : finite q < x := by
  rcases x with a | (_ | _) | _ <;> simp_all

theorem le_of_not_lt {q : ℚ} (hx : x ≠ nan) (h : ¬ finite q < x) : x ≤ finite q := by
  rcases x with a | (_ | _) | _ <;> simp_all

end Tolerance

/-- The rational number that a finite value is. -/
def toRat : Exact → ℚ
  | finite q => q
  | _ => 0

@[simp] theorem toRat_finite (q : ℚ) : (finite q).toRat = q := rfl

theorem isFinite_iff {x : Exact} : Scalar.isFinite x = true ↔ x = finite x.toRat := by
  rcases x with q | s | _ <;> simp [toRat]

/-- What lies between rational numbers is one. -/
theorem eq_finite_of_between {x : Exact} {l u : ℚ} (hl : finite l ≤ x) (hu : x ≤ finite u) :
    x = finite x.toRat := by
  rcases x with q | (_ | _) | _
  · rfl
  · simp at hu
  · simp at hl
  · simp at hl

theorem eq_finite_of_isBound {x : Exact} (h : Scalar.isBound x = true) : x = finite x.toRat := by
  obtain ⟨q, rfl, -⟩ := isBound_iff.1 h
  rfl

/-! ### Sums -/

instance (priority := low) : AddCommMonoid Exact where
  add_assoc x y z := by
    rcases x with a | (_ | _) | _ <;> rcases y with b | (_ | _) | _ <;>
      rcases z with c | (_ | _) | _ <;> simp [add_assoc]
  zero_add x := by rcases x with a | s | _ <;> simp [zero_eq]
  add_zero x := by rcases x with a | s | _ <;> simp [zero_eq]
  add_comm x y := by
    rcases x with a | (_ | _) | _ <;> rcases y with b | (_ | _) | _ <;> simp [add_comm]
  nsmul := nsmulRec

theorem neg_zero_eq : -(0 : Exact) = 0 := by
  rw [zero_eq, neg_finite, neg_zero]

theorem sum_eq (l : List Exact) : Scalar.sum l = l.sum := by
  rw [Scalar.sum, neg_zero_eq, List.sum_eq_foldl]

theorem sum_finite (l : List ℚ) : (l.map finite).sum = finite l.sum := by
  induction l with
  | nil => rfl
  | cons q l ih => rw [List.map_cons, List.sum_cons, ih, List.sum_cons, finite_add]

end Exact

end PrimalHeuristics
