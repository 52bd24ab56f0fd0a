import Mathlib.Data.Nat.Bitwise
import Mathlib.Tactic.NormNum
import Mathlib.Tactic.Ring
import PrimalHeuristics.Binary64

/-!
# The order of 64 bit floating-point numbers

A word that is a number stands at a place on a line: its magnitude, counted up from zero for
nonnegative words and down from zero for negative ones. Both zeros have the place zero.

* `Binary64.place`: the place of a word;
* `Binary64.lt_iff_place`, `Binary64.le_iff_place`: numbers are ordered as their places are;
* `Binary64.lt_trans`, `Binary64.lt_irrefl`: so their order is a strict one;
* `Binary64.place_le_of_totalCompare`: the order of all values keeps places in order.
-/

namespace PrimalHeuristics

namespace Binary64

/-! ### Signs and magnitudes -/

theorem toNat_magnitude (x : Binary64) : x.magnitude.toNat = x.bits.toNat % 2 ^ 63 := by
  unfold magnitude
  rw [UInt64.toNat_and]
  exact Nat.and_two_pow_sub_one_eq_mod x.bits.toNat 63

theorem isNegative_iff {x : Binary64} : x.isNegative = true ↔ 2 ^ 63 ≤ x.bits.toNat := by
  unfold isNegative
  rw [decide_eq_true_iff, UInt64.le_iff_toNat_le]
  rfl

theorem isNaN_iff {x : Binary64} :
    x.isNaN = true ↔ infinityWord.toNat < x.magnitude.toNat := by
  unfold isNaN
  rw [decide_eq_true_iff, UInt64.lt_iff_toNat_lt]

theorem isZero_iff {x : Binary64} : x.isZero = true ↔ x.magnitude.toNat = 0 := by
  unfold isZero
  rw [beq_iff_eq, ← UInt64.toNat_inj]
  rfl

theorem isFinite_iff {x : Binary64} :
    x.isFinite = true ↔ x.magnitude.toNat < infinityWord.toNat := by
  unfold isFinite
  rw [decide_eq_true_iff, UInt64.lt_iff_toNat_lt]

theorem isInfinite_iff {x : Binary64} :
    x.isInfinite = true ↔ x.magnitude.toNat = infinityWord.toNat := by
  unfold isInfinite
  rw [beq_iff_eq, ← UInt64.toNat_inj]

theorem toNat_infinityWord : infinityWord.toNat = 2047 * 2 ^ 52 := rfl

/-- A word is its sign and its magnitude. -/
theorem ext_magnitude {x y : Binary64} (hs : x.isNegative = y.isNegative)
    (hm : x.magnitude.toNat = y.magnitude.toNat) : x = y := by
  have hs : 2 ^ 63 ≤ x.bits.toNat ↔ 2 ^ 63 ≤ y.bits.toNat := by
    rw [← isNegative_iff, ← isNegative_iff, hs]
  rw [toNat_magnitude, toNat_magnitude] at hm
  have hx := x.bits.toNat_lt
  have hy := y.bits.toNat_lt
  have hb : x.bits = y.bits := UInt64.toNat_inj.1 (by omega)
  cases x; cases y; exact congrArg Binary64.mk hb

theorem toNat_bits_ofMagnitude {m : UInt64} (h : m.toNat < 2 ^ 63) (negative : Bool) :
    (ofMagnitude negative m).bits.toNat = m.toNat + if negative then 2 ^ 63 else 0 := by
  unfold ofMagnitude
  cases negative with
  | false => rfl
  | true =>
    have hor := Nat.two_pow_add_eq_or_of_lt h 1
    rw [Nat.mul_one] at hor
    show (m ||| signWord).toNat = m.toNat + 2 ^ 63
    rw [UInt64.toNat_or, Nat.or_comm, Nat.add_comm]
    exact hor.symm

theorem magnitude_ofMagnitude {m : UInt64} (h : m.toNat < 2 ^ 63) (negative : Bool) :
    (ofMagnitude negative m).magnitude.toNat = m.toNat := by
  rw [toNat_magnitude, toNat_bits_ofMagnitude h]
  split <;> omega

theorem isNegative_ofMagnitude {m : UInt64} (h : m.toNat < 2 ^ 63) (negative : Bool) :
    (ofMagnitude negative m).isNegative = negative := by
  rw [Bool.eq_iff_iff, isNegative_iff, toNat_bits_ofMagnitude h]
  cases negative with
  | false => simpa using h
  | true => simp

/-! ### Places -/

/-- The place of a number on the line of all numbers. -/
def place (x : Binary64) : Int :=
  if x.isNegative then -(x.magnitude.toNat : Int) else x.magnitude.toNat

theorem lt_iff_place {x y : Binary64} (hx : x.isNaN = false) (hy : y.isNaN = false) :
    x.lt y = true ↔ x.place < y.place := by
  unfold lt place
  rw [hx, hy]
  cases x.isNegative <;> cases y.isNegative
  · simp [UInt64.lt_iff_toNat_lt]
  · simp only [Bool.or_self, Bool.false_eq_true, if_false, if_true, false_iff]
    omega
  · have hzero : (!(x.isZero && y.isZero)) = true ↔
        ¬ (x.magnitude.toNat = 0 ∧ y.magnitude.toNat = 0) := by
      rw [← isZero_iff, ← isZero_iff]
      cases x.isZero <;> simp
    simp only [Bool.or_self, Bool.false_eq_true, if_false, if_true]
    rw [hzero]
    omega
  · simp [UInt64.lt_iff_toNat_lt]

theorem eq_iff_place {x y : Binary64} (hx : x.isNaN = false) (hy : y.isNaN = false) :
    x.eq y = true ↔ x.place = y.place := by
  unfold eq
  rw [hx, hy]
  simp only [Bool.not_false, Bool.true_and, Bool.or_eq_true, beq_iff_eq, Bool.and_eq_true,
    isZero_iff]
  constructor
  · rintro (h | ⟨h, k⟩)
    · rw [show x = y by cases x; cases y; exact congrArg Binary64.mk h]
    · unfold place
      rw [h, k]
      simp
  · intro h
    unfold place at h
    by_cases hs : x.isNegative = y.isNegative
    · have hm : x.magnitude.toNat = y.magnitude.toNat := by
        rw [hs] at h
        split at h <;> omega
      exact .inl (congrArg bits (ext_magnitude hs hm))
    · -- numbers with one place and two signs are zeros
      right
      cases hxs : x.isNegative <;> cases hys : y.isNegative <;> simp [hxs, hys] at h hs <;> omega

theorem le_iff_place {x y : Binary64} (hx : x.isNaN = false) (hy : y.isNaN = false) :
    x.le y = true ↔ x.place ≤ y.place := by
  unfold le
  rw [Bool.or_eq_true, lt_iff_place hx hy, eq_iff_place hx hy]
  exact Int.le_iff_lt_or_eq.symm

/-! ### The strict order -/

/-- Only numbers are below others. -/
theorem isNaN_of_lt {x y : Binary64} (h : x.lt y = true) : x.isNaN = false ∧ y.isNaN = false := by
  unfold lt at h
  by_cases hn : (x.isNaN || y.isNaN) = true
  · rw [if_pos hn] at h
    contradiction
  · simpa using hn

theorem lt_trans {x y z : Binary64} (h : x.lt y = true) (k : y.lt z = true) : x.lt z = true := by
  obtain ⟨hx, hy⟩ := isNaN_of_lt h
  obtain ⟨-, hz⟩ := isNaN_of_lt k
  rw [lt_iff_place hx hy] at h
  rw [lt_iff_place hy hz] at k
  rw [lt_iff_place hx hz]
  omega

/-- What lies between zero and a finite number is finite. -/
theorem isFinite_of_le {x y : Binary64} (hpos : lt ⟨0⟩ x = true) (h : x.le y = true)
    (hy : y.isFinite = true) : x.isFinite = true := by
  obtain ⟨hzero, hx⟩ := isNaN_of_lt hpos
  rw [isFinite_iff] at hy ⊢
  have hnan : y.isNaN = false := by
    rw [← Bool.not_eq_true, isNaN_iff]
    omega
  have hplace : 0 < x.place := (lt_iff_place hzero hx).1 hpos
  have hle : x.place ≤ y.place := (le_iff_place hx hnan).1 h
  have habove : y.place ≤ y.magnitude.toNat := by
    unfold place
    split <;> omega
  have hmagnitude : x.place = x.magnitude.toNat := by
    unfold place at hplace ⊢
    split
    · rename_i hneg
      rw [if_pos hneg] at hplace
      omega
    · rfl
  omega

theorem lt_irrefl (x : Binary64) : x.lt x = false := by
  by_contra h
  have h : x.lt x = true := by simpa using h
  obtain ⟨hx, -⟩ := isNaN_of_lt h
  rw [lt_iff_place hx hx] at h
  omega

/-! ### The order of all values -/

/-- Words are ordered as their places, but that minus zero comes before zero. -/
theorem toNat_orderWord (x : Binary64) :
    (x.orderWord.toNat : Int) = 2 ^ 63 + x.place - if x.isNegative then 1 else 0 := by
  have hm := toNat_magnitude x
  have hb := x.bits.toNat_lt
  have hsign := isNegative_iff (x := x)
  unfold orderWord place
  cases hs : x.isNegative with
  | true =>
    have hle : 2 ^ 63 ≤ x.bits.toNat := hsign.1 hs
    show ((~~~x.bits).toNat : Int) = 2 ^ 63 + -(x.magnitude.toNat : Int) - 1
    rw [UInt64.toNat_not, show UInt64.size = 2 ^ 64 from rfl]
    omega
  | false =>
    have hlt : x.bits.toNat < 2 ^ 63 := by
      rw [← Nat.not_le, ← hsign, hs]
      exact Bool.false_ne_true
    have hword : (x.bits ||| signWord).toNat = x.bits.toNat + 2 ^ 63 :=
      toNat_bits_ofMagnitude hlt true
    show ((x.bits ||| signWord).toNat : Int) = 2 ^ 63 + (x.magnitude.toNat : Int) - 0
    omega

/-- The order of all values tells all words apart. -/
theorem orderWord_injective {x y : Binary64} (h : x.orderWord = y.orderWord) : x = y := by
  have hx := toNat_orderWord x
  have hy := toNat_orderWord y
  rw [h] at hx
  unfold place at hx hy
  cases hxs : x.isNegative <;> cases hys : y.isNegative <;>
    simp only [hxs, hys, Bool.false_eq_true, if_true, if_false] at hx hy
  · exact ext_magnitude (hxs.trans hys.symm) (by omega)
  · omega
  · omega
  · exact ext_magnitude (hxs.trans hys.symm) (by omega)

theorem totalCompare_ne_lt {x y : Binary64} :
    x.totalCompare y ≠ .lt ↔ y.orderWord.toNat ≤ x.orderWord.toNat := by
  unfold totalCompare
  rw [Ne, Std.compare_eq_lt, UInt64.lt_iff_toNat_lt, Nat.not_lt]

theorem place_le_of_totalCompare {x y : Binary64} (h : x.totalCompare y ≠ .lt) :
    y.place ≤ x.place := by
  rw [totalCompare_ne_lt] at h
  have hx := toNat_orderWord x
  have hy := toNat_orderWord y
  unfold place at *
  cases hs : x.isNegative <;> cases ht : y.isNegative <;>
    simp only [hs, ht, Bool.false_eq_true, if_true, if_false] at hx hy ⊢ <;> omega

end Binary64

end PrimalHeuristics
