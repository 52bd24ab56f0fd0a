import PrimalHeuristics.Proofs.Binary64.Whole

/-!
# Large 64 bit floating-point numbers

From the magnitude on that stands for no bound, numbers are whole and lie further apart than the
tolerances, so a tolerance is lost when it is added. If the product of such a number is no bound, then
neither is the product of a number further away from zero.

* `Scalar.isMissing`, `Binary64.isMissing_iff`: numbers of that magnitude;
* `Binary64.add_eq_self`: a small number is lost when it is added to one of them;
* `Binary64.floor_eq_self`, `Binary64.ceil_eq_self`: they are whole;
* `Binary64.isBound_mul_eq_false`: products with numbers further away from zero.
-/

namespace PrimalHeuristics

/-- The magnitude says that there is no bound. -/
def Scalar.isMissing {α : Type} [Scalar α] (x : α) : Bool :=
  infiniteBound ≤ abs x

namespace Binary64

variable {x y a t : Binary64} {n m : Nat}

/-! ### Magnitudes -/

theorem magnitude_lt (x : Binary64) : x.magnitude.toNat < 2 ^ 63 := by
  rw [toNat_magnitude]
  exact Nat.mod_lt _ (Nat.two_pow_pos 63)

theorem abs_eq (x : Binary64) : x.abs = ofMagnitude false x.magnitude := rfl

theorem magnitude_abs (x : Binary64) : x.abs.magnitude.toNat = x.magnitude.toNat := by
  rw [abs_eq, magnitude_ofMagnitude x.magnitude_lt]

theorem place_abs (x : Binary64) : x.abs.place = x.magnitude.toNat := by
  unfold place
  rw [magnitude_abs, abs_eq, isNegative_ofMagnitude x.magnitude_lt]
  rfl

theorem isNaN_abs (x : Binary64) : x.abs.isNaN = x.isNaN := by
  rw [Bool.eq_iff_iff, isNaN_iff, isNaN_iff, magnitude_abs]

/-- Numbers at one place other than zero are the same. -/
theorem eq_of_place_eq (h : x.place = y.place) (hx : x.place ≠ 0) : x = y := by
  unfold place at h hx
  cases hxs : x.isNegative <;> cases hys : y.isNegative <;>
    simp only [hxs, hys, if_true, Bool.false_eq_true, if_false] at h hx
  · exact ext_magnitude (hxs.trans hys.symm) (by omega)
  · omega
  · omega
  · exact ext_magnitude (hxs.trans hys.symm) (by omega)

/-- The least magnitude that stands for no bound. -/
theorem infiniteBound_eq : (Scalar.infiniteBound : Binary64).isNaN = false ∧
    (Scalar.infiniteBound : Binary64).place = 0x4415AF1D78B58C40 := by
  decide

theorem isBound_iff : Scalar.isBound x = true ↔ x.magnitude.toNat < 0x4415AF1D78B58C40 := by
  obtain ⟨hn, hp⟩ := infiniteBound_eq
  show decide (x.abs.lt Scalar.infiniteBound = true) = true ↔ _
  rw [decide_eq_true_iff]
  constructor
  · intro h
    have h := (lt_iff_place (isNaN_of_lt h).1 hn).1 h
    rw [place_abs, hp] at h
    omega
  · intro h
    have hx : x.abs.isNaN = false := by
      rw [isNaN_abs, Bool.eq_false_iff, Ne, isNaN_iff, toNat_infinityWord]
      omega
    rw [lt_iff_place hx hn, place_abs, hp]
    omega

theorem isMissing_iff : Scalar.isMissing x = true ↔
    0x4415AF1D78B58C40 ≤ x.magnitude.toNat ∧ x.isNaN = false := by
  obtain ⟨hn, hp⟩ := infiniteBound_eq
  show decide ((Scalar.infiniteBound : Binary64).le x.abs = true) = true ↔ _
  rw [decide_eq_true_iff]
  constructor
  · intro h
    have hx := (isNaN_of_le h).2
    have h := (le_iff_place hn hx).1 h
    rw [place_abs, hp] at h
    rw [isNaN_abs] at hx
    exact ⟨by omega, hx⟩
  · rintro ⟨h, hx⟩
    rw [← isNaN_abs] at hx
    rw [le_iff_place hn hx, place_abs, hp]
    omega

theorem isBound_of_isMissing (h : Scalar.isMissing x = true) : Scalar.isBound x = false := by
  rw [Bool.eq_false_iff, Ne, isBound_iff]
  exact Nat.not_lt.2 (isMissing_iff.1 h).1

/-! ### What is no number -/

theorem isNaN_quiet (h : x.isNaN = true) : x.quiet.isNaN = true := by
  have hle : x.magnitude.toNat ≤ x.quiet.magnitude.toNat := by
    rw [toNat_magnitude, toNat_magnitude]
    unfold quiet
    rw [UInt64.toNat_or, Nat.or_mod_two_pow]
    exact Nat.left_le_or
  rw [isNaN_iff] at h ⊢
  omega

theorem isNaN_add (h : x.isNaN = true) (t : Binary64) : (x + t).isNaN = true := by
  have hsum : x + t = x.quiet := if_pos h
  rw [hsum, isNaN_quiet h]

theorem isNaN_sub (h : x.isNaN = true) (t : Binary64) : (x - t).isNaN = true := by
  have hdifference : x - t = x.quiet := if_pos h
  rw [hdifference, isNaN_quiet h]

/-- From a finite number every number can be subtracted. -/
theorem isNaN_sub_of_isFinite (hx : x.isFinite = true) (hy : y.isNaN = false) :
    (x - y).isNaN = false := by
  show (onNumbers (fun a b => addNumbers a b.neg) x y).isNaN = false
  unfold onNumbers addNumbers
  simp only [isNaN_of_isFinite hx, hy, isInfinite_of_isFinite hx, Bool.false_eq_true, if_false]
  split
  · rename_i hinfinite
    rw [isInfinite_iff] at hinfinite
    rw [Bool.eq_false_iff, Ne, isNaN_iff]
    omega
  · exact isNaN_addFinite _ _

/-! ### Small numbers are lost -/

/-- From the first magnitude without digits after the point on, magnitudes differ by at least one. -/
theorem unitsAt_succ_ge (h : 1075 * 2 ^ 52 ≤ m) : unitsAt m + 2 ^ 1074 ≤ unitsAt (m + 1) := by
  have hm : 2 ^ 1074 ∣ unitsAt m := wholeAt_of_le h
  have hs : 2 ^ 1074 ∣ unitsAt (m + 1) := wholeAt_of_le (by omega)
  have hlt := unitsAt_lt (Nat.lt_add_one m)
  have hle := Nat.le_of_dvd (Nat.sub_pos_of_lt hlt) (Nat.dvd_sub hs hm)
  omega

/-- What is within a half of a large magnitude is rounded to it. -/
theorem nearestScaled_eq_of_near (hm : 1075 * 2 ^ 52 < m) (hi : m < infinityWord.toNat)
    (hlow : 2 * unitsAt m < 2 * n + 2 ^ 1074) (hhigh : 2 * n < 2 * unitsAt m + 2 ^ 1074) :
    (nearestScaled n 0 0).toNat = m := by
  obtain ⟨k, rfl⟩ : ∃ k, m = k + 1 := ⟨m - 1, by omega⟩
  have hbelow := unitsAt_succ_ge (show 1075 * 2 ^ 52 ≤ k by omega)
  have habove := unitsAt_succ_ge (show 1075 * 2 ^ 52 ≤ k + 1 by omega)
  generalize 2 ^ 1074 = w at *
  have hlt := nearestScaled_lt (n := n) (Nat.lt_add_one (k + 1)) (by omega)
  have hgt := lt_nearestScaled (n := n) (Nat.lt_add_one k) (by omega) (by omega)
  omega

/-- A finite number below a half in magnitude. -/
def IsSmall (t : Binary64) : Prop :=
  t.isFinite = true ∧ 2 * t.units < 2 ^ 1074

theorem place_addFinite_of_isSmall (hx : x.isFinite = true) (hm : 1075 * 2 ^ 52 < x.magnitude.toNat)
    (ht : t.IsSmall) : (addFinite x t).place = x.place := by
  obtain ⟨-, hu⟩ := ht
  have hnear : ∀ n, 2 * unitsAt x.magnitude.toNat < 2 * n + 2 ^ 1074 →
      2 * n < 2 * unitsAt x.magnitude.toNat + 2 ^ 1074 →
        (nearestScaled n 0 0).toNat = x.magnitude.toNat :=
    fun n => nearestScaled_eq_of_near hm (isFinite_iff.1 hx)
  have hlarge : 2 ^ 1074 ≤ unitsAt x.magnitude.toNat := by
    have hle := unitsAt_succ_ge (show 1075 * 2 ^ 52 ≤ x.magnitude.toNat - 1 by omega)
    rw [Nat.sub_add_cancel (by omega)] at hle
    omega
  generalize 2 ^ 1074 = w at *
  rw [place_addFinite, signedUnits_eq]
  unfold signedUnits nearestPlace place
  -- the sum of the units keeps the sign of the large number, and is within a half of its units
  cases hxs : x.isNegative <;> cases hts : t.isNegative <;>
    simp only [if_true, Bool.false_eq_true, if_false]
  all_goals
    first | rw [if_neg (by omega)] | rw [if_pos (by omega)]
    rw [hnear _ (by omega) (by omega)]

/-- A small number is lost when it is added to a large one. -/
theorem add_eq_self (hx : Scalar.isMissing x = true) (ht : t.IsSmall) : x + t = x := by
  obtain ⟨hm, hn⟩ := isMissing_iff.1 hx
  rw [add_eq hn ht.1]
  split
  · rfl
  · have hplace := place_addFinite_of_isSmall (isFinite_of_not hn ‹_›) (by omega) ht
    refine eq_of_place_eq hplace ?_
    rw [hplace]
    unfold place
    split <;> omega

theorem isSmall_tolerances : IsSmall Scalar.feasTol ∧ IsSmall (neg Scalar.feasTol) ∧
    IsSmall Scalar.intTol ∧ IsSmall (neg Scalar.intTol) := by
  unfold IsSmall
  decide +kernel

/-! ### Large numbers are whole -/

/-- Infinite numbers, and those that are none, are their own whole number, too. -/
theorem toWhole_eq_self (h : 1075 * 2 ^ 52 ≤ x.magnitude.toNat) (away : Bool) :
    x.toWhole away = x := by
  have hwhole : wholeBelow x.magnitude = x.magnitude := by
    unfold wholeBelow
    rw [if_pos (le_wholeWord_iff.2 h)]
  unfold toWhole
  rw [hwhole, bne_self_eq_false, Bool.and_false, if_neg Bool.false_ne_true]
  exact ext_magnitude (isNegative_ofMagnitude x.magnitude_lt _)
    (magnitude_ofMagnitude x.magnitude_lt _)

theorem toWhole_of_not_isFinite (h : ¬ x.isFinite = true) (away : Bool) :
    x.toWhole away = x := by
  rw [isFinite_iff, toNat_infinityWord] at h
  exact toWhole_eq_self (by omega) away

theorem isFinite_toWhole (hx : x.isFinite = true) (away : Bool) :
    (x.toWhole away).isFinite = true := by
  by_cases hlarge : 1075 * 2 ^ 52 ≤ x.magnitude.toNat
  · rw [toWhole_eq_self hlarge]
    exact hx
  · have hwhole : ∃ m : UInt64, x.toWhole away = ofMagnitude x.isNegative m ∧
        m.toNat ≤ 1075 * 2 ^ 52 := by
      unfold toWhole
      refine ⟨_, rfl, ?_⟩
      split
      · rename_i hnext
        rw [Bool.and_eq_true, bne_iff_ne] at hnext
        exact (wholeAbove_bounds hnext.2).2.1
      · exact (wholeBelow_le _).trans (by omega)
    obtain ⟨m, hm, hle⟩ := hwhole
    rw [hm, isFinite_iff, magnitude_ofMagnitude (by omega), toNat_infinityWord]
    omega

theorem le_magnitude_of_isMissing (hx : Scalar.isMissing x = true) :
    1075 * 2 ^ 52 ≤ x.magnitude.toNat := by
  have hm := (isMissing_iff.1 hx).1
  omega

section Tolerances

variable (hx : Scalar.isMissing x = true)

include hx

theorem add_feasTol_eq_self : x + Scalar.feasTol = x :=
  add_eq_self hx isSmall_tolerances.1

theorem sub_feasTol_eq_self : x - Scalar.feasTol = x := by
  obtain ⟨ht, hneg, -⟩ := isSmall_tolerances
  rw [sub_eq_add_neg ht.1 hneg.1, add_eq_self hx hneg]

theorem floor_add_eq_self : Scalar.floor (x + Scalar.intTol) = x := by
  obtain ⟨-, -, ht, -⟩ := isSmall_tolerances
  rw [add_eq_self hx ht]
  exact toWhole_eq_self (le_magnitude_of_isMissing hx) _

theorem ceil_sub_eq_self : Scalar.ceil (x - Scalar.intTol) = x := by
  obtain ⟨-, -, ht, hneg⟩ := isSmall_tolerances
  rw [sub_eq_add_neg ht.1 hneg.1, add_eq_self hx hneg]
  exact toWhole_eq_self (le_magnitude_of_isMissing hx) _

end Tolerances

/-! ### Products -/

theorem nearestScaled_sub {up down : Nat} (h : down ≤ up) :
    nearestScaled n up down = nearestScaled n (up - down) 0 := by
  have hexp : n.log2 + up - (down + 52) = n.log2 + (up - down) - (0 + 52) := by omega
  unfold nearestScaled
  rw [hexp]
  generalize n.log2 + (up - down) - (0 + 52) = s
  dsimp only
  rw [show up - (down + s) = up - down - (0 + s) by omega,
    show down + s - up = 0 + s - (up - down) by omega]

theorem exponent_of_isMissing (hx : Scalar.isMissing x = true) : 1074 ≤ x.exponent := by
  have hm := (isMissing_iff.1 hx).1
  rw [exponent_eq]
  omega

/-- The product of finite numbers is rounded once. -/
theorem mul_eq (ha : a.isFinite = true) (hx : x.isFinite = true) :
    a * x = ofMagnitude (a.isNegative != x.isNegative)
      (nearestScaled (a.significand * x.significand) (a.exponent + x.exponent) 1074) := by
  show onNumbers mulNumbers a x = _
  unfold onNumbers mulNumbers
  rw [isNaN_of_isFinite ha, isNaN_of_isFinite hx, isInfinite_of_isFinite ha,
    isInfinite_of_isFinite hx]
  rfl

/-- The product of numbers that are not small is a whole number of units before it is rounded. -/
theorem magnitude_mul (ha : a.isFinite = true) (hf : x.isFinite = true)
    (hexp : 1074 ≤ a.exponent + x.exponent) :
    (a * x).magnitude.toNat = (nearestScaled (a.units * x.units / 2 ^ 1074) 0 0).toNat := by
  have hunits : a.units * x.units =
      a.significand * x.significand * 2 ^ (a.exponent + x.exponent - 1074) * 2 ^ 1074 := by
    unfold units
    rw [Nat.shiftLeft_eq, Nat.shiftLeft_eq, Nat.mul_assoc _ _ (2 ^ 1074), ← Nat.pow_add,
      Nat.sub_add_cancel (by omega), Nat.pow_add]
    ring
  have hle := nearestScaled_le (a.significand * x.significand) (a.exponent + x.exponent - 1074)
  rw [toNat_infinityWord] at hle
  rw [mul_eq ha hf, nearestScaled_sub (by omega), magnitude_ofMagnitude (by omega), hunits,
    Nat.mul_div_cancel _ (Nat.two_pow_pos 1074), nearestScaled_mul_two_pow]

theorem isBound_infinite (negative : Bool) :
    Scalar.isBound (ofMagnitude negative infinityWord) = false := by
  cases negative <;> decide

/-- The product with an infinite number is infinite or no number. -/
theorem isBound_mul_infinite (ha : a.isNaN = false) (hx : Scalar.isMissing x = true)
    (h : a.isInfinite = true ∨ x.isInfinite = true) : Scalar.isBound (a * x) = false := by
  obtain ⟨hm, hn⟩ := isMissing_iff.1 hx
  have hzero : x.isZero = false := by
    rw [Bool.eq_false_iff, Ne, isZero_iff]
    omega
  have hproduct : a * x = if a.isZero then invalid
      else ofMagnitude (a.isNegative != x.isNegative) infinityWord := by
    show onNumbers mulNumbers a x = _
    unfold onNumbers mulNumbers
    rw [ha, hn, hzero, Bool.or_false, if_neg Bool.false_ne_true, if_neg Bool.false_ne_true]
    dsimp only
    rw [if_pos (by simpa using h)]
  rw [hproduct]
  split
  · decide
  · exact isBound_infinite _

/-- If the product of a large number is no bound, then neither is that of a number further away from
zero. -/
theorem isBound_mul_eq_false (hx : Scalar.isMissing x = true) (hxy : x.abs ≤ y.abs)
    (h : Scalar.isBound (a * x) = false) : Scalar.isBound (a * y) = false := by
  obtain ⟨hm, -⟩ := isMissing_iff.1 hx
  obtain ⟨hxn, hyn⟩ := isNaN_of_le hxy
  have hle := (le_iff_place hxn hyn).1 hxy
  rw [place_abs, place_abs] at hle
  rw [isNaN_abs] at hyn
  have hy : Scalar.isMissing y = true := isMissing_iff.2 ⟨by omega, hyn⟩
  by_cases han : a.isNaN = true
  · -- what is no number is handed on
    have hsame : a * x = a * y := by
      show onNumbers mulNumbers a x = onNumbers mulNumbers a y
      unfold onNumbers
      rw [if_pos han, if_pos han]
    rwa [← hsame]
  have han := Bool.eq_false_iff.2 han
  by_cases hinf : a.isInfinite = true ∨ y.isInfinite = true
  · exact isBound_mul_infinite han hy hinf
  · rw [not_or] at hinf
    have haf := isFinite_of_not han hinf.1
    have hyf := isFinite_of_not hyn hinf.2
    have hxf : x.isFinite = true := by
      rw [isFinite_iff] at hyf ⊢
      omega
    have hunits : x.units ≤ y.units := by
      rw [units_eq_unitsAt, units_eq_unitsAt]
      exact unitsAt_le (by omega)
    have hmono := nearestScaled_mono 0
      (Nat.div_le_div_right (c := 2 ^ 1074) (Nat.mul_le_mul_left a.units hunits))
    have hexp := exponent_of_isMissing hx
    have hexp' := exponent_of_isMissing hy
    rw [← magnitude_mul haf hxf (by omega), ← magnitude_mul haf hyf (by omega)] at hmono
    rw [Bool.eq_false_iff, Ne, isBound_iff] at h ⊢
    omega

end Binary64

end PrimalHeuristics
