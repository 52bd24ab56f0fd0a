import PrimalHeuristics.Proofs.Binary64.Large

/-!
# 64 bit floating-point numbers from one on

Numbers from one on do not shrink when they are multiplied with each other, and rounding leaves them
one or more. As counts they are their whole part, unless that does not fit into 64 bits.

* `Binary64.one_le_iff`: the magnitudes of these numbers;
* `Binary64.le_mul`, `Binary64.one_le_round`: products and whole numbers;
* `Binary64.Exceeds`, `Binary64.lt_toCount_iff`: the counts that are below a whole number.
-/

namespace PrimalHeuristics

namespace Binary64

variable {x y : Binary64} {j : Nat}

/-! ### Magnitudes -/

theorem place_eq_magnitude (hx : x.isNegative = false) : x.place = x.magnitude.toNat := by
  unfold place
  rw [hx]
  rfl

/-- Numbers that are not negative are ordered by magnitude. -/
theorem le_of_magnitude_le (hx : x.isNegative = false) (hy : y.isNegative = false)
    (hyn : y.isNaN = false) (h : x.magnitude.toNat ≤ y.magnitude.toNat) : x ≤ y := by
  have hxn : x.isNaN = false := by
    rw [Bool.eq_false_iff, Ne, isNaN_iff] at hyn ⊢
    omega
  refine (le_iff_place hxn hyn).2 ?_
  rw [place_eq_magnitude hx, place_eq_magnitude hy]
  exact Int.ofNat_le.2 h

theorem one_eq : (1 : Binary64).isNaN = false ∧ (1 : Binary64).isNegative = false ∧
    (1 : Binary64).magnitude.toNat = 1023 * 2 ^ 52 := by
  decide

theorem one_le_iff : 1 ≤ x ↔
    x.isNaN = false ∧ x.isNegative = false ∧ 1023 * 2 ^ 52 ≤ x.magnitude.toNat := by
  obtain ⟨hn, hs, hmagnitude⟩ := one_eq
  constructor
  · intro h
    obtain ⟨-, hx⟩ := isNaN_of_le h
    have hle := (le_iff_place hn hx).1 h
    rw [place_eq_magnitude hs, hmagnitude] at hle
    have hxs : x.isNegative = false := by
      by_contra hneg
      unfold place at hle
      rw [if_pos (Bool.eq_true_of_not_eq_false hneg)] at hle
      omega
    rw [place_eq_magnitude hxs] at hle
    exact ⟨hx, hxs, by omega⟩
  · rintro ⟨hx, hxs, hle⟩
    exact le_of_magnitude_le hs hxs hx (by omega)

theorem units_one : (1 : Binary64).units = 2 ^ 1074 := by
  obtain ⟨-, -, hmagnitude⟩ := one_eq
  have hpacked : 1023 * 2 ^ 52 = 1022 * 2 ^ 52 + 2 ^ 52 := by omega
  rw [units_eq_unitsAt, hmagnitude, hpacked, unitsAt_packed (by omega) (.inr le_rfl),
    show 1074 = 52 + 1022 from rfl, Nat.pow_add]

/-- From one on, numbers have at least the units of one. -/
theorem le_units (hx : 1 ≤ x) : 2 ^ 1074 ≤ x.units := by
  obtain ⟨-, -, hmagnitude⟩ := one_eq
  obtain ⟨-, -, hle⟩ := one_le_iff.1 hx
  rw [← units_one, units_eq_unitsAt, units_eq_unitsAt]
  exact unitsAt_le (hmagnitude.trans_le hle)

theorem le_exponent (hx : 1 ≤ x) : 1022 ≤ x.exponent := by
  obtain ⟨-, -, hle⟩ := one_le_iff.1 hx
  rw [exponent_eq]
  omega

/-! ### Sums and products -/

theorem le_infinity (hx : x.isNaN = false) (negative : x.isNegative = false) :
    x ≤ ⟨infinityWord⟩ := by
  refine le_of_magnitude_le negative rfl rfl ?_
  rw [Bool.eq_false_iff, Ne, isNaN_iff] at hx
  exact Nat.not_lt.1 hx

/-- The product of infinite numbers that are not negative. -/
theorem mul_eq_infinity (hx : 1 ≤ x) (hy : 1 ≤ y)
    (h : ¬ (x.isInfinite = false ∧ y.isInfinite = false)) : x * y = ⟨infinityWord⟩ := by
  obtain ⟨hxn, hxs, hxm⟩ := one_le_iff.1 hx
  obtain ⟨hyn, hys, hym⟩ := one_le_iff.1 hy
  have hzero {z : Binary64} (hz : 1023 * 2 ^ 52 ≤ z.magnitude.toNat) : z.isZero = false := by
    rw [Bool.eq_false_iff, Ne, isZero_iff]
    omega
  show onNumbers mulNumbers x y = _
  unfold onNumbers mulNumbers
  rw [hxn, hyn, hxs, hys, hzero hxm, hzero hym]
  dsimp only
  rw [if_neg Bool.false_ne_true, if_neg Bool.false_ne_true, if_pos, if_neg]
  · rfl
  · decide
  · cases hxi : x.isInfinite with
    | true => rfl
    | false => simpa [hxi] using h

/-- A number does not shrink when it is multiplied with one or more. -/
theorem le_mul (hx : 1 ≤ x) (hy : 1 ≤ y) : x ≤ x * y := by
  obtain ⟨hxn, hxs, -⟩ := one_le_iff.1 hx
  obtain ⟨hyn, hys, -⟩ := one_le_iff.1 hy
  by_cases hfinite : x.isInfinite = false ∧ y.isInfinite = false
  · have hxf := isFinite_of_not hxn (Bool.eq_false_iff.1 hfinite.1)
    have hyf := isFinite_of_not hyn (Bool.eq_false_iff.1 hfinite.2)
    have hexp := le_exponent hx
    have hexp' := le_exponent hy
    have hle := nearestScaled_le (x.significand * y.significand) (x.exponent + y.exponent - 1074)
    have hproduct := mul_eq hxf hyf
    rw [nearestScaled_sub (by omega), hxs, hys] at hproduct
    refine le_of_magnitude_le hxs ?_ ?_ ?_
    · rw [hproduct]
      exact isNegative_ofMagnitude (by rw [toNat_infinityWord] at hle; omega) _
    · rw [hproduct]
      exact isNaN_rounded _ _ _
    · have hunits : x.units ≤ x.units * y.units / 2 ^ 1074 := by
        have hpos : 0 < 2 ^ 1074 := by positivity
        rw [Nat.le_div_iff_mul_le hpos]
        exact Nat.mul_le_mul_left _ (le_units hy)
      rw [magnitude_mul hxf hyf (by omega), ← nearestScaled_units hxf]
      exact nearestScaled_mono 0 hunits
  · rw [mul_eq_infinity hx hy hfinite]
    exact le_infinity hxn hxs

/-- One and a number that is not negative are one or more. -/
theorem one_le_one_add (hx : 0 ≤ x) : 1 ≤ 1 + x := by
  obtain ⟨hzero, hxn⟩ := isNaN_of_le hx
  obtain ⟨hn, -, -⟩ := one_eq
  have hplace := (le_iff_place hzero hxn).1 hx
  by_cases hinf : x.isInfinite = true
  · have hsum : 1 + x = x := by
      show onNumbers addNumbers 1 x = x
      unfold onNumbers addNumbers
      rw [hn, hxn, hinf]
      rfl
    have hxs : x.isNegative = false := by
      by_contra hneg
      have hmagnitude := isInfinite_iff.1 hinf
      unfold place at hplace
      rw [if_pos (Bool.eq_true_of_not_eq_false hneg), hmagnitude] at hplace
      exact absurd hplace (by decide)
    rw [hsum, one_le_iff, isInfinite_iff.1 hinf]
    exact ⟨hxn, hxs, by decide⟩
  · have hunits : (0 : Binary64).signedUnits = 0 := rfl
    have hle := signedUnits_le hplace
    rw [hunits] at hle
    exact Binary64.le_add_of_nonneg hn (isFinite_of_not hxn hinf) hle

theorem one_le_ofNat {n : Nat} (hn : n ≠ 0) : 1 ≤ ofNat n := by
  have hle := nearestScaled_le n 1074
  rw [toNat_infinityWord] at hle
  rw [one_le_iff]
  unfold ofNat
  rw [← ofMagnitude_false, isNegative_ofMagnitude (by omega), magnitude_ofMagnitude (by omega)]
  refine ⟨isNaN_rounded _ _ _, rfl, ?_⟩
  have hexact := nearestScaled_units (x := 1) rfl
  rw [units_one, ← Nat.one_mul (2 ^ 1074), nearestScaled_mul_two_pow, one_eq.2.2] at hexact
  rw [← hexact]
  exact nearestScaled_mono 1074 (Nat.one_le_iff_ne_zero.2 hn)

/-! ### Whole numbers and counts -/

theorem one_le_wholeBelow {m : UInt64} (h : 1023 * 2 ^ 52 ≤ m.toNat) :
    1023 * 2 ^ 52 ≤ (wholeBelow m).toNat := by
  by_cases hhigh : m.toNat < 1075 * 2 ^ 52
  · obtain ⟨-, hle, -⟩ := between_wholeBelow h hhigh
    have hexp := (Nat.le_div_iff_mul_le (Nat.two_pow_pos 52)).2 h
    exact (Nat.mul_le_mul_right _ hexp).trans hle
  · unfold wholeBelow
    rw [if_pos (le_wholeWord_iff.2 (by omega))]
    exact h

/-- What is rounded to a whole number stays one or more. -/
theorem one_le_round (hx : 1 ≤ x) : 1 ≤ x.round := by
  obtain ⟨hxn, hxs, hxm⟩ := one_le_iff.1 hx
  unfold round
  obtain ⟨hn, -, hs, hside⟩ := toWhole_bounds hxn (upperHalf x.magnitude)
  refine one_le_iff.2 ⟨hn, hs.trans hxs, ?_⟩
  -- rounding toward zero does not pass one, which is whole
  cases haway : upperHalf x.magnitude with
  | true =>
    rw [haway, if_pos rfl] at hside
    exact hxm.trans hside
  | false =>
    have hle := one_le_wholeBelow hxm
    have hlt := (wholeBelow_le x.magnitude).trans_lt x.magnitude_lt
    unfold toWhole
    rw [Bool.false_and, if_neg Bool.false_ne_true, magnitude_ofMagnitude hlt]
    exact hle

/-- The larger of a number from one on and of one. -/
theorem max_one (hx : 1 ≤ x) : Scalar.max x 1 = x := by
  obtain ⟨hn, hs, hmagnitude⟩ := one_eq
  obtain ⟨hxn, hxs, hxm⟩ := one_le_iff.1 hx
  have hn' : Scalar.isNaN (1 : Binary64) = false := hn
  unfold Scalar.max
  rw [hn', if_neg Bool.false_ne_true]
  split
  · rfl
  · rename_i hlt
    have hplace := (le_iff_place hxn hn).1 (le_of_not_lt hn hxn hlt)
    rw [place_eq_magnitude hs, place_eq_magnitude hxs] at hplace
    exact ext_magnitude (hs.trans hxs.symm) (by omega)

/-- The count is below the number, which may be infinite. -/
def Exceeds (x : Binary64) (j : Nat) : Prop :=
  x.isInfinite = true ∨ j * 2 ^ 1074 < x.units

instance (x : Binary64) (j : Nat) : Decidable (x.Exceeds j) :=
  inferInstanceAs (Decidable (_ ∨ _))

/-- The counts below a whole number are those below its count, as far as they fit into 64 bits. -/
theorem lt_toCount_iff (hx : 1 ≤ x) (hwhole : x.IsWhole) (hj : j + 1 < UInt64.size) :
    j < x.toCount ↔ x.Exceeds j := by
  obtain ⟨hxn, hxs, -⟩ := one_le_iff.1 hx
  unfold toCount Exceeds
  rw [hxn, hxs, Bool.or_false, if_neg Bool.false_ne_true]
  cases hinf : x.isInfinite with
  | true =>
    rw [if_pos rfl]
    exact iff_of_true (Nat.lt_sub_of_add_lt hj) (.inl rfl)
  | false =>
    obtain ⟨q, hq⟩ := hwhole
    have hcount : x.units >>> 1074 = q := by
      rw [Nat.shiftRight_eq_div_pow, units_eq_unitsAt, hq,
        Nat.mul_div_cancel_left q (Nat.two_pow_pos 1074)]
    have hunits : j * 2 ^ 1074 < x.units ↔ j < q := by
      rw [units_eq_unitsAt, hq, Nat.mul_comm, Nat.mul_lt_mul_left (Nat.two_pow_pos 1074)]
    rw [if_neg Bool.false_ne_true, hcount, hunits]
    show j < min q (UInt64.size - 1) ↔ _
    rw [lt_min_iff]
    simp only [Bool.false_eq_true, false_or]
    exact ⟨And.left, fun h => ⟨h, Nat.lt_sub_of_add_lt hj⟩⟩

end Binary64

end PrimalHeuristics
