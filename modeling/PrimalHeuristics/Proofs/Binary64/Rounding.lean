import PrimalHeuristics.Binary64.Arithmetic
import PrimalHeuristics.Proofs.Binary64.Order

/-!
# Sums of 64 bit floating-point numbers

A sum is rounded once. Rounding keeps the order of what it rounds, and it leaves alone what is a
magnitude already; so a difference is not above its first operand if the second one is positive.

* `Binary64.nearestScaled_mono`: rounding is monotone;
* `Binary64.nearestScaled_magnitude`: a finite magnitude is rounded to itself;
* `Binary64.lt_of_not_sub_objTol_le`: a bound that is not within the tolerance of a value is below
  it;
* `Binary64.add_negZero`: minus zero is neutral.
-/

namespace PrimalHeuristics

namespace Binary64

/-! ### Rounding a quotient -/

theorem le_roundQuotient (n d : Nat) : n / d ≤ roundQuotient n d := by
  unfold roundQuotient
  dsimp only
  split <;> [skip; split] <;> omega

theorem roundQuotient_le (n d : Nat) : roundQuotient n d ≤ n / d + 1 := by
  unfold roundQuotient
  dsimp only
  split <;> [skip; split] <;> omega

theorem roundQuotient_mono {n m d : Nat} (h : n ≤ m) : roundQuotient n d ≤ roundQuotient m d := by
  rcases Nat.lt_or_eq_of_le (Nat.div_le_div_right h : n / d ≤ m / d) with hq | hq
  · have hn := roundQuotient_le n d
    have hm := le_roundQuotient m d
    omega
  · -- equal quotients are ordered by their remainders
    have hr : n % d ≤ m % d := by
      have hn := Nat.div_add_mod n d
      have hm := Nat.div_add_mod m d
      rw [hq] at hn
      omega
    unfold roundQuotient
    dsimp only
    rw [hq]
    split <;> [skip; split] <;> split <;> [skip; split; skip; split; skip; split] <;> omega

/-! ### Rounding a scaled number -/

theorem toNat_packed (s m : Nat) :
    (packed s m).toNat = Nat.min (s * 2 ^ 52 + m) infinityWord.toNat := by
  unfold packed
  rw [Nat.shiftLeft_eq]
  have hle := Nat.min_le_right (s * 2 ^ 52 + m) infinityWord.toNat
  exact UInt64.toNat_ofNat_of_lt' (Nat.lt_of_le_of_lt hle infinityWord.toNat_lt)

theorem log2_mono {n m : Nat} (h : n ≤ m) : n.log2 ≤ m.log2 := by
  by_cases hn : n = 0
  · simp [hn]
  · have hm : m ≠ 0 := by omega
    rw [Nat.le_log2 hm]
    exact Nat.le_trans (Nat.log2_self_le hn) h

/-- The exponent of a rounded number. -/
def roundedExponent (n up : Nat) : Nat :=
  n.log2 + up - 52

/-- The significand of a rounded number, which may be the first one with 54 digits. -/
def roundedSignificand (n up : Nat) : Nat :=
  let s := roundedExponent n up
  roundQuotient (n <<< (up - s)) (1 <<< (s - up))

theorem nearestScaled_eq {n : Nat} (hn : n ≠ 0) (up : Nat) :
    (nearestScaled n up 0).toNat =
      Nat.min (roundedExponent n up * 2 ^ 52 + roundedSignificand n up) infinityWord.toNat := by
  unfold nearestScaled
  rw [if_neg hn]
  dsimp only
  rw [toNat_packed]
  simp only [Nat.zero_add]
  rfl

theorem roundedSignificand_le (n up : Nat) :
    roundedSignificand n up ≤ 2 ^ 53 := by
  apply Nat.le_trans (roundQuotient_le _ _)
  have hlog : n < 2 ^ (n.log2 + 1) := Nat.lt_log2_self
  rw [Nat.shiftLeft_eq, Nat.shiftLeft_eq, Nat.one_mul, Nat.succ_le_iff,
    Nat.div_lt_iff_lt_mul (Nat.two_pow_pos _), ← Nat.pow_add]
  calc n * 2 ^ (up - roundedExponent n up)
      < 2 ^ (n.log2 + 1) * 2 ^ (up - roundedExponent n up) :=
        Nat.mul_lt_mul_of_pos_right hlog (Nat.two_pow_pos _)
    _ = 2 ^ (n.log2 + 1 + (up - roundedExponent n up)) := (Nat.pow_add _ _ _).symm
    _ ≤ 2 ^ (53 + (roundedExponent n up - up)) := by
        apply Nat.pow_le_pow_right (by omega)
        unfold roundedExponent
        omega

theorem le_roundedSignificand {n : Nat} (up : Nat) (hn : n ≠ 0) (h : roundedExponent n up ≠ 0) :
    2 ^ 52 ≤ roundedSignificand n up := by
  apply Nat.le_trans _ (le_roundQuotient _ _)
  have hlog : 2 ^ n.log2 ≤ n := Nat.log2_self_le hn
  rw [Nat.shiftLeft_eq, Nat.shiftLeft_eq, Nat.one_mul, Nat.le_div_iff_mul_le (Nat.two_pow_pos _),
    ← Nat.pow_add]
  calc 2 ^ (52 + (roundedExponent n up - up))
      = 2 ^ (n.log2 + (up - roundedExponent n up)) := by
        congr 1
        unfold roundedExponent at h ⊢
        omega
    _ = 2 ^ n.log2 * 2 ^ (up - roundedExponent n up) := Nat.pow_add _ _ _
    _ ≤ n * 2 ^ (up - roundedExponent n up) := Nat.mul_le_mul_right _ hlog

theorem roundedSignificand_mono {n m up : Nat} (h : n ≤ m)
    (he : roundedExponent n up = roundedExponent m up) :
    roundedSignificand n up ≤ roundedSignificand m up := by
  unfold roundedSignificand
  dsimp only
  rw [he]
  apply roundQuotient_mono
  rw [Nat.shiftLeft_eq, Nat.shiftLeft_eq]
  exact Nat.mul_le_mul_right _ h

/-- Rounding keeps the order. -/
theorem nearestScaled_mono {n m : Nat} (up : Nat) (h : n ≤ m) :
    (nearestScaled n up 0).toNat ≤ (nearestScaled m up 0).toNat := by
  by_cases hn : n = 0
  · subst hn
    exact Nat.zero_le _
  have hm : m ≠ 0 := by omega
  rw [nearestScaled_eq hn, nearestScaled_eq hm]
  apply le_min (Nat.le_trans (Nat.min_le_left _ _) _) (Nat.min_le_right _ _)
  have he : roundedExponent n up ≤ roundedExponent m up := by
    have hlog := log2_mono h
    unfold roundedExponent
    omega
  rcases Nat.lt_or_eq_of_le he with he | he
  · -- the greater one has a hidden digit, and the smaller one carries at most once
    have hsn := roundedSignificand_le n up
    have hsm := le_roundedSignificand up hm (by omega)
    omega
  · have hs := roundedSignificand_mono h he
    omega

/-! ### Exact magnitudes -/

theorem exponent_eq (x : Binary64) : x.exponent = x.magnitude.toNat / 2 ^ 52 - 1 := by
  unfold exponent
  rw [UInt64.toNat_shiftRight, Nat.shiftRight_eq_div_pow]
  rfl

theorem significand_eq (x : Binary64) :
    x.significand = x.magnitude.toNat - x.exponent * 2 ^ 52 := by
  unfold significand
  rw [Nat.shiftLeft_eq]

theorem log2_mul_two_pow {n : Nat} (hn : n ≠ 0) (k : Nat) : (n * 2 ^ k).log2 = n.log2 + k := by
  rw [Nat.log2_eq_iff (Nat.mul_ne_zero hn (Nat.two_pow_pos _).ne')]
  have hlow := Nat.log2_self_le hn
  have hhigh : n < 2 ^ (n.log2 + 1) := Nat.lt_log2_self
  constructor
  · rw [Nat.pow_add]
    exact Nat.mul_le_mul_right _ hlow
  · rw [Nat.add_right_comm, Nat.pow_add]
    exact Nat.mul_lt_mul_of_pos_right hhigh (Nat.two_pow_pos _)

/-- Rounding leaves a finite magnitude alone. -/
theorem nearestScaled_magnitude {x : Binary64} (hx : x.isFinite = true) {up : Nat}
    (h : up ≤ x.exponent) :
    (nearestScaled (x.significand <<< (x.exponent - up)) up 0).toNat = x.magnitude.toNat := by
  rw [isFinite_iff] at hx
  have hsig := x.significand_eq
  have hexp := x.exponent_eq
  rw [Nat.shiftLeft_eq]
  by_cases hzero : x.significand = 0
  · rw [hzero, Nat.zero_mul]
    show 0 = x.magnitude.toNat
    omega
  have hpos : x.significand * 2 ^ (x.exponent - up) ≠ 0 :=
    Nat.mul_ne_zero hzero (Nat.two_pow_pos _).ne'
  have he : roundedExponent (x.significand * 2 ^ (x.exponent - up)) up = x.exponent := by
    have hlt : x.significand.log2 < 53 := (Nat.log2_lt hzero).2 (by omega)
    unfold roundedExponent
    rw [log2_mul_two_pow hzero]
    -- small numbers have no hidden digit
    by_cases hlow : x.exponent = 0
    · omega
    · have hle : 52 ≤ x.significand.log2 := (Nat.le_log2 hzero).2 (by omega)
      omega
  have hs : roundedSignificand (x.significand * 2 ^ (x.exponent - up)) up = x.significand := by
    unfold roundedSignificand
    dsimp only
    rw [he, Nat.sub_eq_zero_of_le h, Nat.shiftLeft_zero, Nat.shiftLeft_eq, Nat.one_mul]
    unfold roundQuotient
    simp [Nat.mul_div_cancel _ (Nat.two_pow_pos (x.exponent - up))]
  rw [nearestScaled_eq hpos, he, hs]
  have hle : x.exponent * 2 ^ 52 + x.significand = x.magnitude.toNat := by omega
  rw [hle]
  exact Nat.min_eq_left (Nat.le_of_lt hx)

/-- The units of a finite number are rounded to its magnitude. -/
theorem nearestScaled_units {x : Binary64} (hx : x.isFinite = true) :
    (nearestScaled x.units 0 0).toNat = x.magnitude.toNat :=
  nearestScaled_magnitude hx (Nat.zero_le _)

/-! ### Sums -/

theorem nearestScaled_le (n up : Nat) :
    (nearestScaled n up 0).toNat ≤ infinityWord.toNat := by
  by_cases hn : n = 0
  · subst hn
    exact Nat.zero_le _
  · rw [nearestScaled_eq hn]
    exact Nat.min_le_right _ _

/-- A rounded magnitude with a sign is a number. -/
theorem isNaN_rounded (negative : Bool) (n up : Nat) :
    (ofMagnitude negative (nearestScaled n up 0)).isNaN = false := by
  have hle := nearestScaled_le n up
  rw [Bool.eq_false_iff, Ne, isNaN_iff, magnitude_ofMagnitude]
  · omega
  · rw [toNat_infinityWord] at hle
    omega

theorem ofMagnitude_false (m : UInt64) : ofMagnitude false m = ⟨m⟩ := rfl

theorem isNaN_ofNat (n : Nat) : (ofNat n).isNaN = false := by
  have h := isNaN_rounded false n 1074
  rw [ofMagnitude_false] at h
  exact h

theorem place_rounded (negative : Bool) (n up : Nat) :
    (ofMagnitude negative (nearestScaled n up 0)).place =
      if negative then -((nearestScaled n up 0).toNat : Int) else (nearestScaled n up 0).toNat := by
  have hlt : (nearestScaled n up 0).toNat < 2 ^ 63 := by
    have hle := nearestScaled_le n up
    rw [toNat_infinityWord] at hle
    omega
  unfold place
  rw [isNegative_ofMagnitude hlt, magnitude_ofMagnitude hlt]

theorem isNaN_addFinite (a b : Binary64) : (addFinite a b).isNaN = false := by
  unfold addFinite
  dsimp only
  split
  · exact isNaN_rounded _ _ _
  · split
    · rfl
    · split <;> exact isNaN_rounded _ _ _

/-- A sum with a negative number is not above the other one. -/
theorem place_addFinite_le {a b : Binary64} (ha : a.isFinite = true) (hb : b.isNegative = true) :
    (addFinite a b).place ≤ a.place := by
  have hexact := nearestScaled_magnitude ha (Nat.min_le_left a.exponent b.exponent)
  have hplace : a.place =
      if a.isNegative then -(a.magnitude.toNat : Int) else a.magnitude.toNat := rfl
  rw [← hexact] at hplace
  unfold addFinite
  dsimp only
  rw [hb]
  cases hs : a.isNegative <;> rw [hs] at hplace
  · -- the magnitudes are subtracted, and the result may change its sign
    rw [if_neg (by decide)]
    split
    · rw [hplace]
      exact Int.natCast_nonneg _
    · split
      · rw [place_rounded, hplace]
        simp only [Bool.false_eq_true, if_false]
        exact Int.ofNat_le.2 (nearestScaled_mono _ (Nat.sub_le _ _))
      · rw [place_rounded, hplace]
        simp only [if_true, Bool.false_eq_true, if_false]
        omega
  · rw [if_pos (by decide), place_rounded, hplace]
    simp only [if_true]
    exact Int.neg_le_neg (Int.ofNat_le.2 (nearestScaled_mono _ (Nat.le_add_right _ _)))

/-- The tolerance for costs, below zero. -/
theorem neg_objTol : (neg Scalar.objTol).isNaN = false ∧ (neg Scalar.objTol).isInfinite = false ∧
    (neg Scalar.objTol).isNegative = true := by
  decide

theorem sub_objTol_eq {v : Binary64} (hv : v.isNaN = false) :
    v - Scalar.objTol = addNumbers v (neg Scalar.objTol) := by
  show onNumbers (fun a b => addNumbers a b.neg) v Scalar.objTol = _
  unfold onNumbers
  rw [hv]
  rfl

theorem isFinite_of_not {x : Binary64} (hx : x.isNaN = false) (h : ¬ x.isInfinite = true) :
    x.isFinite = true := by
  rw [Bool.eq_false_iff, Ne, isNaN_iff] at hx
  rw [isInfinite_iff] at h
  rw [isFinite_iff]
  omega

/-- A number less the tolerance for costs is a number, and not above it. -/
theorem place_sub_objTol_le {v : Binary64} (hv : v.isNaN = false) :
    (v - Scalar.objTol).isNaN = false ∧ (v - Scalar.objTol).place ≤ v.place := by
  obtain ⟨-, hinf, hneg⟩ := neg_objTol
  rw [sub_objTol_eq hv]
  unfold addNumbers
  rw [hinf]
  by_cases hvi : v.isInfinite = true
  · rw [if_pos hvi]
    exact ⟨hv, le_refl _⟩
  · rw [if_neg hvi]
    exact ⟨isNaN_addFinite v _, place_addFinite_le (isFinite_of_not hv hvi) hneg⟩

/-- A bound that a value less the tolerance does not reach is below the value. -/
theorem lt_of_not_sub_objTol_le {v o : Binary64} (hv : v.isNaN = false) (ho : o.isNaN = false)
    (h : ¬ v - Scalar.objTol ≤ o) : o < v := by
  obtain ⟨hn, hle⟩ := place_sub_objTol_le hv
  have h : ¬ (v - Scalar.objTol).place ≤ o.place := fun k => h ((le_iff_place hn ho).2 k)
  exact (lt_iff_place ho hv).2 (by omega)

/-- A finite number is what its units are rounded to. -/
theorem ofMagnitude_units {x : Binary64} (hx : x.isFinite = true) :
    ofMagnitude x.isNegative (nearestScaled x.units 0 0) = x := by
  have hexact := nearestScaled_units hx
  have hlt : (nearestScaled x.units 0 0).toNat < 2 ^ 63 := by
    rw [isFinite_iff, toNat_infinityWord] at hx
    omega
  apply ext_magnitude
  · exact isNegative_ofMagnitude hlt _
  · rw [magnitude_ofMagnitude hlt, hexact]

theorem magnitude_eq_zero {x : Binary64} (h : x.units = 0) : x.magnitude.toNat = 0 := by
  have hsig := x.significand_eq
  have hexp := x.exponent_eq
  unfold units at h
  rw [Nat.shiftLeft_eq, Nat.mul_eq_zero] at h
  rcases h with h | h
  · omega
  · exact absurd h (Nat.two_pow_pos _).ne'

theorem addFinite_negZero {x : Binary64} (hx : x.isFinite = true) :
    addFinite x (neg ⟨0⟩) = x := by
  have hround := ofMagnitude_units hx
  unfold addFinite
  rw [show (neg ⟨0⟩).exponent = 0 from rfl, show (neg ⟨0⟩).significand = 0 from rfl,
    show (neg ⟨0⟩).isNegative = true from rfl, show Nat.min x.exponent 0 = 0 from Nat.min_zero _]
  dsimp only
  rw [Nat.zero_shiftLeft, Nat.sub_zero, Nat.add_zero,
    show x.significand <<< x.exponent = x.units from rfl]
  cases hs : x.isNegative <;> rw [hs] at hround
  · rw [if_neg (by decide)]
    by_cases hzero : x.units = 0
    · rw [if_pos hzero]
      exact ext_magnitude hs.symm (magnitude_eq_zero hzero).symm
    · rw [if_neg hzero, if_pos (Nat.pos_of_ne_zero hzero)]
      exact hround
  · rw [if_pos (by decide)]
    exact hround

/-- Minus zero is neutral for sums. -/
theorem add_negZero {x : Binary64} (hx : x.isNaN = false) : x + -0 = x := by
  show onNumbers addNumbers x (neg ⟨0⟩) = x
  unfold onNumbers addNumbers
  rw [hx, show (neg ⟨0⟩).isNaN = false from rfl, show (neg ⟨0⟩).isInfinite = false from rfl]
  by_cases hi : x.isInfinite = true
  · rw [hi]
    rfl
  · rw [Bool.eq_false_iff.2 hi]
    exact addFinite_negZero (isFinite_of_not hx hi)

end Binary64

end PrimalHeuristics
