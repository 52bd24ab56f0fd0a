import PrimalHeuristics.Proofs.Binary64.Nearest

/-!
# Whole 64 bit floating-point numbers

A number is whole if its units are a multiple of those of one. Two whole numbers that are not equal
differ by one at least, so a tolerance does not lead from one to the other: an interval without a
whole number between its ends is recognised with a tolerance, however large its ends are.

* `Binary64.IsWhole`: whole numbers, the infinite ones included;
* `Binary64.floor_bounds`, `Binary64.ceil_bounds`: the whole numbers around a number;
* `Binary64.add_intTol_lt`: the tolerance does not reach the next whole number;
* `Binary64.floor_add_intTol_lt_ceil_iff`: how an interval that holds a whole number is told from
  others.
-/

namespace PrimalHeuristics

namespace Binary64

variable {x y : Binary64} {m : UInt64}

/-! ### Whole magnitudes -/

/-- The magnitude of a whole number. -/
def WholeAt (k : Nat) : Prop :=
  2 ^ 1074 ∣ unitsAt k

/-- A multiple of the weight of the last digit before the point is whole. -/
theorem wholeAt_of_dvd {k e : Nat} (he : 1023 ≤ e) (he' : e ≤ 1074) (hlow : e * 2 ^ 52 ≤ k)
    (hhigh : k ≤ (e + 1) * 2 ^ 52) (h : 2 ^ (1075 - e) ∣ k) : WholeAt k := by
  have hk : k = (e - 1) * 2 ^ 52 + (k - (e - 1) * 2 ^ 52) := by omega
  have hunits : unitsAt k = (k - (e - 1) * 2 ^ 52) * 2 ^ (e - 1) := by
    rw [hk, unitsAt_packed (by omega) (by omega), ← hk]
  have hdvd : 2 ^ (1075 - e) ∣ (e - 1) * 2 ^ 52 :=
    Dvd.dvd.mul_left (pow_dvd_pow 2 (by omega)) _
  have hone : 2 ^ 1074 = 2 ^ (1075 - e) * 2 ^ (e - 1) := by
    rw [← Nat.pow_add, show 1075 - e + (e - 1) = 1074 by omega]
  unfold WholeAt
  rw [hunits, hone]
  exact Nat.mul_dvd_mul_right (Nat.dvd_sub h hdvd) _

theorem wholeAt_of_le {k : Nat} (h : 1075 * 2 ^ 52 ≤ k) : WholeAt k := by
  have he : 1074 ≤ k / 2 ^ 52 - 1 := by omega
  unfold WholeAt unitsAt
  exact (pow_dvd_pow 2 he).mul_left _

theorem wholeAt_zero : WholeAt 0 := by
  unfold WholeAt
  rw [unitsAt_zero]
  exact Nat.dvd_zero _

theorem toNat_fractionWidth (h : m.toNat < 1075 * 2 ^ 52) :
    (fractionWidth m).toNat = 1075 - m.toNat / 2 ^ 52 := by
  have hshift : (m >>> (52 : UInt64)).toNat = m.toNat / 2 ^ 52 := by
    rw [UInt64.toNat_shiftRight, Nat.shiftRight_eq_div_pow]
    rfl
  unfold fractionWidth
  rw [UInt64.toNat_sub_of_le, hshift]
  · rfl
  · rw [UInt64.le_iff_toNat_le, hshift]
    show _ ≤ 1075
    omega

theorem toNat_oneWord : oneWord.toNat = 1023 * 2 ^ 52 := rfl

theorem le_wholeWord_iff : wholeWord ≤ m ↔ 1075 * 2 ^ 52 ≤ m.toNat :=
  UInt64.le_iff_toNat_le

theorem lt_oneWord_iff : m < oneWord ↔ m.toNat < 1023 * 2 ^ 52 :=
  UInt64.lt_iff_toNat_lt

/-- The digits before the point. -/
theorem toNat_wholeBelow (hlow : 1023 * 2 ^ 52 ≤ m.toNat) (hhigh : m.toNat < 1075 * 2 ^ 52) :
    (wholeBelow m).toNat =
      m.toNat / 2 ^ (1075 - m.toNat / 2 ^ 52) * 2 ^ (1075 - m.toNat / 2 ^ 52) := by
  unfold wholeBelow
  rw [if_neg (by rw [le_wholeWord_iff]; omega), if_neg (by rw [lt_oneWord_iff]; omega),
    UInt64.toNat_shiftLeft, UInt64.toNat_shiftRight, toNat_fractionWidth hhigh,
    Nat.mod_eq_of_lt (show 1075 - m.toNat / 2 ^ 52 < 64 by omega), Nat.shiftRight_eq_div_pow,
    Nat.shiftLeft_eq]
  exact Nat.mod_eq_of_lt ((Nat.div_mul_le_self _ _).trans_lt m.toNat_lt)

/-- They have the same exponent, and end before the point. -/
theorem between_wholeBelow (hlow : 1023 * 2 ^ 52 ≤ m.toNat) (hhigh : m.toNat < 1075 * 2 ^ 52) :
    (wholeBelow m).toNat ≤ m.toNat ∧ m.toNat / 2 ^ 52 * 2 ^ 52 ≤ (wholeBelow m).toNat ∧
      2 ^ (1075 - m.toNat / 2 ^ 52) ∣ (wholeBelow m).toNat := by
  rw [toNat_wholeBelow hlow hhigh]
  refine ⟨Nat.div_mul_le_self _ _, ?_, Nat.dvd_mul_left _ _⟩
  have hdvd : 2 ^ (1075 - m.toNat / 2 ^ 52) ∣ m.toNat / 2 ^ 52 * 2 ^ 52 :=
    Dvd.dvd.mul_left (pow_dvd_pow 2 (by omega)) _
  calc m.toNat / 2 ^ 52 * 2 ^ 52
      = m.toNat / 2 ^ 52 * 2 ^ 52 / 2 ^ (1075 - m.toNat / 2 ^ 52) *
          2 ^ (1075 - m.toNat / 2 ^ 52) := (Nat.div_mul_cancel hdvd).symm
    _ ≤ m.toNat / 2 ^ (1075 - m.toNat / 2 ^ 52) * 2 ^ (1075 - m.toNat / 2 ^ 52) :=
        Nat.mul_le_mul_right _ (Nat.div_le_div_right (Nat.div_mul_le_self _ _))

theorem wholeBelow_le (m : UInt64) : (wholeBelow m).toNat ≤ m.toNat := by
  by_cases hhigh : m.toNat < 1075 * 2 ^ 52
  · by_cases hlow : 1023 * 2 ^ 52 ≤ m.toNat
    · exact (between_wholeBelow hlow hhigh).1
    · unfold wholeBelow
      rw [if_neg (by rw [le_wholeWord_iff]; omega), if_pos (by rw [lt_oneWord_iff]; omega)]
      exact Nat.zero_le _
  · unfold wholeBelow
    rw [if_pos (le_wholeWord_iff.2 (by omega))]

theorem wholeAt_wholeBelow (m : UInt64) : WholeAt (wholeBelow m).toNat := by
  by_cases hhigh : m.toNat < 1075 * 2 ^ 52
  · by_cases hlow : 1023 * 2 ^ 52 ≤ m.toNat
    · obtain ⟨hle, hlow', hdvd⟩ := between_wholeBelow hlow hhigh
      exact wholeAt_of_dvd (by omega) (by omega) hlow' (by omega) hdvd
    · unfold wholeBelow
      rw [if_neg (by rw [le_wholeWord_iff]; omega), if_pos (by rw [lt_oneWord_iff]; omega)]
      exact wholeAt_zero
  · unfold wholeBelow
    rw [if_pos (le_wholeWord_iff.2 (by omega))]
    exact wholeAt_of_le (by omega)

/-- The next whole magnitude, if a magnitude is not whole. -/
theorem wholeAbove_bounds (h : wholeBelow m ≠ m) : m.toNat ≤ (wholeAbove m).toNat ∧
    (wholeAbove m).toNat ≤ 1075 * 2 ^ 52 ∧ WholeAt (wholeAbove m).toNat := by
  have hhigh : m.toNat < 1075 * 2 ^ 52 := by
    by_contra hge
    refine h ?_
    unfold wholeBelow
    rw [if_pos (le_wholeWord_iff.2 (by omega))]
  unfold wholeAbove
  by_cases hlow : 1023 * 2 ^ 52 ≤ m.toNat
  · obtain ⟨hle, hbelow, hdvd⟩ := between_wholeBelow hlow hhigh
    have hfloor := toNat_wholeBelow hlow hhigh
    have hdiv := Nat.div_add_mod m.toNat (2 ^ (1075 - m.toNat / 2 ^ 52))
    have hmod := Nat.mod_lt m.toNat (Nat.two_pow_pos (1075 - m.toNat / 2 ^ 52))
    have hpow : 2 ^ (1075 - m.toNat / 2 ^ 52) ≤ 2 ^ 52 :=
      Nat.pow_le_pow_right (by decide) (by omega)
    have hone : ((1 : UInt64) <<< fractionWidth m).toNat = 2 ^ (1075 - m.toNat / 2 ^ 52) := by
      rw [UInt64.toNat_shiftLeft, toNat_fractionWidth hhigh,
        Nat.mod_eq_of_lt (show 1075 - m.toNat / 2 ^ 52 < 64 by omega), Nat.shiftLeft_eq]
      show 1 * _ % _ = _
      rw [Nat.one_mul]
      exact Nat.mod_eq_of_lt (by omega)
    have habove : (wholeBelow m + 1 <<< fractionWidth m).toNat =
        (wholeBelow m).toNat + 2 ^ (1075 - m.toNat / 2 ^ 52) := by
      rw [UInt64.toNat_add, hone]
      exact Nat.mod_eq_of_lt (by omega)
    rw [if_neg (by rw [lt_oneWord_iff]; omega), habove]
    have htop : (wholeBelow m).toNat + 2 ^ (1075 - m.toNat / 2 ^ 52) ≤
        (m.toNat / 2 ^ 52 + 1) * 2 ^ 52 := by
      have hnext : 2 ^ (1075 - m.toNat / 2 ^ 52) ∣ (m.toNat / 2 ^ 52 + 1) * 2 ^ 52 :=
        (pow_dvd_pow 2 (by omega)).mul_left _
      exact Nat.add_le_of_le_sub' (by omega) (Nat.le_of_dvd (by omega) (Nat.dvd_sub hnext hdvd))
    have hexp : 1023 ≤ m.toNat / 2 ^ 52 ∧ m.toNat / 2 ^ 52 ≤ 1074 := by omega
    refine ⟨?_, htop.trans ?_, ?_⟩
    · rw [hfloor, Nat.mul_comm]
      omega
    · exact Nat.mul_le_mul_right _ (Nat.succ_le_succ hexp.2)
    · exact wholeAt_of_dvd hexp.1 hexp.2 (hbelow.trans (Nat.le_add_right _ _)) htop
        (Nat.dvd_add hdvd (Nat.dvd_refl _))
  · rw [if_pos (by rw [lt_oneWord_iff]; omega)]
    refine ⟨?_, ?_, ?_⟩
    · rw [toNat_oneWord]
      omega
    · rw [toNat_oneWord]
      norm_num
    · rw [toNat_oneWord]
      exact wholeAt_of_dvd (le_refl 1023) (by norm_num) (le_refl _) (by norm_num)
        (Dvd.intro_left 1023 (by norm_num))

/-! ### Whole numbers -/

/-- A whole number, or an infinite one. -/
def IsWhole (x : Binary64) : Prop :=
  WholeAt x.magnitude.toNat

/-- The whole number toward zero, or away from it. -/
theorem toWhole_bounds (hx : x.isNaN = false) (away : Bool) :
    (x.toWhole away).isNaN = false ∧ (x.toWhole away).IsWhole ∧
      (x.toWhole away).isNegative = x.isNegative ∧
      if away then x.magnitude.toNat ≤ (x.toWhole away).magnitude.toNat
      else (x.toWhole away).magnitude.toNat ≤ x.magnitude.toNat := by
  rw [Bool.eq_false_iff, Ne, isNaN_iff] at hx
  have hbelow := wholeBelow_le x.magnitude
  unfold IsWhole
  obtain ⟨m, hm, hle, hwhole, hside⟩ : ∃ m : UInt64, x.toWhole away = ofMagnitude x.isNegative m ∧
      m.toNat ≤ infinityWord.toNat ∧ WholeAt m.toNat ∧
      if away then x.magnitude.toNat ≤ m.toNat else m.toNat ≤ x.magnitude.toNat := by
    unfold toWhole
    refine ⟨_, rfl, ?_⟩
    by_cases heq : wholeBelow x.magnitude = x.magnitude
    · rw [heq, bne_self_eq_false, Bool.and_false, if_neg Bool.false_ne_true]
      have hwhole := wholeAt_wholeBelow x.magnitude
      rw [heq] at hwhole
      exact ⟨by omega, hwhole, by split <;> exact Nat.le_refl _⟩
    · cases away with
      | false => exact ⟨by simp; omega, wholeAt_wholeBelow _, hbelow⟩
      | true =>
        obtain ⟨habove, hinf, hwhole⟩ := wholeAbove_bounds heq
        rw [bne_iff_ne.2 heq, Bool.and_true, if_pos rfl]
        exact ⟨hinf.trans (by decide), hwhole, habove⟩
  have hlt : m.toNat < 2 ^ 63 := by
    rw [toNat_infinityWord] at hle
    omega
  rw [hm, Bool.eq_false_iff, Ne, isNaN_iff, magnitude_ofMagnitude hlt,
    isNegative_ofMagnitude hlt]
  exact ⟨by omega, hwhole, rfl, hside⟩

/-- The whole number below. -/
theorem floor_bounds (hx : x.isNaN = false) :
    x.floor.isNaN = false ∧ x.floor.IsWhole ∧ x.floor.place ≤ x.place := by
  obtain ⟨hnumber, hwhole, hsign, hside⟩ := toWhole_bounds hx x.isNegative
  refine ⟨hnumber, hwhole, ?_⟩
  unfold floor place
  rw [hsign]
  split at hside
  · rw [if_pos ‹_›, if_pos ‹_›]
    omega
  · rw [if_neg ‹_›, if_neg ‹_›]
    omega

/-- The whole number above. -/
theorem ceil_bounds (hx : x.isNaN = false) :
    x.ceil.isNaN = false ∧ x.ceil.IsWhole ∧ x.place ≤ x.ceil.place := by
  obtain ⟨hnumber, hwhole, hsign, hside⟩ := toWhole_bounds hx (!x.isNegative)
  refine ⟨hnumber, hwhole, ?_⟩
  unfold ceil place
  rw [hsign]
  cases hs : x.isNegative <;> rw [hs] at hside
  · exact Int.ofNat_le.2 hside
  · exact Int.neg_le_neg (Int.ofNat_le.2 hside)

/-- Twice the tolerance is less than one. -/
theorem two_mul_intTol_lt :
    2 * (Scalar.intTol : Binary64).signedUnits < ((2 ^ 1074 : Nat) : Int) := by
  decide +kernel

theorem IsWhole.dvd_signedUnits (hx : x.IsWhole) : ((2 ^ 1074 : Nat) : Int) ∣ x.signedUnits := by
  have hdvd := Int.natCast_dvd_natCast.2 hx
  rw [signedUnits_eq]
  split
  · exact Int.dvd_neg.2 hdvd
  · exact hdvd

theorem intTol_isFinite : (Scalar.intTol : Binary64).isFinite = true := by
  decide

/-- A number with the tolerance is not below it. -/
theorem le_add_intTol (hx : x.isNaN = false) : x ≤ x + Scalar.intTol :=
  Binary64.le_add_of_nonneg hx intTol_isFinite (by decide)

/-- A whole number with the tolerance is still below the next whole number. -/
theorem add_intTol_lt (hx : x.isNaN = false) (hy : y.isNaN = false) (hxw : x.IsWhole)
    (hyw : y.IsWhole) (h : x < y) : x + Scalar.intTol < y := by
  have hplace := (lt_iff_place hx hy).1 h
  rw [add_eq hx intTol_isFinite]
  split
  · exact h
  · refine (lt_iff_place (isNaN_addFinite _ _) hy).2 ?_
    rw [place_addFinite]
    refine nearestPlace_lt hx hplace ?_
    -- the distance of two whole numbers is one or more
    have hle := Int.le_of_dvd (Int.sub_pos_of_lt (signedUnits_lt hplace))
      (Int.dvd_sub hyw.dvd_signedUnits hxw.dvd_signedUnits)
    have hlt := two_mul_intTol_lt
    omega

/-- The check for empty domains finds exactly the bounds that hold no whole number. -/
theorem floor_add_intTol_lt_ceil_iff {l u : Binary64} (hl : l.isNaN = false)
    (hu : u.isNaN = false) : u.floor + Scalar.intTol < l.ceil ↔ ¬ l.ceil ≤ u.floor := by
  obtain ⟨hln, hlw, -⟩ := ceil_bounds hl
  obtain ⟨hun, huw, -⟩ := floor_bounds hu
  constructor
  · intro hlt hle
    exact not_lt_of_le (le_trans hle (le_add_intTol hun)) hlt
  · intro hle
    exact add_intTol_lt hun hln huw hlw (lt_of_not_le hln hun hle)

end Binary64

end PrimalHeuristics
