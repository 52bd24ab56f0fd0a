import PrimalHeuristics.Proofs.Binary64.Sums

/-!
# Rounding is to nearest

Rounding keeps the order, so the result for a number between two magnitudes lies between them. It is
not the one further away: what is on one side of the middle is not rounded across it.

* `Binary64.nearestScaled_lt`, `Binary64.lt_nearestScaled`: below and above the middle;
* `Binary64.nearestPlace_lt`: the same for numbers with a sign.
-/

namespace PrimalHeuristics

namespace Binary64

variable {x y : Binary64} {n k l : Nat}

/-! ### The middle of two magnitudes -/

/-- A quotient is rounded down if its remainder is at most a half, and up if it is at least one. -/
theorem roundQuotient_cases (n d : Nat) :
    roundQuotient n d = n / d ∧ 2 * (n % d) ≤ d ∨
      roundQuotient n d = n / d + 1 ∧ d ≤ 2 * (n % d) := by
  unfold roundQuotient
  dsimp only
  split <;> [skip; split] <;> omega

/-- The digits that are kept when a number is rounded. -/
theorem quotient_bounds (hn : n ≠ 0) : n / 2 ^ roundedExponent n 0 < 2 ^ 53 ∧
    (roundedExponent n 0 = 0 ∨ 2 ^ 52 ≤ n / 2 ^ roundedExponent n 0) := by
  have hhigh : n < 2 ^ (n.log2 + 1) := Nat.lt_log2_self
  have hlow : 2 ^ n.log2 ≤ n := Nat.log2_self_le hn
  constructor
  · rw [Nat.div_lt_iff_lt_mul (Nat.two_pow_pos _), ← Nat.pow_add]
    refine hhigh.trans_le (Nat.pow_le_pow_right (by omega) ?_)
    unfold roundedExponent
    omega
  · by_cases he : roundedExponent n 0 = 0
    · exact .inl he
    · right
      rw [Nat.le_div_iff_mul_le (Nat.two_pow_pos _), ← Nat.pow_add]
      refine Nat.le_trans (Nat.pow_le_pow_right (by decide) ?_) hlow
      unfold roundedExponent at he ⊢
      omega

theorem roundedSignificand_zero (n : Nat) :
    roundedSignificand n 0 = roundQuotient n (2 ^ roundedExponent n 0) := by
  unfold roundedSignificand
  dsimp only
  rw [Nat.zero_sub, Nat.shiftLeft_zero, Nat.shiftLeft_eq, Nat.one_mul, Nat.sub_zero]

/-- What is below the middle of two magnitudes is rounded to less than the greater one. -/
theorem nearestScaled_lt (hkl : k < l) (h : 2 * n < unitsAt k + unitsAt l) :
    (nearestScaled n 0 0).toNat < l := by
  by_cases hn : n = 0
  · subst hn
    exact Nat.zero_lt_of_lt hkl
  obtain ⟨hq, he⟩ := quotient_bounds hn
  rw [nearestScaled_eq hn, roundedSignificand_zero]
  by_contra hge
  have hge := Nat.le_trans (Nat.le_of_not_lt hge) (Nat.min_le_left _ _)
  have hdiv := Nat.div_add_mod n (2 ^ roundedExponent n 0)
  have hcases := roundQuotient_cases n (2 ^ roundedExponent n 0)
  generalize roundedExponent n 0 = e at *
  rcases hcases with ⟨hround, -⟩ | ⟨hround, hhalf⟩
  · -- rounded down, so both magnitudes are at most the number
    have hle := unitsAt_le (show l ≤ e * 2 ^ 52 + n / 2 ^ e by omega)
    have hlt := unitsAt_lt hkl
    rw [unitsAt_packed hq.le he, Nat.mul_comm] at hle
    omega
  · have hle := unitsAt_le (show l ≤ e * 2 ^ 52 + (n / 2 ^ e + 1) by omega)
    have hlt := unitsAt_le (show k ≤ e * 2 ^ 52 + n / 2 ^ e by omega)
    rw [unitsAt_packed (by omega) (by omega), Nat.add_mul, Nat.mul_comm] at hle
    rw [unitsAt_packed hq.le he, Nat.mul_comm] at hlt
    omega

/-- What is above the middle of two magnitudes is rounded to more than the smaller one. -/
theorem lt_nearestScaled (hkl : k < l) (hk : k < infinityWord.toNat)
    (h : unitsAt k + unitsAt l < 2 * n) : k < (nearestScaled n 0 0).toNat := by
  have hn : n ≠ 0 := by omega
  obtain ⟨hq, he⟩ := quotient_bounds hn
  rw [nearestScaled_eq hn, roundedSignificand_zero]
  refine lt_min ?_ hk
  by_contra hge
  have hdiv := Nat.div_add_mod n (2 ^ roundedExponent n 0)
  have hmod := Nat.mod_lt n (Nat.two_pow_pos (roundedExponent n 0))
  have hcases := roundQuotient_cases n (2 ^ roundedExponent n 0)
  generalize roundedExponent n 0 = e at *
  rcases hcases with ⟨hround, hhalf⟩ | ⟨hround, -⟩
  · have hle := unitsAt_le (show e * 2 ^ 52 + n / 2 ^ e ≤ k by omega)
    have hlt := unitsAt_le (show e * 2 ^ 52 + (n / 2 ^ e + 1) ≤ l by omega)
    rw [unitsAt_packed hq.le he, Nat.mul_comm] at hle
    rw [unitsAt_packed (by omega) (by omega), Nat.add_mul, Nat.mul_comm] at hlt
    omega
  · -- rounded up, so both magnitudes are more than the number
    have hle := unitsAt_le (show e * 2 ^ 52 + (n / 2 ^ e + 1) ≤ k by omega)
    have hlt := unitsAt_lt hkl
    rw [unitsAt_packed (by omega) (by omega), Nat.add_mul, Nat.mul_comm] at hle
    omega

/-! ### Numbers with a sign -/

/-- What is below the middle of two numbers is rounded to less than the greater one. -/
theorem nearestPlace_lt (hx : x.isNaN = false) (hxy : x.place < y.place) {w : Int}
    (h : 2 * w < x.signedUnits + y.signedUnits) : nearestPlace w < y.place := by
  rw [signedUnits_eq, signedUnits_eq] at h
  rw [Bool.eq_false_iff, Ne, isNaN_iff] at hx
  have hzero := unitsAt_zero
  have habove := @lt_nearestScaled w.natAbs
  unfold nearestPlace
  unfold place at hxy ⊢
  cases hxs : x.isNegative <;> cases hys : y.isNegative <;>
    simp only [hxs, hys, if_true, Bool.false_eq_true, if_false] at h hxy ⊢
  · split
    · omega
    · have := nearestScaled_lt (n := w.natAbs) (Int.ofNat_lt.1 hxy) (by omega)
      omega
  · omega
  · -- numbers on both sides of zero
    split
    · rcases Nat.eq_zero_or_pos y.magnitude.toNat with hm | hm
      · have := habove (k := 0) (l := x.magnitude.toNat) (by omega) (by decide)
          (by rw [hm] at h; omega)
        omega
      · omega
    · have hm : 0 < y.magnitude.toNat := by
        by_contra hm
        rw [Nat.eq_zero_of_not_pos hm] at h
        omega
      have := nearestScaled_lt (n := w.natAbs) hm (by omega)
      omega
  · have hm := unitsAt_lt (show y.magnitude.toNat < x.magnitude.toNat by omega)
    rw [if_pos (by omega)]
    have := habove (show y.magnitude.toNat < x.magnitude.toNat by omega) (by omega) (by omega)
    omega

end Binary64

end PrimalHeuristics
