import PrimalHeuristics.Proofs.Binary64.Rounding

/-!
# Adding a number keeps the order

Finite numbers are whole numbers of units, with a sign. A sum is the sum of the units, rounded; so
what is added on both sides of an inequality does not turn it around, however much is rounded away.

* `Binary64.unitsAt`: the units of a magnitude, that of infinity included;
* `Binary64.signedUnits`, `Binary64.signedUnits_lt`: the units of a number, in the order of places;
* `Binary64.nearestPlace`: where a number of units is rounded to;
* `Binary64.place_addFinite`: the place of a sum is the one that is nearest to the sum of the units;
* `Binary64.add_le_add_right`, `Binary64.sub_le_sub_right`: adding or subtracting the same number.
-/

namespace PrimalHeuristics

namespace Binary64

variable {x y z t : Binary64} {k l : Nat}

/-! ### Rounding whole units -/

theorem roundQuotient_mul_right (n d : Nat) {k : Nat} (hk : 0 < k) :
    roundQuotient (n * k) (d * k) = roundQuotient n d := by
  have hlt : 2 * (n % d * k) < d * k ↔ 2 * (n % d) < d := by
    rw [← Nat.mul_assoc, Nat.mul_lt_mul_right hk]
  have hgt : d * k < 2 * (n % d * k) ↔ d < 2 * (n % d) := by
    rw [← Nat.mul_assoc, Nat.mul_lt_mul_right hk]
  unfold roundQuotient
  dsimp only
  rw [Nat.mul_div_mul_right n d hk, Nat.mul_mod_mul_right]
  simp only [hlt, hgt]

/-- A number of scaled units is rounded like the units that it stands for. -/
theorem nearestScaled_mul_two_pow (n up : Nat) :
    (nearestScaled (n * 2 ^ up) 0 0).toNat = (nearestScaled n up 0).toNat := by
  by_cases hn : n = 0
  · subst hn
    rw [Nat.zero_mul]
    unfold nearestScaled
    rw [if_pos rfl, if_pos rfl]
  have hpos : n * 2 ^ up ≠ 0 := Nat.mul_ne_zero hn (Nat.two_pow_pos up).ne'
  have he : roundedExponent (n * 2 ^ up) 0 = roundedExponent n up := by
    unfold roundedExponent
    rw [log2_mul_two_pow hn, Nat.add_zero]
  have hs : roundedSignificand (n * 2 ^ up) 0 = roundedSignificand n up := by
    unfold roundedSignificand
    dsimp only
    rw [he]
    generalize roundedExponent n up = e
    simp only [Nat.shiftLeft_eq, Nat.zero_sub, Nat.pow_zero, Nat.mul_one, Nat.one_mul, Nat.sub_zero]
    -- the common power of two is the smaller one
    rcases Nat.le_total e up with hle | hle
    · have hup : n * 2 ^ up = n * 2 ^ (up - e) * 2 ^ e := by
        rw [Nat.mul_assoc, ← Nat.pow_add, Nat.sub_add_cancel hle]
      have hone := roundQuotient_mul_right (n * 2 ^ (up - e)) 1 (Nat.two_pow_pos e)
      rw [Nat.one_mul] at hone
      rw [hup, hone, Nat.sub_eq_zero_of_le hle, Nat.pow_zero]
    · have he : 2 ^ e = 2 ^ (e - up) * 2 ^ up := by
        rw [← Nat.pow_add, Nat.sub_add_cancel hle]
      rw [he, roundQuotient_mul_right n _ (Nat.two_pow_pos up), Nat.sub_eq_zero_of_le hle,
        Nat.pow_zero, Nat.mul_one]
  rw [nearestScaled_eq hpos, nearestScaled_eq hn, he, hs]

/-- The place that is nearest to a number of units. -/
def nearestPlace (u : Int) : Int :=
  if u < 0 then -((nearestScaled u.natAbs 0 0).toNat : Int) else (nearestScaled u.natAbs 0 0).toNat

theorem nearestPlace_natCast (n : Nat) :
    nearestPlace n = ((nearestScaled n 0 0).toNat : Int) := by
  unfold nearestPlace
  rw [if_neg (by omega), Int.natAbs_natCast]

theorem nearestPlace_neg_natCast (n : Nat) :
    nearestPlace (-n) = -((nearestScaled n 0 0).toNat : Int) := by
  unfold nearestPlace
  rw [Int.natAbs_neg, Int.natAbs_natCast]
  split
  · rfl
  · have hn : n = 0 := by omega
    subst hn
    rfl

theorem nearestPlace_mono {u w : Int} (h : u ≤ w) : nearestPlace u ≤ nearestPlace w := by
  unfold nearestPlace
  split <;> split
  · have := nearestScaled_mono 0 (show w.natAbs ≤ u.natAbs by omega)
    omega
  · omega
  · omega
  · have := nearestScaled_mono 0 (show u.natAbs ≤ w.natAbs by omega)
    omega

/-! ### The units of a number -/

/-- The units that a magnitude stands for. The infinite one stands for as many as it would if it
were finite. -/
def unitsAt (k : Nat) : Nat :=
  (k - (k / 2 ^ 52 - 1) * 2 ^ 52) * 2 ^ (k / 2 ^ 52 - 1)

theorem units_eq_unitsAt (x : Binary64) : x.units = unitsAt x.magnitude.toNat := by
  unfold units unitsAt
  rw [Nat.shiftLeft_eq, significand_eq, exponent_eq]

/-- The units of an exponent and a significand, which has a hidden digit unless it is small. -/
theorem unitsAt_packed {s m : Nat} (hm : m ≤ 2 ^ 53) (hs : s = 0 ∨ 2 ^ 52 ≤ m) :
    unitsAt (s * 2 ^ 52 + m) = m * 2 ^ s := by
  unfold unitsAt
  rcases Nat.lt_or_eq_of_le hm with hlt | rfl
  · have he : (s * 2 ^ 52 + m) / 2 ^ 52 - 1 = s := by omega
    rw [he, Nat.add_sub_cancel_left]
  · -- the significand carries
    have he : (s * 2 ^ 52 + 2 ^ 53) / 2 ^ 52 - 1 = s + 1 := by omega
    rw [he, show s * 2 ^ 52 + 2 ^ 53 - (s + 1) * 2 ^ 52 = 2 ^ 52 by omega, ← Nat.pow_add,
      ← Nat.pow_add]
    congr 1
    omega

theorem unitsAt_lt (h : k < l) : unitsAt k < unitsAt l := by
  unfold unitsAt
  rcases Nat.lt_or_eq_of_le (show k / 2 ^ 52 - 1 ≤ l / 2 ^ 52 - 1 by omega) with he | he
  · calc (k - (k / 2 ^ 52 - 1) * 2 ^ 52) * 2 ^ (k / 2 ^ 52 - 1)
        < 2 ^ 53 * 2 ^ (k / 2 ^ 52 - 1) :=
          Nat.mul_lt_mul_of_pos_right (by omega) (Nat.two_pow_pos _)
      _ = 2 ^ 52 * 2 ^ (k / 2 ^ 52 - 1 + 1) := by rw [Nat.pow_succ]; ring
      _ ≤ 2 ^ 52 * 2 ^ (l / 2 ^ 52 - 1) :=
          Nat.mul_le_mul_left _ (Nat.pow_le_pow_right (by omega) he)
      _ ≤ (l - (l / 2 ^ 52 - 1) * 2 ^ 52) * 2 ^ (l / 2 ^ 52 - 1) :=
          Nat.mul_le_mul_right _ (by omega)
  · rw [← he]
    exact Nat.mul_lt_mul_of_pos_right (by omega) (Nat.two_pow_pos _)

theorem unitsAt_le (h : k ≤ l) : unitsAt k ≤ unitsAt l := by
  rcases Nat.lt_or_eq_of_le h with hlt | rfl
  · exact (unitsAt_lt hlt).le
  · exact Nat.le_refl _

theorem unitsAt_zero : unitsAt 0 = 0 := by
  decide

/-- The units of a number, with its sign. -/
def signedUnits (x : Binary64) : Int :=
  if x.isNegative then -(x.units : Int) else x.units

theorem signedUnits_eq (x : Binary64) : x.signedUnits =
    if x.isNegative then -(unitsAt x.magnitude.toNat : Int) else unitsAt x.magnitude.toNat := by
  unfold signedUnits
  rw [units_eq_unitsAt]

theorem signedUnits_lt (h : x.place < y.place) : x.signedUnits < y.signedUnits := by
  rw [signedUnits_eq, signedUnits_eq]
  unfold place at h
  have hzero := unitsAt_zero
  cases hx : x.isNegative <;> cases hy : y.isNegative <;>
    simp only [hx, hy, if_true, Bool.false_eq_true, if_false] at h ⊢
  · exact Int.ofNat_lt.2 (unitsAt_lt (Int.ofNat_lt.1 h))
  · omega
  · rcases Nat.eq_zero_or_pos x.magnitude.toNat with hm | hm
    · have := unitsAt_lt (show 0 < y.magnitude.toNat by omega)
      omega
    · have := unitsAt_lt hm
      omega
  · have := unitsAt_lt (show y.magnitude.toNat < x.magnitude.toNat by omega)
    omega

theorem signedUnits_le (h : x.place ≤ y.place) : x.signedUnits ≤ y.signedUnits := by
  rcases Int.lt_or_eq_of_le h with hlt | heq
  · exact Int.le_of_lt (signedUnits_lt hlt)
  · rw [signedUnits_eq, signedUnits_eq]
    unfold place at heq
    have hzero := unitsAt_zero
    cases hx : x.isNegative <;> cases hy : y.isNegative <;>
      simp only [hx, hy, if_true, Bool.false_eq_true, if_false] at heq ⊢
    · rw [show x.magnitude.toNat = y.magnitude.toNat by omega]
    · rw [show x.magnitude.toNat = 0 by omega, show y.magnitude.toNat = 0 by omega, hzero]
      decide
    · omega
    · rw [show x.magnitude.toNat = y.magnitude.toNat by omega]

/-- A finite number is where its units are. -/
theorem nearestPlace_signedUnits (hx : x.isFinite = true) :
    nearestPlace x.signedUnits = x.place := by
  unfold signedUnits place
  split
  · rw [nearestPlace_neg_natCast, nearestScaled_units hx]
  · rw [nearestPlace_natCast, nearestScaled_units hx]

/-! ### Sums of units -/

theorem place_rounded_units (negative : Bool) (n s : Nat) :
    (ofMagnitude negative (nearestScaled n s 0)).place =
      nearestPlace (if negative then -((n * 2 ^ s : Nat) : Int) else (n * 2 ^ s : Nat)) := by
  rw [place_rounded]
  cases negative
  · simp only [Bool.false_eq_true, if_false]
    rw [nearestPlace_natCast, nearestScaled_mul_two_pow]
  · simp only [if_true]
    rw [nearestPlace_neg_natCast, nearestScaled_mul_two_pow]

theorem units_eq (x : Binary64) {s : Nat} (h : s ≤ x.exponent) :
    x.units = x.significand <<< (x.exponent - s) * 2 ^ s := by
  unfold units
  rw [Nat.shiftLeft_eq, Nat.shiftLeft_eq, Nat.mul_assoc, ← Nat.pow_add, Nat.sub_add_cancel h]

/-- A sum is rounded to the place that is nearest to the sum of the units. -/
theorem place_addFinite (a b : Binary64) :
    (addFinite a b).place = nearestPlace (a.signedUnits + b.signedUnits) := by
  have ha := a.units_eq (s := Nat.min a.exponent b.exponent) (Nat.min_le_left _ _)
  have hb := b.units_eq (s := Nat.min a.exponent b.exponent) (Nat.min_le_right _ _)
  unfold addFinite signedUnits
  dsimp only
  rw [ha, hb]
  generalize Nat.min a.exponent b.exponent = s
  generalize a.significand <<< (a.exponent - s) = m
  generalize b.significand <<< (b.exponent - s) = n
  by_cases hs : a.isNegative = b.isNegative
  · rw [if_pos (beq_iff_eq.2 hs), place_rounded_units, ← hs]
    cases a.isNegative
    · congr 1
      simp only [Bool.false_eq_true, if_false]
      push_cast
      ring
    · congr 1
      simp only [if_true]
      push_cast
      ring
  · have hb : b.isNegative = !a.isNegative := by
      cases ha : a.isNegative <;> cases hb : b.isNegative <;> simp_all
    rw [if_neg fun h => hs (beq_iff_eq.1 h), hb]
    rcases Nat.lt_trichotomy m n with hlt | rfl | hgt
    · rw [if_neg (by omega), if_neg (by omega), place_rounded_units]
      congr 1
      cases a.isNegative <;> simp <;> push_cast [Nat.cast_sub hlt.le] <;> ring
    · rw [if_pos rfl]
      have hzero : (0 : Int) = nearestPlace 0 := rfl
      show (0 : Int) = _
      rw [hzero]
      congr 1
      cases a.isNegative <;> simp
    · rw [if_neg (by omega), if_pos hgt, place_rounded_units]
      congr 1
      cases a.isNegative <;> simp <;> push_cast [Nat.cast_sub hgt.le] <;> ring

/-! ### Sums in the order of numbers -/

theorem isNaN_of_le (h : x ≤ y) : x.isNaN = false ∧ y.isNaN = false := by
  have h : (x.lt y || x.eq y) = true := h
  rcases Bool.or_eq_true_iff.1 h with hlt | heq
  · exact isNaN_of_lt hlt
  · unfold eq at heq
    simp only [Bool.and_eq_true, Bool.not_eq_true'] at heq
    exact ⟨heq.1.1, heq.1.2⟩

theorem le_trans (h : x ≤ y) (h' : y ≤ z) : x ≤ z := by
  obtain ⟨hx, hy⟩ := isNaN_of_le h
  obtain ⟨-, hz⟩ := isNaN_of_le h'
  have h := (le_iff_place hx hy).1 h
  have h' := (le_iff_place hy hz).1 h'
  exact (le_iff_place hx hz).2 (Int.le_trans h h')

protected theorem le_refl (hx : x.isNaN = false) : x ≤ x :=
  (le_iff_place hx hx).2 (Int.le_refl _)

protected theorem lt_of_le_of_lt (h : x ≤ y) (h' : y < z) : x < z := by
  obtain ⟨hx, hy⟩ := isNaN_of_le h
  obtain ⟨-, hz⟩ := isNaN_of_lt h'
  have h := (le_iff_place hx hy).1 h
  have h' := (lt_iff_place hy hz).1 h'
  exact (lt_iff_place hx hz).2 (by omega)

protected theorem lt_of_lt_of_le (h : x < y) (h' : y ≤ z) : x < z := by
  obtain ⟨hx, hy⟩ := isNaN_of_lt h
  obtain ⟨-, hz⟩ := isNaN_of_le h'
  have h := (lt_iff_place hx hy).1 h
  have h' := (le_iff_place hy hz).1 h'
  exact (lt_iff_place hx hz).2 (by omega)

theorem le_of_not_lt (hx : x.isNaN = false) (hy : y.isNaN = false) (h : ¬ x < y) : y ≤ x := by
  have h : ¬ x.place < y.place := fun k => h ((lt_iff_place hx hy).2 k)
  exact (le_iff_place hy hx).2 (by omega)

theorem lt_of_not_le (hx : x.isNaN = false) (hy : y.isNaN = false) (h : ¬ x ≤ y) : y < x := by
  have h : ¬ x.place ≤ y.place := fun k => h ((le_iff_place hx hy).2 k)
  exact (lt_iff_place hy hx).2 (by omega)

theorem not_lt_of_le (h : x ≤ y) : ¬ y < x := by
  obtain ⟨hx, hy⟩ := isNaN_of_le h
  intro hlt
  have h := (le_iff_place hx hy).1 h
  have hlt := (lt_iff_place hy hx).1 hlt
  omega

/-- Numbers lie between the infinite ones. -/
theorem place_bounds (hx : x.isNaN = false) :
    -(infinityWord.toNat : Int) ≤ x.place ∧ x.place ≤ infinityWord.toNat := by
  rw [Bool.eq_false_iff, Ne, isNaN_iff] at hx
  unfold place
  split <;> omega

theorem place_of_isFinite (hx : x.isFinite = true) :
    -(infinityWord.toNat : Int) < x.place ∧ x.place < infinityWord.toNat := by
  rw [isFinite_iff] at hx
  unfold place
  split <;> omega

theorem place_of_isInfinite (hx : x.isInfinite = true) :
    x.place = -(infinityWord.toNat : Int) ∨ x.place = infinityWord.toNat := by
  rw [isInfinite_iff] at hx
  unfold place
  split <;> omega

theorem isNaN_of_isFinite (hx : x.isFinite = true) : x.isNaN = false := by
  rw [isFinite_iff] at hx
  rw [Bool.eq_false_iff, Ne, isNaN_iff]
  omega

theorem isInfinite_of_isFinite (hx : x.isFinite = true) : x.isInfinite = false := by
  rw [isFinite_iff] at hx
  rw [Bool.eq_false_iff, Ne, isInfinite_iff]
  omega

/-- A sum with a finite number. -/
theorem add_eq (hx : x.isNaN = false) (ht : t.isFinite = true) :
    x + t = if x.isInfinite then x else addFinite x t := by
  show onNumbers addNumbers x t = _
  unfold onNumbers addNumbers
  rw [hx, isNaN_of_isFinite ht, isInfinite_of_isFinite ht]
  simp only [Bool.false_and, Bool.false_eq_true, if_false]

/-- Subtracting is adding the opposite. -/
theorem sub_eq_add_neg (ht : t.isFinite = true) (hneg : t.neg.isFinite = true) :
    x - t = x + t.neg := by
  show onNumbers (fun a b => addNumbers a b.neg) x t = onNumbers addNumbers x t.neg
  unfold onNumbers
  rw [isNaN_of_isFinite ht, isNaN_of_isFinite hneg]
  simp only [Bool.false_eq_true, if_false]

/-- Adding the same finite number to both sides keeps the order. -/
theorem add_le_add_right (h : x ≤ y) (ht : t.isFinite = true) : x + t ≤ y + t := by
  obtain ⟨hx, hy⟩ := isNaN_of_le h
  have hplace := (le_iff_place hx hy).1 h
  rw [add_eq hx ht, add_eq hy ht]
  by_cases hxi : x.isInfinite = true <;> by_cases hyi : y.isInfinite = true
  · rw [if_pos hxi, if_pos hyi]
    exact h
  · -- only minus infinity is below a finite number
    have hsum := isNaN_addFinite y t
    have hlow := place_bounds hsum
    have hyf := place_of_isFinite (isFinite_of_not hy hyi)
    rw [if_pos hxi, if_neg hyi]
    refine (le_iff_place hx hsum).2 ?_
    rcases place_of_isInfinite hxi with hxp | hxp <;> omega
  · have hsum := isNaN_addFinite x t
    have hhigh := place_bounds hsum
    have hxf := place_of_isFinite (isFinite_of_not hx hxi)
    rw [if_neg hxi, if_pos hyi]
    refine (le_iff_place hsum hy).2 ?_
    rcases place_of_isInfinite hyi with hyp | hyp <;> omega
  · rw [if_neg hxi, if_neg hyi]
    refine (le_iff_place (isNaN_addFinite x t) (isNaN_addFinite y t)).2 ?_
    rw [place_addFinite, place_addFinite]
    exact nearestPlace_mono (Int.add_le_add_right (signedUnits_le hplace) _)

/-- Adding a number that is not negative does not lead below. -/
protected theorem le_add_of_nonneg (hx : x.isNaN = false) (ht : t.isFinite = true)
    (hpos : 0 ≤ t.signedUnits) : x ≤ x + t := by
  rw [add_eq hx ht]
  split
  · exact Binary64.le_refl hx
  · rename_i hi
    have hmono := nearestPlace_mono (show x.signedUnits ≤ x.signedUnits + t.signedUnits by omega)
    rw [nearestPlace_signedUnits (isFinite_of_not hx hi), ← place_addFinite] at hmono
    exact (le_iff_place hx (isNaN_addFinite _ _)).2 hmono

theorem sub_le_sub_right (h : x ≤ y) (ht : t.isFinite = true) (hneg : t.neg.isFinite = true) :
    x - t ≤ y - t := by
  rw [sub_eq_add_neg ht hneg, sub_eq_add_neg ht hneg]
  exact add_le_add_right h hneg

theorem feasTol_isFinite : (Scalar.feasTol : Binary64).isFinite = true ∧
    (neg Scalar.feasTol).isFinite = true := by
  decide

end Binary64

end PrimalHeuristics
