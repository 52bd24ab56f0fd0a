import PrimalHeuristics.Proofs.Binary64.Large
import PrimalHeuristics.Proofs.Columns
import PrimalHeuristics.Proofs.Propagation.Runs

/-!
# Missing bounds

A bound from a certain magnitude on stands for no bound: it is missing. This module follows one bound
through the steps of two runs of the propagation, where the bound of the second run is the same, or
both bounds are missing and that of the second run leaves more room. If no coefficient turns the
missing bound of the first run into a bound, then this stays so in every step.

* `Side`: the two sides of a box, so that each fact is stated once for both;
* `Side.HasRoom`: bounds that leave room, and what replaces those that do not;
* `Scalar.released`: a missing bound replaced by an infinite one;
* `Propagation.IsOpen`, `Propagation.Beyond`: missing bounds, and those that leave more room;
* `Propagation.Leaves`: what a step leaves in both runs;
* `Propagation.Leaves.tighter`, `Propagation.Leaves.whole`, `Propagation.Leaves.replaced`: the steps;
* `Propagation.crossed_or_isTighter`: bounds that are crossed in the first run only.
-/

namespace PrimalHeuristics

/-! ### The two sides of a box -/

/-- The two sides from which a column is bounded. -/
inductive Side where
  | lower
  | upper

namespace Side

section

variable {α : Type} [Scalar α]

/-- The bound of a column on a side. -/
def bound (side : Side) (b : Box α) (j : Nat) : α :=
  match side with
  | .lower => b.lower.getD j 0
  | .upper => b.upper.getD j 0

/-- The bound on a side among two. -/
def pick (side : Side) (p : α × α) : α :=
  match side with
  | .lower => p.1
  | .upper => p.2

/-- The second bound leaves less room than the first one. -/
def IsTighter (side : Side) (x y : α) : Prop :=
  match side with
  | .lower => x < y
  | .upper => y < x

instance (side : Side) (x y : α) : Decidable (side.IsTighter x y) :=
  match side with
  | .lower => inferInstanceAs (Decidable (x < y))
  | .upper => inferInstanceAs (Decidable (y < x))

/-- A bound moved inwards by the tolerance. -/
def inward (side : Side) (x : α) : α :=
  match side with
  | .lower => x + Scalar.feasTol
  | .upper => x - Scalar.feasTol

/-- The tighter one of a bound and a limit. -/
def tighter (side : Side) (x limit : α) : α :=
  match side with
  | .lower => Scalar.max x limit
  | .upper => Scalar.min x limit

/-- The bound leaves room for values that are not larger than any bound. -/
def HasRoom (side : Side) (x : α) : Prop :=
  match side with
  | .lower => x < Scalar.infiniteBound
  | .upper => -Scalar.infiniteBound < x

/-- A bound brought to a whole number. -/
def whole (side : Side) (x : α) : α :=
  match side with
  | .lower => Scalar.ceil (x - Scalar.intTol)
  | .upper => Scalar.floor (x + Scalar.intTol)

end

variable {side : Side} {x y l : Binary64}

instance {P : Side → Prop} [DecidablePred P] : Decidable (∀ side, P side) :=
  decidable_of_iff (P .lower ∧ P .upper)
    ⟨fun ⟨hl, hu⟩ side => by cases side <;> assumption, fun h => ⟨h .lower, h .upper⟩⟩

/-- Bounds without a limit on a side have this sign. -/
def isNegative : Side → Bool
  | .lower => true
  | .upper => false

/-- How tight a bound is. -/
def depth (side : Side) (x : Binary64) : Int :=
  match side with
  | .lower => x.place
  | .upper => -x.place

theorem isNaN_of_isTighter (h : side.IsTighter x y) : x.isNaN = false ∧ y.isNaN = false := by
  cases side with
  | lower => exact Binary64.isNaN_of_lt h
  | upper => exact (Binary64.isNaN_of_lt h).symm

theorem isTighter_iff (side : Side) (hx : x.isNaN = false) (hy : y.isNaN = false) :
    side.IsTighter x y ↔ side.depth x < side.depth y := by
  cases side with
  | lower => exact Binary64.lt_iff_place hx hy
  | upper => exact (Binary64.lt_iff_place hy hx).trans Int.neg_lt_neg_iff.symm

theorem tighter_of_isNaN (hl : l.isNaN = true) : side.tighter x l = x := by
  cases side <;> exact if_pos hl

theorem tighter_of_isTighter (h : side.IsTighter l x) : side.tighter x l = x := by
  have hl : ¬ l.isNaN = true := by simp [(isNaN_of_isTighter h).1]
  cases side <;> exact (if_neg hl).trans (if_pos h)

theorem tighter_of_not_isTighter (hl : l.isNaN = false) (h : ¬ side.IsTighter l x) :
    side.tighter x l = l := by
  have hl : ¬ l.isNaN = true := by simp [hl]
  cases side <;> exact (if_neg hl).trans (if_neg h)

theorem inward_eq_self (hx : Scalar.isMissing x = true) : side.inward x = x := by
  cases side with
  | lower => exact Binary64.add_feasTol_eq_self hx
  | upper => exact Binary64.sub_feasTol_eq_self hx

theorem whole_eq_self (hx : Scalar.isMissing x = true) : side.whole x = x := by
  cases side with
  | lower => exact Binary64.ceil_sub_eq_self hx
  | upper => exact Binary64.floor_add_eq_self hx

theorem isNaN_inward (hx : x.isNaN = true) : (side.inward x).isNaN = true := by
  cases side with
  | lower => exact Binary64.isNaN_add hx _
  | upper => exact Binary64.isNaN_sub hx _

theorem depth_inward_le (hx : x.isNaN = false) (hy : y.isNaN = false)
    (h : side.depth x ≤ side.depth y) : (side.inward x).isNaN = false ∧
      side.depth (side.inward x) ≤ side.depth (side.inward y) := by
  obtain ⟨htol, hneg⟩ := Binary64.feasTol_isFinite
  cases side with
  | lower =>
    have hle := Binary64.add_le_add_right ((Binary64.le_iff_place hx hy).2 h) htol
    obtain ⟨hxt, hyt⟩ := Binary64.isNaN_of_le hle
    exact ⟨hxt, (Binary64.le_iff_place hxt hyt).1 hle⟩
  | upper =>
    have hle := Binary64.sub_le_sub_right
      ((Binary64.le_iff_place hy hx).2 (Int.neg_le_neg_iff.1 h)) htol hneg
    obtain ⟨hyt, hxt⟩ := Binary64.isNaN_of_le hle
    exact ⟨hxt, Int.neg_le_neg ((Binary64.le_iff_place hyt hxt).1 hle)⟩

/-- A missing bound is replaced by any tighter number. -/
theorem isTighter_inward_iff (side : Side) (hx : Scalar.isMissing x = true) :
    side.IsTighter (side.inward x) y ↔ y.isNaN = false ∧ side.depth x < side.depth y := by
  have hn := (Binary64.isMissing_iff.1 hx).2
  rw [inward_eq_self hx]
  exact ⟨fun h => have hy := (isNaN_of_isTighter h).2; ⟨hy, (side.isTighter_iff hn hy).1 h⟩,
    fun ⟨hy, h⟩ => (side.isTighter_iff hn hy).2 h⟩

/-! ### Bounds without room -/

theorem hasRoom_iff : side.HasRoom x ↔ x.isNaN = false ∧ side.depth x < 0x4415AF1D78B58C40 := by
  obtain ⟨hn, hp⟩ := Binary64.infiniteBound_eq
  have hneg : (-Scalar.infiniteBound : Binary64).isNaN = false ∧
      (-Scalar.infiniteBound : Binary64).place = -0x4415AF1D78B58C40 := by decide +kernel
  cases side with
  | lower =>
    refine ⟨fun h => have hx := (Binary64.isNaN_of_lt h).1; ⟨hx, ?_⟩, fun ⟨hx, h⟩ => ?_⟩
    · exact hp ▸ (Binary64.lt_iff_place hx hn).1 h
    · exact (Binary64.lt_iff_place hx hn).2 (hp ▸ h)
  | upper =>
    refine ⟨fun h => have hx := (Binary64.isNaN_of_lt h).2; ⟨hx, ?_⟩, fun ⟨hx, h⟩ => ?_⟩
    · have hlt := (Binary64.lt_iff_place hneg.1 hx).1 h
      rw [hneg.2] at hlt
      exact Int.neg_lt_of_neg_lt hlt
    · refine (Binary64.lt_iff_place hneg.1 hx).2 ?_
      rw [hneg.2]
      exact Int.neg_lt_of_neg_lt h

theorem isMissing_of_le_depth (hx : x.isNaN = false)
    (h : 0x4415AF1D78B58C40 ≤ side.depth x) : Scalar.isMissing x = true := by
  refine Binary64.isMissing_iff.2 ⟨?_, hx⟩
  unfold depth Binary64.place at h
  cases side <;> cases x.isNegative <;> simp at h <;> omega

/-- A bound without room is only replaced by another one. -/
theorem not_hasRoom_replaced (h : ¬ side.HasRoom x) :
    ¬ side.HasRoom (if side.IsTighter (side.inward x) y then y else x) := by
  split
  · rename_i hy
    have hx : x.isNaN = false := by
      rw [Bool.eq_false_iff]
      intro hx
      exact Bool.false_ne_true ((isNaN_of_isTighter hy).1.symm.trans (isNaN_inward hx))
    rw [hasRoom_iff, not_and, not_lt] at h
    rw [side.isTighter_inward_iff (isMissing_of_le_depth hx (h hx))] at hy
    rw [hasRoom_iff, not_and, not_lt]
    exact fun _ => (h hx).trans hy.2.le
  · exact h

/-- A limit beyond a bound without room leaves no room. -/
theorem not_hasRoom_of_isTighter {z : Binary64} (hz : z.isNaN = false)
    (hdepth : 0x4415AF1D78B58C40 ≤ side.depth z) (h : side.IsTighter z y) (x : Binary64) :
    ¬ side.HasRoom (if side.IsTighter (side.inward x) y then y else x) := by
  have hy := (isNaN_of_isTighter h).2
  have hzy := (side.isTighter_iff hz hy).1 h
  rw [hasRoom_iff]
  rintro ⟨hn, hroom⟩
  split at hroom
  · omega
  · rename_i hkeeps
    rw [if_neg hkeeps] at hn
    obtain ⟨hnumber, hle⟩ := depth_inward_le hn hz (hroom.le.trans hdepth)
    rw [inward_eq_self (isMissing_of_le_depth hz hdepth)] at hle
    exact hkeeps ((side.isTighter_iff hnumber hy).2 (hle.trans_lt hzy))

end Side

/-! ### Missing bounds -/

/-- A missing bound is replaced by the infinite number of the same sign. -/
def Scalar.released {α : Type} [Scalar α] (x : α) : α :=
  if isMissing x then if 0 < x then infinity else -infinity else x

/-- A missing bound on its own side of a column, which no coefficient turns into a bound. -/
structure Propagation.IsOpen (s : SubProblem Binary64) (j : Nat) (side : Side) (x : Binary64) :
    Prop where
  isMissing : Scalar.isMissing x = true
  isNegative : x.isNegative = side.isNegative
  product : ∀ e ∈ s.matrix.column j, Scalar.isBound (e.2 * x) = false

instance (s : SubProblem Binary64) (j : Nat) (side : Side) (x : Binary64) :
    Decidable (Propagation.IsOpen s j side x) :=
  decidable_of_iff (Scalar.isMissing x = true ∧ x.isNegative = side.isNegative ∧
      ∀ e ∈ s.matrix.column j, Scalar.isBound (e.2 * x) = false)
    ⟨fun ⟨h, k, l⟩ => ⟨h, k, l⟩, fun ⟨h, k, l⟩ => ⟨h, k, l⟩⟩

namespace Propagation

variable {s : SubProblem Binary64} {j : Nat} {side : Side} {x y p q : Binary64}

theorem IsOpen.depth_le (h : IsOpen s j side x) : side.depth x ≤ -0x4415AF1D78B58C40 := by
  obtain ⟨hmissing, hsign, -⟩ := h
  have hm := (Binary64.isMissing_iff.1 hmissing).1
  unfold Side.depth Binary64.place
  cases side <;> simp [hsign, Side.isNegative] <;> omega

theorem IsOpen.released_eq (h : IsOpen s j side x) :
    Scalar.released x = if side.isNegative then -Scalar.infinity else Scalar.infinity := by
  obtain ⟨hmissing, hsign, -⟩ := h
  obtain ⟨hm, hx⟩ := Binary64.isMissing_iff.1 hmissing
  have hzero : (0 : Binary64).isNaN = false ∧ (0 : Binary64).place = 0 := by decide
  have hpos : 0 < x ↔ x.isNegative = false := by
    refine (Binary64.lt_iff_place hzero.1 hx).trans ?_
    rw [hzero.2]
    unfold Binary64.place
    cases x.isNegative <;> simp
    omega
  unfold Scalar.released
  rw [if_pos hmissing, ← hsign]
  cases hs : x.isNegative <;> simp [hpos, hs]

/-- A missing bound of a column, followed by a number that leaves at least as much room. -/
structure Beyond (s : SubProblem Binary64) (j : Nat) (side : Side) (x y : Binary64) : Prop where
  isOpen_left : IsOpen s j side x
  isNaN_right : y.isNaN = false
  depth_le : side.depth y ≤ side.depth x

namespace Beyond

variable (h : Beyond s j side x y)

include h

theorem isMissing_left : Scalar.isMissing x = true :=
  h.isOpen_left.isMissing

theorem isNaN_left : x.isNaN = false :=
  (Binary64.isMissing_iff.1 h.isMissing_left).2

/-- Both numbers lie on the same side, and the second one is at least as far away from zero. -/
theorem far : y.isNegative = side.isNegative ∧ x.magnitude.toNat ≤ y.magnitude.toNat := by
  obtain ⟨⟨hmissing, hsign, -⟩, -, hdepth⟩ := h
  have hm := (Binary64.isMissing_iff.1 hmissing).1
  unfold Side.depth Binary64.place at hdepth
  cases side <;> cases hy : y.isNegative <;>
    simp [Side.isNegative, hsign, hy] at hdepth ⊢ <;> omega

theorem isOpen_right : IsOpen s j side y := by
  obtain ⟨hsign, hle⟩ := h.far
  obtain ⟨⟨hmissing, -, hproducts⟩, hy, -⟩ := h
  obtain ⟨hm, hx⟩ := Binary64.isMissing_iff.1 hmissing
  have habs : x.abs ≤ y.abs := by
    rw [← Binary64.isNaN_abs] at hx hy
    refine (Binary64.le_iff_place hx hy).2 ?_
    rw [Binary64.place_abs, Binary64.place_abs]
    omega
  exact ⟨Binary64.isMissing_iff.2 ⟨hm.trans hle, hy⟩, hsign,
    fun e he => Binary64.isBound_mul_eq_false hmissing habs (hproducts e he)⟩

theorem isMissing_right : Scalar.isMissing y = true :=
  h.isOpen_right.isMissing

end Beyond

theorem Beyond.ge (h : Beyond s j .lower x y) : y ≤ x :=
  (Binary64.le_iff_place h.isNaN_right h.isNaN_left).2 h.depth_le

theorem Beyond.le (h : Beyond s j .upper x y) : x ≤ y :=
  (Binary64.le_iff_place h.isNaN_left h.isNaN_right).2 (Int.neg_le_neg_iff.1 h.depth_le)

/-- The same number, or two numbers without a limit. -/
def SameLimit (x y : Binary64) : Prop :=
  x = y ∨ Scalar.isBound x = false ∧ Scalar.isBound y = false

/-- Two runs leave `p` and `q` of a bound that was `x` in the first one: the same, or the first run has
kept a missing bound and the second one leaves more room. -/
def Leaves (s : SubProblem Binary64) (j : Nat) (side : Side) (x p q : Binary64) : Prop :=
  p = q ∨ p = x ∧ Beyond s j side x q

namespace Leaves

/-- A limit is applied in both runs. -/
theorem tighter (h : Leaves s j side x x y) (l : Binary64) :
    Leaves s j side x (side.tighter x l) (side.tighter y l) := by
  obtain rfl | ⟨-, hbeyond⟩ := h
  · exact .inl rfl
  have hx := hbeyond.isNaN_left
  obtain ⟨hopen, hy, hdepth⟩ := hbeyond
  by_cases hl : l.isNaN = true
  · rw [Side.tighter_of_isNaN hl, Side.tighter_of_isNaN hl]
    exact .inr ⟨rfl, hopen, hy, hdepth⟩
  have hl := Bool.eq_false_iff.2 hl
  have hlx := side.isTighter_iff hl hx
  have hly := side.isTighter_iff hl hy
  by_cases hkeeps : side.IsTighter l x
  · refine .inr ⟨Side.tighter_of_isTighter hkeeps, ?_⟩
    by_cases hk : side.IsTighter l y
    · rw [Side.tighter_of_isTighter hk]
      exact ⟨hopen, hy, hdepth⟩
    · rw [Side.tighter_of_not_isTighter hl hk]
      exact ⟨hopen, hl, (hlx.1 hkeeps).le⟩
  · -- a limit that is tighter in the first run is tighter in the second one
    have hk : ¬ side.IsTighter l y := by
      rw [hlx] at hkeeps
      rw [hly]
      omega
    rw [Side.tighter_of_not_isTighter hl hkeeps, Side.tighter_of_not_isTighter hl hk]
    exact .inl rfl

theorem whole (h : Leaves s j side x p q) : Leaves s j side x (side.whole p) (side.whole q) := by
  obtain rfl | ⟨rfl, hbeyond⟩ := h
  · exact .inl rfl
  · rw [Side.whole_eq_self hbeyond.isMissing_left, Side.whole_eq_self hbeyond.isMissing_right]
    exact .inr ⟨rfl, hbeyond⟩

theorem sameLimit (h : Leaves s j side x x y) : SameLimit x y := by
  obtain h | ⟨-, hbeyond⟩ := h
  · exact .inl h
  · exact .inr ⟨Binary64.isBound_of_isMissing hbeyond.isMissing_left,
      Binary64.isBound_of_isMissing hbeyond.isMissing_right⟩

theorem sameLimit_mul (h : Leaves s j side x x y) {r : Nat} {a : Binary64}
    (ha : (j, a) ∈ s.matrix.row r) : SameLimit (a * x) (a * y) := by
  obtain rfl | ⟨-, hbeyond⟩ := h
  · exact .inl rfl
  · have ha := Matrix.mem_column.2 ha
    exact .inr ⟨hbeyond.isOpen_left.product (r, a) ha, hbeyond.isOpen_right.product (r, a) ha⟩

theorem released_eq (h : Leaves s j side x x y) : Scalar.released x = Scalar.released y := by
  obtain rfl | ⟨-, hbeyond⟩ := h
  · rfl
  · rw [hbeyond.isOpen_left.released_eq, hbeyond.isOpen_right.released_eq]

/-- A bound is replaced in both runs if it gets tighter by more than the tolerance. -/
theorem replaced (h : Leaves s j side x x y) (hleft : Leaves s j side x p q) :
    Leaves s j side (if side.IsTighter (side.inward x) p then p else x)
      (if side.IsTighter (side.inward x) p then p else x)
      (if side.IsTighter (side.inward y) q then q else y) := by
  obtain rfl | ⟨-, hbeyond⟩ := h
  · -- both runs start from the same bound, and what is left beyond it replaces nothing
    obtain rfl | ⟨rfl, hbeyond⟩ := hleft
    · exact .inl rfl
    · have hq := hbeyond.depth_le
      refine .inl ?_
      rw [ite_self, if_neg]
      rw [side.isTighter_inward_iff hbeyond.isMissing_left]
      omega
  have hx := side.isTighter_inward_iff (y := p) hbeyond.isMissing_left
  have hy := side.isTighter_inward_iff (y := q) hbeyond.isMissing_right
  obtain ⟨hopen, hn, hdepth⟩ := hbeyond
  obtain rfl | ⟨rfl, hbeyond⟩ := hleft
  · by_cases hp : side.IsTighter (side.inward x) p
    · rw [if_pos hp, if_pos (hy.2 ⟨(hx.1 hp).1, hdepth.trans_lt (hx.1 hp).2⟩)]
      exact .inl rfl
    · -- the first run keeps its bound, and the second one does not get past it
      rw [if_neg hp]
      refine .inr ⟨rfl, ?_⟩
      split
      · have hk := (hy.1 ‹_›).1
        exact ⟨hopen, hk, not_lt.1 fun hlt => hp (hx.2 ⟨hk, hlt⟩)⟩
      · exact ⟨hopen, hn, hdepth⟩
  · rw [ite_self]
    refine .inr ⟨rfl, ?_⟩
    split
    · exact hbeyond
    · exact ⟨hopen, hn, hdepth⟩

/-- If the first run replaces a bound, then so does the second one. -/
theorem isTighter_of_isTighter (h : Leaves s j side x x y) (hleft : Leaves s j side x p q)
    (hp : side.IsTighter (side.inward x) p) : side.IsTighter (side.inward y) q := by
  obtain rfl | ⟨rfl, hbeyond⟩ := hleft
  · obtain rfl | ⟨-, hbeyond⟩ := h
    · exact hp
    · rw [side.isTighter_inward_iff hbeyond.isMissing_left] at hp
      rw [side.isTighter_inward_iff hbeyond.isMissing_right]
      exact ⟨hp.1, hbeyond.depth_le.trans_lt hp.2⟩
  · rw [side.isTighter_inward_iff hbeyond.isMissing_left] at hp
    exact absurd hp.2 (lt_irrefl _)

end Leaves

/-- Bounds that are crossed in the second run are crossed in the first one. -/
theorem crossed_of_crossed {x y : Binary64} {p q : Binary64 × Binary64}
    (hlower : Leaves s j .lower x p.1 q.1) (hupper : Leaves s j .upper y p.2 q.2)
    (h : q.2 + Scalar.feasTol < q.1) : p.2 + Scalar.feasTol < p.1 := by
  have hupper : p.2 + Scalar.feasTol ≤ q.2 + Scalar.feasTol := by
    obtain heq | ⟨rfl, hbeyond⟩ := hupper
    · rw [heq]
      exact Binary64.le_refl (Binary64.isNaN_of_lt h).1
    · exact Binary64.add_le_add_right hbeyond.le Binary64.feasTol_isFinite.1
  have hlower : q.1 ≤ p.1 := by
    obtain heq | ⟨rfl, hbeyond⟩ := hlower
    · rw [heq]
      exact Binary64.le_refl (Binary64.isNaN_of_lt h).2
    · exact hbeyond.ge
  exact Binary64.lt_of_le_of_lt hupper (Binary64.lt_of_lt_of_le h hlower)

/-- Bounds that are crossed in the first run are crossed in the second one too, or the limit on one side
lies beyond the missing bound on the other side. -/
theorem crossed_or_isTighter {x y : Binary64} {p q : Binary64 × Binary64}
    (hlower : Leaves s j .lower x p.1 q.1) (hupper : Leaves s j .upper y p.2 q.2)
    (h : p.2 + Scalar.feasTol < p.1) : q.2 + Scalar.feasTol < q.1 ∨ ∃ side : Side, ∃ z,
      z.isNaN = false ∧ 0x4415AF1D78B58C40 ≤ side.depth z ∧ side.IsTighter z (side.pick q) := by
  obtain heq | ⟨hpx, hbeyond⟩ := hlower <;> obtain heq' | ⟨hpy, hbeyond'⟩ := hupper
  · rw [heq, heq'] at h
    exact .inl h
  · -- the upper bound is missing, and the lower limit lies above it
    have hdepth := hbeyond'.isOpen_left.depth_le
    rw [heq, hpy, Binary64.add_feasTol_eq_self hbeyond'.isMissing_left] at h
    exact .inr ⟨.lower, y, hbeyond'.isNaN_left, by simp only [Side.depth] at hdepth ⊢; omega, h⟩
  · -- the lower bound is missing, and the upper limit lies below it
    have hdepth := hbeyond.isOpen_left.depth_le
    have hq : q.2.isNaN = false := by
      rw [Bool.eq_false_iff]
      intro hq
      rw [heq'] at h
      exact Bool.false_ne_true ((Binary64.isNaN_of_lt h).1.symm.trans (Binary64.isNaN_add hq _))
    have hle := Binary64.le_add_of_nonneg hq Binary64.feasTol_isFinite.1 (by decide +kernel)
    rw [heq', hpx] at h
    exact .inr ⟨.upper, x, hbeyond.isNaN_left, by simp only [Side.depth] at hdepth ⊢; omega,
      Binary64.lt_of_le_of_lt hle h⟩
  · -- missing bounds on both sides are not crossed
    have hdepth := hbeyond.isOpen_left.depth_le
    have hdepth' := hbeyond'.isOpen_left.depth_le
    rw [hpx, hpy, Binary64.add_feasTol_eq_self hbeyond'.isMissing_left] at h
    have hlt := (Binary64.lt_iff_place hbeyond'.isNaN_left hbeyond.isNaN_left).1 h
    simp only [Side.depth] at hdepth hdepth'
    omega

/-! ### Limits for activities -/

namespace SameLimit

variable (h : SameLimit x y) (g : ActivityRange Binary64)

include h

theorem addMin : g.addMin x = g.addMin y := by
  obtain rfl | ⟨hx, hy⟩ := h
  · rfl
  · simp [ActivityRange.addMin, hx, hy]

theorem addMax : g.addMax x = g.addMax y := by
  obtain rfl | ⟨hx, hy⟩ := h
  · rfl
  · simp [ActivityRange.addMax, hx, hy]

theorem minWithout : g.minWithout x = g.minWithout y := by
  obtain rfl | ⟨hx, hy⟩ := h
  · rfl
  · simp [ActivityRange.minWithout, hx, hy]

theorem maxWithout : g.maxWithout x = g.maxWithout y := by
  obtain rfl | ⟨hx, hy⟩ := h
  · rfl
  · simp [ActivityRange.maxWithout, hx, hy]

end SameLimit

end Propagation

end PrimalHeuristics
