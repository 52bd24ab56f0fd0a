import PrimalHeuristics.Proofs.Binary64.Large
import PrimalHeuristics.Proofs.Heuristic.Contract
import PrimalHeuristics.Proofs.Heuristic.NodeBounds

/-!
# The point that is repaired

The solution of the relaxation is brought between the bounds of the node, and then its integer columns
are rounded. A whole number that is chosen by its score is brought between the whole ends of the
bounds. The nearest whole number of a value that counts as integral is not: it may lie outside of
bounds that are not whole numbers.

* `Binary64.clamp_cases`, `Binary64.isFinite_of_le_of_le`: numbers between others;
* `Rounding.RoundsTo`, `Rounding.point_spec`: what becomes of each column;
* `Rounding.RoundsTo.lands_iff`: when an integer column lands on a whole number between its bounds;
* `Heuristic.hasRoundedPoint_iff`: when all columns of the point are as the repair expects them;
* `Heuristic.not_hasRoundedPoint_sliver`: a column that is rounded out of its bounds.
-/

namespace PrimalHeuristics

/-! ### Numbers between others -/

namespace Binary64

variable {x y z l u : Binary64}

protected theorem le_of_lt (h : x < y) : x ≤ y := by
  obtain ⟨hx, hy⟩ := isNaN_of_lt h
  exact (le_iff_place hx hy).2 ((lt_iff_place hx hy).1 h).le

theorem isFinite_of_le_of_le (hx : x.isFinite = true) (hz : z.isFinite = true) (hxy : x ≤ y)
    (hyz : y ≤ z) : y.isFinite = true := by
  obtain ⟨hxn, hyn⟩ := isNaN_of_le hxy
  obtain ⟨-, hzn⟩ := isNaN_of_le hyz
  have hlow := (le_iff_place hxn hyn).1 hxy
  have hhigh := (le_iff_place hyn hzn).1 hyz
  refine isFinite_of_not hyn fun hinfinite => ?_
  have := place_of_isFinite hx
  have := place_of_isFinite hz
  have := place_of_isInfinite hinfinite
  omega

/-- Where a number is brought between two others. -/
theorem clamp_cases (h : Scalar.clamp x l u = .ok y) : l ≤ u ∧
    ((y = x ∧ ¬ x < l ∧ ¬ u < x) ∨ (y = l ∧ x < l) ∨ (y = u ∧ u < x)) := by
  unfold Scalar.clamp at h
  split at h
  · rename_i hlu
    refine ⟨hlu, ?_⟩
    obtain rfl := Except.ok.inj h
    by_cases hlow : x < l
    · rw [if_pos hlow, if_neg (not_lt_of_le hlu)]
      exact .inr (.inl ⟨rfl, hlow⟩)
    · rw [if_neg hlow]
      split
      · exact .inr (.inr ⟨rfl, ‹_›⟩)
      · exact .inl ⟨rfl, hlow, ‹_›⟩
  · cases h

/-- A number ends up between the others, and what is no number stays none. -/
theorem clamp_bounds (h : Scalar.clamp x l u = .ok y) :
    y.isNaN = x.isNaN ∧ (x.isNaN = false → l ≤ y ∧ y ≤ u) := by
  obtain ⟨hlu, hcases⟩ := clamp_cases h
  obtain ⟨hl, hu⟩ := isNaN_of_le hlu
  rcases hcases with ⟨rfl, hlow, hhigh⟩ | ⟨rfl, hlow⟩ | ⟨rfl, hhigh⟩
  · exact ⟨rfl, fun hx => ⟨le_of_not_lt hx hl hlow, le_of_not_lt hu hx hhigh⟩⟩
  · exact ⟨hl.trans (isNaN_of_lt hlow).1.symm, fun _ => ⟨Binary64.le_refl hl, hlu⟩⟩
  · exact ⟨hu.trans (isNaN_of_lt hhigh).2.symm, fun _ => ⟨hlu, Binary64.le_refl hu⟩⟩

/-- No number is the difference of an infinite one from itself. -/
theorem isNaN_sub_self (hx : ¬ x.isFinite = true) : (x - x).isNaN = true := by
  by_cases hnan : x.isNaN = true
  · exact isNaN_sub hnan x
  · have hinfinite : x = ofMagnitude x.isNegative infinityWord := by
      rw [isFinite_iff] at hx
      rw [isNaN_iff] at hnan
      have hlt : infinityWord.toNat < 2 ^ 63 := by decide
      refine ext_magnitude (isNegative_ofMagnitude hlt _).symm ?_
      rw [magnitude_ofMagnitude hlt]
      omega
    rw [hinfinite]
    cases x.isNegative <;> decide

/-- Only finite numbers count as integral. -/
theorem isFinite_of_isIntegral (h : Scalar.isIntegral x = true) : x.isFinite = true := by
  by_contra hx
  have hround : Scalar.round x = x := toWhole_of_not_isFinite hx _
  unfold Scalar.isIntegral at h
  rw [decide_eq_true_iff, hround] at h
  have hnumber : (x - x).isNaN = false := (isNaN_abs _).symm.trans (isNaN_of_le h).1
  rw [isNaN_sub_self hx] at hnumber
  contradiction

/-! ### Whole ends of bounds -/

section Ends

variable (hl : l ≤ y) (hu : y ≤ u)

include hl in
/-- The whole lower end is finite if it is above a finite number. -/
theorem isFinite_ceil_of_lt (hx : x.isFinite = true) (hy : y.isFinite = true) (h : x < l.ceil) :
    l.ceil.isFinite = true := by
  by_cases hfinite : l.isFinite = true
  · exact isFinite_toWhole hfinite _
  · rw [ceil, toWhole_of_not_isFinite hfinite] at h ⊢
    exact isFinite_of_le_of_le hx hy (Binary64.le_of_lt h) hl

include hu in
theorem isFinite_floor_of_lt (hx : x.isFinite = true) (hy : y.isFinite = true) (h : u.floor < x) :
    u.floor.isFinite = true := by
  by_cases hfinite : u.isFinite = true
  · exact isFinite_toWhole hfinite _
  · rw [floor, toWhole_of_not_isFinite hfinite] at h ⊢
    exact isFinite_of_le_of_le hy hx hu (Binary64.le_of_lt h)

include hl in
/-- An infinite number between bounds is between their whole ends. -/
theorem not_lt_ceil (hy : ¬ y.isFinite = true) : ¬ y < l.ceil := by
  intro h
  by_cases hfinite : l.isFinite = true
  · exact hy (isFinite_of_le_of_le hfinite (isFinite_toWhole hfinite _) hl (Binary64.le_of_lt h))
  · rw [ceil, toWhole_of_not_isFinite hfinite] at h
    exact not_lt_of_le hl h

include hu in
theorem not_floor_lt (hy : ¬ y.isFinite = true) : ¬ u.floor < y := by
  intro h
  by_cases hfinite : u.isFinite = true
  · exact hy (isFinite_of_le_of_le (isFinite_toWhole hfinite _) hfinite (Binary64.le_of_lt h) hu)
  · rw [floor, toWhole_of_not_isFinite hfinite] at h
    exact not_lt_of_le hu h

end Ends

/-- A whole number between the whole ends of bounds; it is finite. -/
structure IsWholeWithin (l u x : Binary64) : Prop where
  isFinite : x.isFinite = true
  isWhole : x.IsWhole
  ceil_le : Scalar.ceil l ≤ x
  le_floor : x ≤ Scalar.floor u

end Binary64

/-! ### Columns of the rounded point -/

namespace Rounding

section Columns

variable {α : Type} [Scalar α] {p : Problem α} {b : Box α} {n : Node α} {x : Array α}
  {w : Weights α} {t : Locks} {s s' : Array α × Stream}

/-- What an integer column with bounds `l` and `u` and value `y` is rounded to. -/
inductive RoundsTo (l u y : α) : α → Prop
  | near (h : Scalar.isIntegral y = true) : RoundsTo l u y (Scalar.round y)
  | scored {whole v : α} (h : ¬ Scalar.isIntegral y = true)
    (hwhole : whole = Scalar.floor y ∨ whole = Scalar.ceil y ∨ whole = Scalar.round y)
    (hv : Scalar.clamp whole (Scalar.ceil l) (Scalar.floor u) = .ok v) : RoundsTo l u y v

theorem chooseWhole_cases (w : Weights α) (k : LockCount) (cost y random₁ random₂ : α) :
    let whole := chooseWhole w k cost y random₁ random₂
    whole = Scalar.floor y ∨ whole = Scalar.ceil y ∨ whole = Scalar.round y := by
  unfold chooseWhole
  dsimp only
  split
  · exact .inr (.inl rfl)
  · split
    · exact .inl rfl
    · split
      · exact .inr (.inr rfl)
      · exact .inl rfl

/-- A call for a column rounds it, and leaves all others as they are. -/
theorem roundsTo_of_roundColumn (hb : b.HasSize p.numCols) {c : Nat} (hc : c < p.numCols)
    (hs : s.1.size = p.numCols) (h : roundColumn w t p b s c = .ok s') :
    ∃ v, s'.1 = s.1.setIfInBounds c v ∧
      RoundsTo (b.lower.getD c 0) (b.upper.getD c 0) (s.1.getD c 0) v := by
  unfold roundColumn at h
  rw [Checked.read_eq_getD (hs ▸ hc) 0, Checked.ok_bind] at h
  split at h
  · cases h
    exact ⟨_, rfl, .near ‹_›⟩
  · rw [Checked.read_eq_getD (hb.1 ▸ hc) 0, Checked.read_eq_getD (hb.2 ▸ hc) 0] at h
    simp only [Checked.ok_bind] at h
    obtain ⟨v, hv, h⟩ := Checked.bind_eq_ok.1 h
    cases h
    exact ⟨v, rfl, .scored ‹_› (chooseWhole_cases _ _ _ _ _ _) hv⟩

/-- Calls for columns one after another, each of them once. -/
theorem roundsTo_of_foldlM (hb : b.HasSize p.numCols) {l : List Nat} (hl : ∀ c ∈ l, c < p.numCols)
    (hnodup : l.Nodup) (hs : s.1.size = p.numCols)
    (h : l.foldlM (roundColumn w t p b) s = .ok s') : s'.1.size = p.numCols ∧
      (∀ c ∈ l, RoundsTo (b.lower.getD c 0) (b.upper.getD c 0) (s.1.getD c 0) (s'.1.getD c 0)) ∧
      ∀ c, c ∉ l → s'.1.getD c 0 = s.1.getD c 0 := by
  induction l generalizing s with
  | nil =>
    cases h
    exact ⟨hs, nofun, fun _ _ => rfl⟩
  | cons c l ih =>
    rw [List.foldlM_cons] at h
    obtain ⟨next, hnext, h⟩ := Checked.bind_eq_ok.1 h
    obtain ⟨hc, hl⟩ := List.forall_mem_cons.1 hl
    obtain ⟨hfirst, hnodup⟩ := List.nodup_cons.1 hnodup
    obtain ⟨v, hv, hround⟩ := roundsTo_of_roundColumn hb hc hs hnext
    have hget (d : Nat) : next.1.getD d 0 = if c = d then v else s.1.getD d 0 := by
      rw [hv, getD_setIfInBounds (hs ▸ hc)]
    obtain ⟨hsize, hrounds, hother⟩ := ih hl hnodup (by rw [hv]; simpa using hs) h
    refine ⟨hsize, List.forall_mem_cons.2 ⟨?_, fun d hd => ?_⟩, fun d hd => ?_⟩
    · rw [hother c hfirst, hget, if_pos rfl]
      exact hround
    · have hne : c ≠ d := fun heq => hfirst (heq ▸ hd)
      have hd := hrounds d hd
      rwa [hget, if_neg hne] at hd
    · obtain ⟨hne, hd⟩ := not_or.1 (mt List.mem_cons.2 hd)
      rw [hother d hd, hget, if_neg (Ne.symm hne)]

/-- Each column of the rounded point: its value is brought between its bounds, and an integer column is
rounded from there. -/
theorem point_spec (hn : n.HasSize p.numCols) {seed : UInt64} (h : point w t p n seed = .ok x) :
    x.size = p.numCols ∧ ∀ c < p.numCols, ∃ y,
      Scalar.clamp (n.solution.getD c 0) (n.box.lower.getD c 0) (n.box.upper.getD c 0) = .ok y ∧
        if p.isInteger c then RoundsTo (n.box.lower.getD c 0) (n.box.upper.getD c 0) y (x.getD c 0)
        else x.getD c 0 = y := by
  by_cases hordered : n.box.IsOrdered p.numCols
  · obtain ⟨y, hy, hsize, hclamp⟩ := Box.exists_nearest_eq hn.solution hn.box hordered
    unfold point at h
    rw [hy, Checked.ok_bind] at h
    obtain ⟨s, hs, h⟩ := Checked.bind_eq_ok.1 h
    cases h
    obtain ⟨hsize, hrounds, hother⟩ := roundsTo_of_foldlM hn.box
      (fun c hc => (Problem.mem_integerColumns.1 hc).1)
      (List.nodup_range.filter _) hsize hs
    refine ⟨hsize, fun c hc => ⟨y.getD c 0, hclamp c hc, ?_⟩⟩
    split
    · exact hrounds c (Problem.mem_integerColumns.2 ⟨hc, ‹_›⟩)
    · exact hother c fun hmem => ‹¬ _› (Problem.mem_integerColumns.1 hmem).2
  · rw [point_eq_error _ _ hn hordered] at h
    cases h

end Columns

/-- An integer column lands on a whole number between its bounds exactly if its value is finite, and
the nearest whole number is between the bounds if the value counts as integral. -/
theorem RoundsTo.isWholeWithin_iff {l u y v : Binary64} (h : RoundsTo l u y v)
    (hl : l.isNaN = false) (hu : u.isNaN = false) (hy : y.isNaN = false → l ≤ y ∧ y ≤ u) :
    Binary64.IsWholeWithin l u v ↔ y.isFinite = true ∧ (Scalar.isIntegral y = true →
      Scalar.ceil l ≤ Scalar.round y ∧ Scalar.round y ≤ Scalar.floor u) := by
  cases h with
  | near hnear =>
    have hfinite := Binary64.isFinite_of_isIntegral hnear
    obtain ⟨-, hwhole, -⟩ :=
      Binary64.toWhole_bounds (Binary64.isNaN_of_isFinite hfinite) (Binary64.upperHalf y.magnitude)
    constructor
    · rintro ⟨-, -, hlow, hhigh⟩
      exact ⟨hfinite, fun _ => ⟨hlow, hhigh⟩⟩
    · rintro ⟨-, hround⟩
      obtain ⟨hlow, hhigh⟩ := hround hnear
      exact ⟨Binary64.isFinite_toWhole hfinite _, hwhole, hlow, hhigh⟩
  | @scored whole _ hfar hchosen hv =>
    obtain ⟨away, rfl⟩ : ∃ away, whole = y.toWhole away := by
      rcases hchosen with rfl | rfl | rfl <;> exact ⟨_, rfl⟩
    by_cases hfinite : y.isFinite = true
    · have hnumber := Binary64.isNaN_of_isFinite hfinite
      have hwholeFinite := Binary64.isFinite_toWhole hfinite away
      obtain ⟨hwholeNumber, hwhole, -⟩ := Binary64.toWhole_bounds hnumber away
      obtain ⟨hle, hge⟩ := hy hnumber
      obtain ⟨hlow, hhigh⟩ := (Binary64.clamp_bounds hv).2 hwholeNumber
      refine iff_of_true ⟨?_, ?_, hlow, hhigh⟩ ⟨hfinite, fun hnear => absurd hnear hfar⟩
      · rcases (Binary64.clamp_cases hv).2 with ⟨rfl, -⟩ | ⟨rfl, hbelow⟩ | ⟨rfl, habove⟩
        · exact hwholeFinite
        · exact Binary64.isFinite_ceil_of_lt hle hwholeFinite hfinite hbelow
        · exact Binary64.isFinite_floor_of_lt hge hwholeFinite hfinite habove
      · rcases (Binary64.clamp_cases hv).2 with ⟨rfl, -⟩ | ⟨rfl, -⟩ | ⟨rfl, -⟩
        · exact hwhole
        · exact (Binary64.ceil_bounds hl).2.1
        · exact (Binary64.floor_bounds hu).2.1
    · -- it is its own whole number, and the column keeps it
      rw [Binary64.toWhole_of_not_isFinite hfinite] at hv
      refine iff_of_false (fun hwithin => ?_) fun h => hfinite h.1
      have hvn := Binary64.isNaN_of_isFinite hwithin.isFinite
      rw [(Binary64.clamp_bounds hv).1] at hvn
      obtain ⟨hle, hge⟩ := hy hvn
      rcases (Binary64.clamp_cases hv).2 with ⟨rfl, -⟩ | ⟨-, hbelow⟩ | ⟨-, habove⟩
      · exact hfinite hwithin.isFinite
      · exact Binary64.not_lt_ceil hle hfinite hbelow
      · exact Binary64.not_floor_lt hge hfinite habove

end Rounding

/-! ### What a run hands to the repair -/

/-- A run that gets past its tables and the check for empty domains hands this point to the repair. -/
def Rounding.HandsOver {α : Type} [Scalar α] (r : Rounding α) (c : Core α) (p : Problem α)
    (n : Node α) (x : Array α) : Prop :=
  ∃ t, r.ensureLocks p = .ok t ∧ p.emptyIntegerDomain n.box.lower n.box.upper = .ok none ∧
    point t.weights (t.locks.getD #[]) p n c.settings.seed = .ok x

theorem Rounding.HandsOver.answer_eq {α : Type} [Scalar α] {r : Rounding α} {c : Core α}
    {p : Problem α} {n : Node α} {x : Array α} (h : r.HandsOver c p n x) (best : α) :
    (r.trial c p n best).answer = (attempt c.settings p n.box best x).settle p n.box best := by
  obtain ⟨t, hlocks, hdomain, hpoint⟩ := h
  unfold trial
  simp only [hlocks, hdomain, hpoint]

/-- Integer columns are whole numbers between their bounds, and so are the others but for being
whole. -/
structure Box.HasRoundedPoint (b : Box Binary64) (p : Problem Binary64) (x : Array Binary64) :
    Prop where
  integer : ∀ c < p.numCols, p.isInteger c = true →
    Binary64.IsWholeWithin (b.lower.getD c 0) (b.upper.getD c 0) (x.getD c 0)
  continuous : ∀ c < p.numCols, p.isInteger c = false →
    b.lower.getD c 0 ≤ x.getD c 0 ∧ x.getD c 0 ≤ b.upper.getD c 0

/-- The relaxation has a number at each column. Between the bounds it is finite at integer columns,
and if it counts as integral there, its nearest whole number is between the bounds, too. -/
def Node.RoundsInside (n : Node Binary64) (p : Problem Binary64) : Prop :=
  ∀ c < p.numCols,
    if p.isInteger c then
      ∃ y, Scalar.clamp (n.solution.getD c 0) (n.box.lower.getD c 0) (n.box.upper.getD c 0) =
          .ok y ∧ y.isFinite = true ∧ (Scalar.isIntegral y = true →
        Scalar.ceil (n.box.lower.getD c 0) ≤ Scalar.round y ∧
          Scalar.round y ≤ Scalar.floor (n.box.upper.getD c 0))
    else (n.solution.getD c 0).isNaN = false

namespace Rounding

variable {p : Problem Binary64} {n : Node Binary64} {x : Array Binary64} {w : Weights Binary64}
  {t : Locks} {seed : UInt64}

theorem hasRoundedPoint_of_point (hn : n.HasSize p.numCols) (hordered : n.box.IsOrdered p.numCols)
    (h : point w t p n seed = .ok x) : n.box.HasRoundedPoint p x ↔ n.RoundsInside p := by
  obtain ⟨-, hcolumns⟩ := point_spec hn h
  have hnumeric := hordered.isNumeric hn.box
  have hinteger {c : Nat} (hc : c < p.numCols) (hi : p.isInteger c = true) {y : Binary64}
      (hy : Scalar.clamp (n.solution.getD c 0) (n.box.lower.getD c 0) (n.box.upper.getD c 0) = .ok y)
      (hround : RoundsTo (n.box.lower.getD c 0) (n.box.upper.getD c 0) y (x.getD c 0)) :=
    hround.isWholeWithin_iff (hnumeric.lower c hc) (hnumeric.upper c hc) fun hnumber =>
      (Binary64.clamp_bounds hy).2 ((Binary64.clamp_bounds hy).1 ▸ hnumber)
  constructor
  · rintro ⟨hwhole, hwithin⟩ c hc
    obtain ⟨y, hy, hcolumn⟩ := hcolumns c hc
    by_cases hi : p.isInteger c = true
    · rw [if_pos hi] at hcolumn ⊢
      exact ⟨y, hy, (hinteger hc hi hy hcolumn).1 (hwhole c hc hi)⟩
    · rw [if_neg hi] at hcolumn ⊢
      rw [← (Binary64.clamp_bounds hy).1, ← hcolumn]
      exact (Binary64.isNaN_of_le (hwithin c hc (Bool.eq_false_iff.2 hi)).1).2
  · intro hrounds
    refine ⟨fun c hc hi => ?_, fun c hc hi => ?_⟩ <;>
      obtain ⟨y, hy, hcolumn⟩ := hcolumns c hc <;> have hinside := hrounds c hc
    · rw [if_pos hi] at hcolumn hinside
      obtain ⟨y', hy', hinside⟩ := hinside
      obtain rfl := Except.ok.inj (hy'.symm.trans hy)
      exact (hinteger hc hi hy hcolumn).2 hinside
    · rw [if_neg (Bool.eq_false_iff.1 hi)] at hcolumn hinside
      rw [hcolumn]
      exact (Binary64.clamp_bounds hy).2 hinside

end Rounding

namespace Heuristic

variable {h : Heuristic Binary64} {m : Model Binary64} {buffer : Array Binary64}
  {r : Rounding Binary64}

/-- Between bounds in order that leave each integer column a whole number, a run of rounding hands
a point to the repair, and ends as the repair and its sub-problem do. The integer columns of the point
are whole numbers between their bounds and the other columns keep theirs, exactly if the relaxation
rounds inside. -/
theorem hasRoundedPoint_iff (hkind : h.kind = .rounding r) (hcheck : h.check m buffer = .ok ())
    (hinteger : m.problem.numIntegers ≠ 0) (hlocks : ∃ t, r.ensureLocks m.problem = .ok t)
    (hordered : m.node.box.IsOrdered m.problem.numCols)
    (hdomain : m.problem.emptyIntegerDomain m.node.box.lower m.node.box.upper = .ok none)
    (best : Binary64) :
    ∃ x, r.HandsOver h.core m.problem m.node x ∧
      (h.seek m best buffer).outcome =
        ((Rounding.attempt h.core.settings m.problem m.node.box best x).settle m.problem
          m.node.box best).map .ofAnswer ∧
      (m.node.box.HasRoundedPoint m.problem x ↔ m.node.RoundsInside m.problem) := by
  have hn := (isReady_of_check hcheck).node
  obtain ⟨t, ht⟩ := hlocks
  obtain ⟨o, ho, hwhole⟩ := Problem.exists_emptyIntegerDomain_eq (hordered.isNumeric hn.box)
  obtain rfl : o = none := Except.ok.inj (ho.symm.trans hdomain)
  obtain ⟨x, hx, -⟩ := Rounding.exists_point_eq t.weights (t.locks.getD #[]) hn hordered
    (hwhole.1 rfl) h.core.settings.seed
  have hover : r.HandsOver h.core m.problem m.node x := ⟨t, ht, hdomain, hx⟩
  refine ⟨x, hover, ?_, Rounding.hasRoundedPoint_of_point hn hordered hx⟩
  have htrial : (h.kind.trial h.core m.problem m.node best).answer =
      (r.trial h.core m.problem m.node best).answer := by
    rw [hkind]
    rfl
  rw [outcome_seek hcheck hinteger, htrial, hover.answer_eq]

/-- An integer column whose bounds are a sliver above zero and a half above one. -/
def sliver : Problem Binary64 where
  columns := #[⟨1, Scalar.decimal 5 6, Scalar.decimal 15 1, true, 0⟩]
  rowBounds := #[]
  matrix := .ofEntries 0 1 []
  sosSets := []
  numCols_matrix := rfl
  numRows_matrix := by simp

/-- The relaxation is at the lower bound. -/
def atSliver : Model Binary64 where
  problem := sliver
  node := .root sliver #[Scalar.decimal 5 6] (Scalar.decimal 5 6)
  incumbent := Model.noIncumbent
  messages := #[]

/-- The relaxation is far from all whole numbers. -/
def aboveSliver : Model Binary64 :=
  { atSliver with node := .root sliver #[Scalar.decimal 7 1] (Scalar.decimal 7 1) }

/-- Away from whole numbers the column is brought between the whole ends of its bounds. -/
theorem hasRoundedPoint_iff_sliver :
    check (ofKind (.rounding .fresh)).attachOnly aboveSliver #[0] = .ok () ∧
      sliver.numIntegers ≠ 0 ∧ (∃ t, Rounding.fresh.ensureLocks sliver = .ok t) ∧
      aboveSliver.node.box.IsOrdered 1 ∧
      sliver.emptyIntegerDomain aboveSliver.node.box.lower aboveSliver.node.box.upper = .ok none ∧
      ∃ x, Rounding.fresh.HandsOver (ofKind (.rounding .fresh)).attachOnly.core sliver
          aboveSliver.node x ∧
        aboveSliver.node.RoundsInside sliver ∧ aboveSliver.node.box.HasRoundedPoint sliver x := by
  have hcheck : check (ofKind (.rounding .fresh)).attachOnly aboveSliver #[0] = .ok () := by
    decide +kernel
  have hordered : aboveSliver.node.box.IsOrdered 1 := by decide +kernel
  have hdomain : sliver.emptyIntegerDomain aboveSliver.node.box.lower
      aboveSliver.node.box.upper = .ok none := by
    decide +kernel
  have hinteger : sliver.numIntegers ≠ 0 := by decide +kernel
  obtain ⟨x, hx, -, hiff⟩ := hasRoundedPoint_iff (r := .fresh) rfl hcheck hinteger ⟨_, rfl⟩
    hordered hdomain 0
  have hinside : aboveSliver.node.RoundsInside sliver := by
    intro c hc
    obtain rfl : c = 0 := Nat.lt_one_iff.1 hc
    have hi : sliver.isInteger 0 = true := rfl
    rw [if_pos hi]
    exact ⟨Scalar.decimal 7 1, by decide +kernel, by decide +kernel,
      fun hnear => absurd hnear (by decide +kernel)⟩
  exact ⟨hcheck, hinteger, ⟨_, rfl⟩, hordered, hdomain, x, hx, hinside, hiff.2 hinside⟩

/-- At the lower bound the column is rounded to zero, which is below it, and the run ends with nothing,
although one is between the bounds. -/
theorem not_hasRoundedPoint_sliver :
    check (ofKind (.rounding .fresh)).attachOnly atSliver #[0] = .ok () ∧
      atSliver.node.box.IsOrdered 1 ∧
      sliver.emptyIntegerDomain atSliver.node.box.lower atSliver.node.box.upper = .ok none ∧
      Rounding.fresh.HandsOver (ofKind (.rounding .fresh)).attachOnly.core sliver atSliver.node #[0] ∧
      ¬ atSliver.node.box.HasRoundedPoint sliver #[0] ∧
      atSliver.node.box.HasRoundedPoint sliver #[1] ∧
      (seek (ofKind (.rounding .fresh)).attachOnly atSliver Scalar.infinity #[0]).outcome =
        .ok .nothing := by
  refine ⟨by decide +kernel, by decide +kernel, by decide +kernel,
    ⟨_, rfl, by decide +kernel, by decide +kernel⟩, fun h => ?_,
    ⟨fun c hc _ => ?_, fun c hc hi => ?_⟩, by decide +kernel⟩
  · have habove : ¬ Scalar.ceil (atSliver.node.box.lower.getD 0 0) ≤ (0 : Binary64) := by
      decide +kernel
    exact habove (h.integer 0 (by decide) rfl).ceil_le
  · obtain rfl : c = 0 := Nat.lt_one_iff.1 hc
    refine ⟨by decide +kernel, ?_, by decide +kernel, by decide +kernel⟩
    unfold Binary64.IsWhole Binary64.WholeAt
    decide +kernel
  · obtain rfl : c = 0 := Nat.lt_one_iff.1 hc
    cases hi

end Heuristic

end PrimalHeuristics
