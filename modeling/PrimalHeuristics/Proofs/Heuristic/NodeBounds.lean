import PrimalHeuristics.Proofs.Binary64.Whole
import PrimalHeuristics.Proofs.Heuristic.Totality

/-!
# What the bounds of a node decide

Rounding and partial fixing look at the bounds of a node before anything else. If an integer column
is left no whole number, there is no solution and the run says so. Other columns are not looked at,
and the nearest point of crossed bounds, which does not exist, stops the run.

* `Box.LeavesIntegers`: bounds that leave all integer columns a whole number;
* `Problem.exists_emptyIntegerDomain_eq`: the check of integer columns;
* `PartialFix.Slips`: fixing comes to a column that is left no whole number;
* `Box.Decides`, `Rounding.decides_trial`, `PartialFix.decides_trial`: the three ends of a run.
-/

namespace PrimalHeuristics

open SubProblem

section Bounds

variable {α : Type} [Scalar α]

/-! ### Whole numbers between bounds -/

/-- A whole number is left between the bounds of a column. -/
def Box.HoldsWhole (b : Box α) (c : Nat) : Prop :=
  Scalar.ceil (b.lower.getD c 0) ≤ Scalar.floor (b.upper.getD c 0)

instance (b : Box α) (c : Nat) : Decidable (b.HoldsWhole c) :=
  inferInstanceAs (Decidable (_ ≤ _))

/-- All integer columns are left a whole number. -/
def Box.LeavesIntegers (b : Box α) (p : Problem α) : Prop :=
  ∀ c ∈ p.integerColumns, b.HoldsWhole c

instance (b : Box α) (p : Problem α) : Decidable (b.LeavesIntegers p) :=
  inferInstanceAs (Decidable (∀ c ∈ p.integerColumns, _))

variable {p : Problem α} {b : Box α} {n : Node α} {x : Array α} {k : Nat}

/-! ### Rounding -/

namespace Rounding

theorem exists_roundColumn_eq (w : Weights α) (t : Locks) (hb : b.HasSize p.numCols) {c : Nat}
    (hc : c < p.numCols) (h : b.HoldsWhole c) {s : Array α × Stream}
    (hs : s.1.size = p.numCols) :
    ∃ s', roundColumn w t p b s c = .ok s' ∧ s'.1.size = p.numCols := by
  unfold roundColumn
  rw [Checked.read_eq_getD (hs ▸ hc) 0, Checked.ok_bind]
  split
  · exact ⟨_, rfl, by simpa using hs⟩
  · rw [Checked.read_eq_getD (hb.1 ▸ hc) 0, Checked.read_eq_getD (hb.2 ▸ hc) 0]
    obtain ⟨v, hv⟩ := Scalar.exists_clamp_eq h (chooseWhole w (t.get c) (p.cost c)
      (s.1.getD c 0) (s.2.uniform α).1 ((s.2.uniform α).2.uniform α).1)
    simp only [Checked.ok_bind, hv]
    exact ⟨_, rfl, by simpa using hs⟩

/-- Bounds that leave all columns a choice have a rounded point. -/
theorem exists_point_eq (w : Weights α) (t : Locks) (hn : n.HasSize p.numCols)
    (hordered : n.box.IsOrdered p.numCols) (hwhole : n.box.LeavesIntegers p) (seed : UInt64) :
    ∃ x, point w t p n seed = .ok x ∧ x.size = p.numCols := by
  obtain ⟨x, hx, hsize, -⟩ := Box.exists_nearest_eq hn.solution hn.box hordered
  obtain ⟨s, hs, hrounded⟩ := Checked.foldlM_rule (l := p.integerColumns)
    (P := fun s : Array α × Stream => s.1.size = p.numCols)
    (fun s hs c hc => exists_roundColumn_eq w t hn.box (Problem.mem_integerColumns.1 hc).1
      (hwhole c hc) hs) (s := (x, Core.nodeStream seed n.path)) hsize
  refine ⟨s.1, ?_, hrounded⟩
  unfold point
  rw [hx, Checked.ok_bind, hs]
  rfl

theorem point_eq_error (w : Weights α) (t : Locks) (hn : n.HasSize p.numCols)
    (h : ¬ n.box.IsOrdered p.numCols) (seed : UInt64) :
    point w t p n seed = .error .emptyInterval := by
  unfold point
  rw [Box.nearest_eq_error hn.solution hn.box h]
  rfl

end Rounding

/-! ### Partial fixing -/

namespace PartialFix

/-- The entry is too far from a whole number to be fixed. -/
def IsFractional (x : Array α) (c : Nat) : Prop :=
  Scalar.intTol < Scalar.abs (x.getD c 0 - Scalar.round (x.getD c 0))

instance (x : Array α) (c : Nat) : Decidable (IsFractional x c) :=
  inferInstanceAs (Decidable (_ < _))

/-- A column of the list is left no whole number, and no entry up to it is fractional. -/
def Slips (b : Box α) (x : Array α) (l : List Nat) : Prop :=
  ∃ before c after, l = before ++ c :: after ∧ ¬ b.HoldsWhole c ∧
    ∀ d ∈ before ++ [c], ¬ IsFractional x d

theorem not_slips_nil : ¬ Slips b x [] := by
  rintro ⟨before, c, after, h, -⟩
  cases before <;> cases h

theorem slips_cons {c : Nat} {l : List Nat} :
    Slips b x (c :: l) ↔ ¬ IsFractional x c ∧ (b.HoldsWhole c → Slips b x l) := by
  constructor
  · rintro ⟨before, d, after, h, hd, hwhole⟩
    cases before with
    | nil =>
      cases h
      exact ⟨hwhole c (by simp), fun hc => absurd hc hd⟩
    | cons e before =>
      cases h
      exact ⟨hwhole c (by simp), fun _ => ⟨before, d, after, rfl, hd,
        fun e he => hwhole e (List.mem_cons_of_mem c he)⟩⟩
  · rintro ⟨hc, h⟩
    by_cases hd : b.HoldsWhole c
    · obtain ⟨before, d, after, rfl, hd, hwhole⟩ := h hd
      refine ⟨c :: before, d, after, rfl, hd, fun e he => ?_⟩
      rcases List.mem_cons.1 he with rfl | he
      · exact hc
      · exact hwhole e he
    · exact ⟨[], c, l, rfl, hd, by simpa using hc⟩

/-- Columns that are all left a whole number never let fixing slip. -/
theorem not_slips_of_forall {l : List Nat} (h : ∀ c ∈ l, b.HoldsWhole c) : ¬ Slips b x l := by
  rintro ⟨before, c, after, rfl, hc, -⟩
  exact hc (h c (by simp))

/-- One more column is fixed, unless its entry is fractional. -/
theorem fixColumns_cons (hx : x.size = k) (hb : b.HasSize k) {c : Nat} (hc : c < k) (l : List Nat)
    (y : Array α) : fixColumns b x (c :: l) y =
      if IsFractional x c then .ok none
      else Scalar.clamp (Scalar.round (x.getD c 0)) (Scalar.ceil (b.lower.getD c 0))
        (Scalar.floor (b.upper.getD c 0)) >>= fun v => fixColumns b x l (y.setIfInBounds c v) := by
  rw [fixColumns, Checked.read_eq_getD (hx ▸ hc) 0, Checked.read_eq_getD (hb.1 ▸ hc) 0,
    Checked.read_eq_getD (hb.2 ▸ hc) 0]
  rfl

theorem fixColumns_eq_error {l : List Nat} (hx : x.size = k) (hb : b.HasSize k)
    (hl : ∀ c ∈ l, c < k) (h : Slips b x l) (y : Array α) :
    fixColumns b x l y = .error .emptyInterval := by
  induction l generalizing y with
  | nil => exact absurd h not_slips_nil
  | cons c l ih =>
    obtain ⟨hwhole, hlater⟩ := slips_cons.1 h
    rw [fixColumns_cons hx hb (hl c List.mem_cons_self), if_neg hwhole]
    by_cases hholds : b.HoldsWhole c
    · obtain ⟨v, hv⟩ := Scalar.exists_clamp_eq hholds (Scalar.round (x.getD c 0))
      rw [hv, Checked.ok_bind]
      exact ih (fun d hd => hl d (List.mem_cons_of_mem c hd)) (hlater hholds) _
    · rw [Scalar.clamp_eq_error hholds]
      rfl

theorem exists_fixColumns_eq {l : List Nat} (hx : x.size = k) (hb : b.HasSize k)
    (hl : ∀ c ∈ l, c < k) (h : ¬ Slips b x l) {y : Array α} (hy : y.size = k) :
    ∃ o, fixColumns b x l y = .ok o ∧ ∀ z, o = some z → z.size = k := by
  induction l generalizing y with
  | nil => exact ⟨some y, rfl, fun z hz => by cases hz; exact hy⟩
  | cons c l ih =>
    rw [fixColumns_cons hx hb (hl c List.mem_cons_self)]
    by_cases hwhole : IsFractional x c
    · exact ⟨none, if_pos hwhole, nofun⟩
    · obtain ⟨hholds, hlater⟩ : b.HoldsWhole c ∧ ¬ Slips b x l := by
        simpa [slips_cons, hwhole] using h
      obtain ⟨v, hv⟩ := Scalar.exists_clamp_eq hholds (Scalar.round (x.getD c 0))
      rw [if_neg hwhole, hv, Checked.ok_bind]
      exact ih (fun d hd => hl d (List.mem_cons_of_mem c hd)) hlater (by simpa using hy)

/-- The bounds let the fix set be fixed. -/
def Fits (f : PartialFix) (p : Problem α) (n : Node α) : Prop :=
  n.box.IsOrdered p.numCols ∧ ¬ Slips n.box (source p n) f.fixSet

theorem exists_values_eq {f : PartialFix} (hfix : ∀ c ∈ f.fixSet, c < p.numCols)
    (hn : n.HasSize p.numCols) (h : f.Fits p n) :
    ∃ o, f.values p n = .ok o ∧ ∀ z, o = some z → z.size = p.numCols := by
  obtain ⟨y, hy, hsize, -⟩ := Box.exists_nearest_eq (size_source hn) hn.box h.1
  unfold values
  rw [hy, Checked.ok_bind]
  exact exists_fixColumns_eq (size_source hn) hn.box hfix h.2 hsize

theorem values_eq_error {f : PartialFix} (hfix : ∀ c ∈ f.fixSet, c < p.numCols)
    (hn : n.HasSize p.numCols) (h : ¬ f.Fits p n) : f.values p n = .error .emptyInterval := by
  unfold values
  by_cases hordered : n.box.IsOrdered p.numCols
  · obtain ⟨y, hy, -⟩ := Box.exists_nearest_eq (size_source hn) hn.box hordered
    rw [hy, Checked.ok_bind]
    exact fixColumns_eq_error (size_source hn) hn.box hfix
      (not_not.1 fun hslips => h ⟨hordered, hslips⟩) y
  · rw [Box.nearest_eq_error (size_source hn) hn.box hordered]
    rfl

theorem exists_attempt_eq {f : PartialFix} (hfix : ∀ c ∈ f.fixSet, c < p.numCols)
    (hn : n.HasSize p.numCols) (h : f.Fits p n) (s : Settings α) (best : α) :
    ∃ o, (f.attempt s p n best).candidate = .ok o := by
  obtain ⟨o, ho, hsize⟩ := exists_values_eq hfix hn h
  unfold attempt
  rw [ho]
  cases o with
  | none => exact ⟨none, rfl⟩
  | some x =>
    exact Attempt.exists_complete_eq s (hsize x rfl) (freesIntegers_freeFlags f _ p) hn.box _ _ _

end PartialFix

/-! ### The ends of a run -/

/-- What the bounds of a node decide about a run: it ends with nothing if an integer column is left
no whole number; otherwise it has an answer if they fit, and stops if they do not. -/
inductive Box.Decides (b : Box α) (p : Problem α) (fit : Prop) :
    Except (Failure α) (Option (α × Array α)) → Prop
  | nothing (h : ¬ b.LeavesIntegers p) : Decides b p fit (.ok none)
  | answer (hwhole : b.LeavesIntegers p) (h : fit) (o : Option (α × Array α)) :
      Decides b p fit (.ok o)
  | stop (hwhole : b.LeavesIntegers p) (h : ¬ fit) :
      Decides b p fit (.error (.fault .emptyInterval))

/-- A run has an answer exactly if bounds that leave all integer columns a whole number fit. -/
theorem Box.Decides.exists_answer_iff {fit : Prop} {a : Except (Failure α) (Option (α × Array α))}
    (h : b.Decides p fit a) : (∃ o, a = .ok o) ↔ (b.LeavesIntegers p → fit) := by
  cases h with
  | nothing h => exact iff_of_true ⟨none, rfl⟩ fun hwhole => absurd hwhole h
  | answer _ h o => exact iff_of_true ⟨o, rfl⟩ fun _ => h
  | stop hwhole h => exact iff_of_false nofun fun hfit => h (hfit hwhole)

end Bounds

/-! ### Floating-point bounds -/

/-- Vectors of the right length, all of whose entries are numbers. -/
structure Box.IsNumeric (b : Box Binary64) (k : Nat) : Prop where
  hasSize : b.HasSize k
  lower : ∀ c < k, (b.lower.getD c 0).isNaN = false
  upper : ∀ c < k, (b.upper.getD c 0).isNaN = false

/-- Bounds in order are numbers. -/
theorem Box.IsOrdered.isNumeric {b : Box Binary64} {k : Nat} (h : b.IsOrdered k)
    (hb : b.HasSize k) : b.IsNumeric k :=
  ⟨hb, fun c hc => (Binary64.isNaN_of_le (h c hc)).1, fun c hc => (Binary64.isNaN_of_le (h c hc)).2⟩

section Numbers

variable {p : Problem Binary64} {b : Box Binary64} {n : Node Binary64} {best : Binary64}
  {k c : Nat}

theorem Box.IsNumeric.isComparable (hb : b.IsNumeric k) : b.IsComparable k := by
  intro c hc integer
  have hl := hb.lower c hc
  have hu := hb.upper c hc
  have hends : ∀ {l u : Binary64}, l.isNaN = false → u.isNaN = false → u < l ∨ l ≤ u :=
    fun {l u} hl hu => or_iff_not_imp_left.2 (Binary64.le_of_not_lt hu hl)
  cases integer with
  | false => exact hends hl hu
  | true => exact hends (Binary64.ceil_bounds hl).1 (Binary64.floor_bounds hu).1

/-- A column that is left a whole number has bounds that are in order. -/
theorem Box.IsNumeric.le_of_holdsWhole (hb : b.IsNumeric k) (hc : c < k) (h : b.HoldsWhole c) :
    b.lower.getD c 0 ≤ b.upper.getD c 0 := by
  obtain ⟨hceil, -, hle⟩ := Binary64.ceil_bounds (hb.lower c hc)
  obtain ⟨hfloor, -, hle'⟩ := Binary64.floor_bounds (hb.upper c hc)
  have hlower : b.lower.getD c 0 ≤ Scalar.ceil (b.lower.getD c 0) :=
    (Binary64.le_iff_place (hb.lower c hc) hceil).2 hle
  have hupper : Scalar.floor (b.upper.getD c 0) ≤ b.upper.getD c 0 :=
    (Binary64.le_iff_place hfloor (hb.upper c hc)).2 hle'
  exact Binary64.le_trans hlower (Binary64.le_trans h hupper)

/-- The check of integer columns finds one exactly if some is left no whole number. -/
theorem Problem.exists_emptyIntegerDomain_eq (hb : b.IsNumeric p.numCols) :
    ∃ o, p.emptyIntegerDomain b.lower b.upper = .ok o ∧ (o = none ↔ b.LeavesIntegers p) := by
  have hcheck : ∀ c ∈ p.integerColumns, (do
      let l ← Checked.read b.lower c
      let u ← Checked.read b.upper c
      return decide (Scalar.floor u + Scalar.intTol < Scalar.ceil l)) =
        .ok (!decide (b.HoldsWhole c)) := by
    intro c hc
    have hc := (mem_integerColumns.1 hc).1
    rw [Checked.read_eq_getD (hb.hasSize.1 ▸ hc) 0, Checked.read_eq_getD (hb.hasSize.2 ▸ hc) 0]
    simp only [Checked.ok_bind, Checked.pure_eq]
    rw [Except.ok.injEq, ← decide_not]
    exact decide_eq_decide.2
      (Binary64.floor_add_intTol_lt_ceil_iff (hb.lower c hc) (hb.upper c hc))
  refine ⟨_, Checked.findM?_eq hcheck, ?_⟩
  rw [List.find?_eq_none]
  simp [Box.LeavesIntegers]

/-- What the bounds decide about a run of rounding, once there are locks. -/
theorem Rounding.decides_trial {r s : Rounding Binary64} (hlocks : r.ensureLocks p = .ok s)
    (hn : n.HasSize p.numCols) (hb : n.box.IsNumeric p.numCols) (c : Core Binary64)
    (best : Binary64) :
    n.box.Decides p (n.box.IsOrdered p.numCols) (r.trial c p n best).answer := by
  obtain ⟨o, hdomain, ho⟩ := Problem.exists_emptyIntegerDomain_eq hb
  unfold trial
  rw [hlocks]
  dsimp only
  rw [hdomain]
  cases o with
  | some d => exact .nothing fun h => by cases ho.2 h
  | none =>
    have hwhole := ho.1 rfl
    dsimp only
    by_cases hordered : n.box.IsOrdered p.numCols
    · obtain ⟨x, hx, hsize⟩ := exists_point_eq s.weights (s.locks.getD #[]) hn hordered hwhole
        c.settings.seed
      rw [hx]
      dsimp only
      obtain ⟨answer, hanswer⟩ := Attempt.exists_settle_eq
        (exists_attempt_eq hb.hasSize hb.isComparable hsize c.settings best) hb.hasSize best
      rw [hanswer]
      exact .answer hwhole hordered answer
    · rw [point_eq_error _ _ hn hordered]
      exact .stop hwhole hordered

/-- What the bounds decide about a run of partial fixing, if the fix set has columns of the problem
only. -/
theorem PartialFix.decides_trial {f : PartialFix} (hcols : f.numCols = p.numCols)
    (hfix : ∀ c ∈ f.fixSet, c < p.numCols) (hn : n.HasSize p.numCols)
    (hb : n.box.IsNumeric p.numCols) (c : Core Binary64) (best : Binary64) :
    n.box.Decides p (f.Fits p n) (f.trial c p n best).answer := by
  obtain ⟨o, hdomain, ho⟩ := Problem.exists_emptyIntegerDomain_eq hb
  unfold trial
  rw [if_pos hcols, hdomain]
  cases o with
  | some d => exact .nothing fun h => by cases ho.2 h
  | none =>
    have hwhole := ho.1 rfl
    by_cases hfits : f.Fits p n
    · obtain ⟨answer, hanswer⟩ := Attempt.exists_settle_eq
        (exists_attempt_eq hfix hn hfits c.settings best) hn.box best
      dsimp only
      rw [hanswer]
      exact .answer hwhole hfits answer
    · dsimp only
      unfold attempt
      rw [values_eq_error hfix hn hfits]
      exact .stop hwhole hfits

end Numbers

end PrimalHeuristics
