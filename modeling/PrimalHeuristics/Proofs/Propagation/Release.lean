import PrimalHeuristics.Proofs.Propagation.Missing

/-!
# Missing bounds replaced by infinite ones

Propagation tests whether the product of a bound with a coefficient is large, not the bound itself. So
a small coefficient turns a missing bound into a bound, and the answer then depends on the number that
stands for it. This module runs propagation on a box and on the same box with infinite bounds in the
place of missing ones. If no coefficient turns a missing bound into a bound, both runs go in step, and
only the first one may stop alone: a limit may cross the number that stands for a missing bound, but not
an infinite bound. The second run then leaves some column no room for values that are not larger than
any bound.

* `Propagation.TreatsAlike`: both boxes get the same answer;
* `Box.KeepsMissing`: no coefficient turns a missing bound into a bound;
* `Box.HasRoom`, `Propagation.NoRoom`: boxes with and without room in each column;
* `Propagation.Follows`: a box that has more room where bounds are missing;
* `Propagation.InStep.tightenEntry`, `Propagation.goOn_sweeps`: the runs go in step;
* `Propagation.treatsAlike_iff`: when both boxes get the same answer.
-/

namespace PrimalHeuristics

section

variable {α : Type} [Scalar α]

/-- All missing bounds are replaced by infinite ones. -/
def Box.released (b : Box α) : Box α :=
  ⟨b.lower.map Scalar.released, b.upper.map Scalar.released⟩

namespace Propagation

/-- The relaxation finds that a box holds no feasible point. -/
def IsInfeasible (passes : Nat) (s : SubProblem α) (b : Box α) : Prop :=
  ∃ c, bound passes s b = .ok (.infeasible, c)

/-- The answer of the relaxation, without the box that is left. -/
def answer (passes : Nat) (s : SubProblem α) (b : Box α) : Option (NodeBound α) :=
  (bound passes s b).toOption.map (·.1)

/-- Missing bounds may be replaced by infinite ones: the answer stays the same, and the boxes that are
left agree after the same replacement. -/
def TreatsAlike (passes : Nat) (s : SubProblem α) (b : Box α) : Prop :=
  ∃ a c d, bound passes s b = .ok (a, c) ∧ bound passes s b.released = .ok (a, d) ∧
    (a = .infeasible ∨ c.released = d.released)

end Propagation

end

/-- No coefficient turns a missing bound into a bound. -/
def Box.KeepsMissing (b : Box Binary64) (s : SubProblem Binary64) : Prop :=
  ∀ j < s.numCols, ∀ side : Side,
    Scalar.isMissing (side.bound b j) = true → Propagation.IsOpen s j side (side.bound b j)

instance (b : Box Binary64) (s : SubProblem Binary64) : Decidable (b.KeepsMissing s) := by
  unfold Box.KeepsMissing
  infer_instance

/-- All columns have room for values that are not larger than any bound. -/
def Box.HasRoom (b : Box Binary64) (s : SubProblem Binary64) : Prop :=
  ∀ j < s.numCols, ∀ side : Side, side.HasRoom (side.bound b j)

namespace Propagation

variable {s : SubProblem Binary64} {j : Nat}

/-! ### Rows -/

/-- The second box has the bounds of the first one, or more room where the first one has a missing
bound. -/
def Follows (s : SubProblem Binary64) (b c : Box Binary64) : Prop :=
  ∀ j < s.numCols, ∀ side : Side,
    Leaves s j side (side.bound b j) (side.bound b j) (side.bound c j)

section Rows

variable {b c : Box Binary64} {r : Nat} {e : Nat × Binary64}

theorem sameLimit_contribution (h : Follows s b c) (he : e ∈ s.matrix.row r) :
    let k := ActivityRange.contribution e.2 (b.lower.getD e.1 0) (b.upper.getD e.1 0)
    let k' := ActivityRange.contribution e.2 (c.lower.getD e.1 0) (c.upper.getD e.1 0)
    SameLimit k.1 k'.1 ∧ SameLimit k.2 k'.2 := by
  have hj := SubProblem.lt_of_mem_row he
  have hlower := (h e.1 hj .lower).sameLimit_mul he
  have hupper := (h e.1 hj .upper).sameLimit_mul he
  unfold ActivityRange.contribution
  split
  · exact ⟨hlower, hupper⟩
  · exact ⟨hupper, hlower⟩

/-- The range of a row is the same in both runs. -/
theorem onBox_eq_of_follows (h : Follows s b c) (r : Nat) :
    ActivityRange.onBox (s.matrix.row r) b = ActivityRange.onBox (s.matrix.row r) c := by
  unfold ActivityRange.onBox
  refine List.foldl_ext _ _ _ fun g e he => ?_
  obtain ⟨hmin, hmax⟩ := sameLimit_contribution h he
  dsimp only
  rw [hmin.addMin, hmax.addMax]

/-- A row leaves the same limits in both runs. -/
theorem leaves_limits (h : Follows s b c) (he : e ∈ s.matrix.row r) (bounds : RowBounds Binary64)
    (g : ActivityRange Binary64) (side : Side) :
    Leaves s e.1 side (side.bound b e.1)
      (side.pick (limits bounds g e.2 (b.lower.getD e.1 0) (b.upper.getD e.1 0)))
      (side.pick (limits bounds g e.2 (c.lower.getD e.1 0) (c.upper.getD e.1 0))) := by
  obtain ⟨hown, hown'⟩ := sameLimit_contribution h he
  have hmin := hown.minWithout g
  have hmax := hown'.maxWithout g
  have hj := SubProblem.lt_of_mem_row he
  have hlower := h e.1 hj .lower
  have hupper := h e.1 hj .upper
  unfold limits
  dsimp only
  rw [hmin, hmax]
  generalize ActivityRange.minWithout g _ = restMin
  generalize ActivityRange.maxWithout g _ = restMax
  by_cases habove : (Scalar.isBound bounds.upper && Scalar.isFinite restMin) = true <;>
    by_cases hbelow : (Scalar.isBound bounds.lower && Scalar.isFinite restMax) = true <;>
    by_cases ha : 0 < e.2 <;> cases side <;>
    simp only [habove, hbelow, ha, if_true, if_false, Bool.false_eq_true] <;>
    first
      | exact hlower
      | exact hupper
      | exact hlower.tighter _
      | exact hupper.tighter _

theorem leaves_leftTo (h : Follows s b c) (he : e ∈ s.matrix.row r) (bounds : RowBounds Binary64)
    (g : ActivityRange Binary64) (side : Side) :
    Leaves s e.1 side (side.bound b e.1) (side.pick (leftTo s bounds g b e))
      (side.pick (leftTo s bounds g c e)) := by
  have hleaves := leaves_limits h he bounds g side
  unfold leftTo toWhole
  split
  · cases side <;> exact hleaves.whole
  · exact hleaves

/-! ### Bounds that are replaced -/

/-- The bounds that are left replace those of a column, where they are tighter by more than the
tolerance. -/
def replace (p : Progress Binary64) (c : Nat) (l : Binary64 × Binary64) : Progress Binary64 :=
  p.tighten c (p.box.lower.getD c 0) (p.box.upper.getD c 0) l

/-- The bound on a side is replaced. -/
def Replaces (p : Progress Binary64) (c : Nat) (l : Binary64 × Binary64) (side : Side) : Prop :=
  side.IsTighter (side.inward (side.bound p.box c)) (side.pick l)

section Replace

variable {p : Progress Binary64} {c n : Nat} {l : Binary64 × Binary64}

theorem hasSize_replace (hp : p.box.HasSize n) : (replace p c l).box.HasSize n :=
  hasSize_tighten hp ..

theorem bound_replace_self (hp : p.box.HasSize n) (hc : c < n) (side : Side) :
    side.bound (replace p c l).box c =
      if side.IsTighter (side.inward (side.bound p.box c)) (side.pick l) then side.pick l
      else side.bound p.box c := by
  cases side with
  | lower => exact (getD_lower_tighten (hp.1 ▸ hc)).trans (by simp only [true_and]; rfl)
  | upper => exact (getD_upper_tighten (hp.2 ▸ hc)).trans (by simp only [true_and]; rfl)

theorem bound_replace_of_ne (hp : p.box.HasSize n) (hc : c < n) {j : Nat} (hj : c ≠ j)
    (side : Side) : side.bound (replace p c l).box j = side.bound p.box j := by
  cases side with
  | lower => exact (getD_lower_tighten (hp.1 ▸ hc)).trans (if_neg fun h => hj h.1)
  | upper => exact (getD_upper_tighten (hp.2 ▸ hc)).trans (if_neg fun h => hj h.1)

theorem exists_replaces : (∃ side, Replaces p c l side) ↔
    p.box.lower.getD c 0 + Scalar.feasTol < l.1 ∨ l.2 < p.box.upper.getD c 0 - Scalar.feasTol := by
  constructor
  · rintro ⟨_ | _, h⟩
    · exact .inl h
    · exact .inr h
  · rintro (h | h)
    · exact ⟨.lower, h⟩
    · exact ⟨.upper, h⟩

theorem changed_replace :
    (replace p c l).changed = true ↔ p.changed = true ∨ ∃ side, Replaces p c l side := by
  rw [exists_replaces]
  unfold replace Progress.tighten
  by_cases hl : p.box.lower.getD c 0 + Scalar.feasTol < l.1 <;>
    by_cases hu : l.2 < p.box.upper.getD c 0 - Scalar.feasTol <;>
    simp only [hl, hu, if_true, if_false, or_true, or_false]

theorem replace_eq_self (h : ¬ ∃ side, Replaces p c l side) : replace p c l = p := by
  rw [exists_replaces, not_or] at h
  unfold replace Progress.tighten
  simp only [h.1, h.2, if_false]

end Replace

theorem tightenEntry_eq_replace {p : Progress Binary64} (hp : p.box.HasSize s.numCols)
    (he : e ∈ s.matrix.row r) (bounds : RowBounds Binary64) (g : ActivityRange Binary64) :
    tightenEntry s bounds g p e = .ok
      (if (leftTo s bounds g p.box e).2 + Scalar.feasTol < (leftTo s bounds g p.box e).1
        then .error p.box else .ok (replace p e.1 (leftTo s bounds g p.box e))) :=
  tightenEntry_eq hp (SubProblem.lt_of_mem_row he)

/-! ### A run that has left a column no room -/

/-- A box in which some column has no room. -/
structure NoRoom (s : SubProblem Binary64) (b : Box Binary64) : Prop where
  hasSize : b.HasSize s.numCols
  not_hasRoom : ¬ b.HasRoom s

theorem NoRoom.of_side (hb : b.HasSize s.numCols) (hj : j < s.numCols) (side : Side)
    (h : ¬ side.HasRoom (side.bound b j)) : NoRoom s b :=
  ⟨hb, fun hroom => h (hroom j hj side)⟩

theorem NoRoom.replace {p : Progress Binary64} (hp : NoRoom s p.box) (hj : j < s.numCols)
    (l : Binary64 × Binary64) : NoRoom s (replace p j l).box := by
  obtain ⟨hsize, hroom⟩ := hp
  simp only [Box.HasRoom, not_forall] at hroom
  obtain ⟨i, hi, side, hside⟩ := hroom
  refine .of_side (hasSize_replace hsize) hi side ?_
  by_cases hji : j = i
  · subst hji
    rw [bound_replace_self hsize hj]
    exact Side.not_hasRoom_replaced hside
  · rwa [bound_replace_of_ne hsize hj hji]

theorem NoRoom.tightenEntry {p : Progress Binary64} (hp : NoRoom s p.box)
    (he : e ∈ s.matrix.row r) (bounds : RowBounds Binary64) (g : ActivityRange Binary64) :
    ∃ a, tightenEntry s bounds g p e = .ok a ∧
      Ends (fun _ => True) (fun q => NoRoom s q.box) a := by
  refine ⟨_, tightenEntry_eq_replace hp.hasSize he bounds g, ?_⟩
  split
  · trivial
  · exact hp.replace (SubProblem.lt_of_mem_row he) _

theorem NoRoom.tightenRow {p : Progress Binary64} (hp : NoRoom s p.box) (r : Nat) :
    ∃ a, tightenRow s p r = .ok a ∧ Ends (fun _ => True) (fun q => NoRoom s q.box) a := by
  rw [tightenRow_eq hp.hasSize]
  split
  · exact ⟨_, rfl, trivial⟩
  · exact foldUntil_rule_mem (fun e he q hq => hq.tightenEntry he _ _) hp

/-! ### Runs in step -/

/-- Either the first run stops and the second one stops as well or goes on with `S`, or neither run
stops and their states are related. -/
def GoOn {ε σ : Type} (R : σ → σ → Prop) (S : σ → Prop) (a a' : Checked (Except ε σ)) : Prop :=
  (∃ e c, a = .ok (.error e) ∧ a' = .ok c ∧ Ends (fun _ => True) S c) ∨
    ∃ t t', a = .ok (.ok t) ∧ a' = .ok (.ok t') ∧ R t t'

/-- What one step of two runs preserves, all steps preserve. -/
theorem goOn_foldUntil {ε σ β : Type} {f : σ → β → Checked (Except ε σ)} {R : σ → σ → Prop}
    {S : σ → Prop} {l : List β} (hstep : ∀ a ∈ l, ∀ t t', R t t' → GoOn R S (f t a) (f t' a))
    (hrest : ∀ a ∈ l, ∀ t, S t → ∃ c, f t a = .ok c ∧ Ends (fun _ => True) S c) {t t' : σ}
    (h : R t t') : GoOn R S (foldUntil f l t) (foldUntil f l t') := by
  induction l generalizing t t' with
  | nil => exact .inr ⟨t, t', rfl, rfl, h⟩
  | cons a l ih =>
    obtain ⟨e, c, he, hc, hends⟩ | ⟨u, u', hu, hu', hR⟩ := hstep a (by simp) t t' h
    · -- the second run goes on alone
      cases c with
      | error c => exact .inl ⟨e, .error c, by simp [foldUntil, he], by simp [foldUntil, hc], hends⟩
      | ok u =>
        have hrest : ∀ a ∈ l, ∀ t, S t → ∃ c, f t a = .ok c ∧ Ends (fun _ => True) S c :=
          fun a ha => hrest a (by simp [ha])
        obtain ⟨c, hrun, hends⟩ := foldUntil_rule_mem hrest hends
        exact .inl ⟨e, c, by simp [foldUntil, he], by rw [foldUntil_cons l hc, hrun], hends⟩
    · rw [foldUntil_cons l hu, foldUntil_cons l hu']
      exact ih (fun a ha => hstep a (by simp [ha])) (fun a ha => hrest a (by simp [ha])) hR

/-- The states of two runs within a sweep of the first one over the box `b`. -/
structure InStep (s : SubProblem Binary64) (b : Box Binary64) (p p' : Progress Binary64) : Prop where
  hasSize : p.box.HasSize s.numCols
  hasSize' : p'.box.HasSize s.numCols
  follows : Follows s p.box p'.box
  changed : p.changed = true → p'.changed = true
  unchanged : p.changed = false → p.box = b

theorem InStep.replace {p p' : Progress Binary64} (h : InStep s b p p') (he : e ∈ s.matrix.row r)
    (bounds : RowBounds Binary64) (g : ActivityRange Binary64) :
    InStep s b (replace p e.1 (leftTo s bounds g p.box e))
      (replace p' e.1 (leftTo s bounds g p'.box e)) := by
  have hc := SubProblem.lt_of_mem_row he
  have hleaves := leaves_leftTo h.follows he bounds g
  have hreplaces : ∀ side, Replaces p e.1 (leftTo s bounds g p.box e) side →
      Replaces p' e.1 (leftTo s bounds g p'.box e) side :=
    fun side => (h.follows e.1 hc side).isTighter_of_isTighter (hleaves side)
  refine ⟨hasSize_replace h.hasSize, hasSize_replace h.hasSize', fun j hj side => ?_,
    fun hchanged => ?_, fun hunchanged => ?_⟩
  · by_cases hcj : e.1 = j
    · subst hcj
      rw [bound_replace_self h.hasSize hc, bound_replace_self h.hasSize' hc]
      exact (h.follows e.1 hc side).replaced (hleaves side)
    · rw [bound_replace_of_ne h.hasSize hc hcj, bound_replace_of_ne h.hasSize' hc hcj]
      exact h.follows j hj side
  · rw [changed_replace] at hchanged ⊢
    exact hchanged.imp h.changed fun ⟨side, hside⟩ => ⟨side, hreplaces side hside⟩
  · rw [Bool.eq_false_iff, Ne, changed_replace, not_or] at hunchanged
    rw [replace_eq_self hunchanged.2]
    exact h.unchanged (Bool.eq_false_iff.2 hunchanged.1)

/-- One entry of a row. The first run stops alone only if a limit lies beyond a missing bound, and in
the second run this limit leaves the column no room. -/
theorem InStep.tightenEntry {p p' : Progress Binary64} (h : InStep s b p p')
    (he : e ∈ s.matrix.row r) (bounds : RowBounds Binary64) (g : ActivityRange Binary64) :
    GoOn (InStep s b) (fun q => NoRoom s q.box) (tightenEntry s bounds g p e)
      (tightenEntry s bounds g p' e) := by
  have hc := SubProblem.lt_of_mem_row he
  have hleaves := leaves_leftTo h.follows he bounds g
  rw [tightenEntry_eq_replace h.hasSize he, tightenEntry_eq_replace h.hasSize' he]
  by_cases hcrossed : (leftTo s bounds g p.box e).2 + Scalar.feasTol < (leftTo s bounds g p.box e).1
  · rw [if_pos hcrossed]
    refine .inl ⟨p.box, _, rfl, rfl, ?_⟩
    split
    · trivial
    · rename_i hopen
      obtain hcrossed' | ⟨side, z, hz, hdepth, htighter⟩ :=
        crossed_or_isTighter (hleaves .lower) (hleaves .upper) hcrossed
      · exact absurd hcrossed' hopen
      · refine .of_side (hasSize_replace h.hasSize') hc side ?_
        rw [bound_replace_self h.hasSize' hc]
        exact Side.not_hasRoom_of_isTighter hz hdepth htighter _
  · rw [if_neg hcrossed,
      if_neg fun h' => hcrossed (crossed_of_crossed (hleaves .lower) (hleaves .upper) h')]
    exact .inr ⟨_, _, rfl, rfl, h.replace he bounds g⟩

theorem InStep.tightenRow {p p' : Progress Binary64} (h : InStep s b p p') (r : Nat) :
    GoOn (InStep s b) (fun q => NoRoom s q.box) (tightenRow s p r) (tightenRow s p' r) := by
  rw [tightenRow_eq h.hasSize, tightenRow_eq h.hasSize', onBox_eq_of_follows h.follows r]
  split
  · exact .inl ⟨_, _, rfl, rfl, trivial⟩
  · exact goOn_foldUntil (fun _ he _ _ ht => ht.tightenEntry he _ _)
      (fun _ he _ ht => ht.tightenEntry he _ _) h

/-- One sweep of two runs. -/
theorem goOn_sweep (hb : b.HasSize s.numCols) (hc : c.HasSize s.numCols) (h : Follows s b c) :
    GoOn (InStep s b) (fun q => NoRoom s q.box) (sweep s b) (sweep s c) :=
  goOn_foldUntil (fun r _ _ _ ht => ht.tightenRow r) (fun r _ _ ht => ht.tightenRow r)
    ⟨hb, hc, h, nofun, fun _ => rfl⟩

/-- All sweeps of two runs. Where the first run does not change any more, its box stays the same if
it goes on with the second one. -/
theorem goOn_sweeps (hb : b.HasSize s.numCols) (hc : c.HasSize s.numCols) (h : Follows s b c)
    (passes : Nat) :
    GoOn (fun b c => b.HasSize s.numCols ∧ c.HasSize s.numCols ∧ Follows s b c) (NoRoom s)
      (sweeps s passes b) (sweeps s passes c) := by
  induction passes generalizing b c with
  | zero => exact .inr ⟨b, c, rfl, rfl, hb, hc, h⟩
  | succ passes ih =>
    unfold sweeps
    obtain ⟨d, a, hd, ha, hends⟩ | ⟨p, p', hp, hp', hstep⟩ := goOn_sweep hb hc h
    · -- the second run goes on alone
      rw [hd, ha]
      cases a with
      | error a => exact .inl ⟨d, .error a, rfl, rfl, trivial⟩
      | ok p' =>
        dsimp only
        by_cases hchanged : p'.changed = true
        · rw [if_pos hchanged]
          obtain ⟨a, ha, hends⟩ := sweeps_rule (fun p r _ hp => NoRoom.tightenRow hp r) passes hends
          exact .inl ⟨d, a, rfl, ha, hends⟩
        · rw [if_neg hchanged]
          exact .inl ⟨d, .ok p'.box, rfl, rfl, hends⟩
    rw [hp, hp']
    dsimp only
    have hnext := ih hstep.hasSize hstep.hasSize' hstep.follows
    by_cases hchanged : p.changed = true
    · rw [if_pos hchanged, if_pos (hstep.changed hchanged)]
      exact hnext
    rw [if_neg hchanged]
    split
    · have hstays : sweeps s passes p.box = .ok (.ok p.box) := by
        have hbox := hstep.unchanged (Bool.eq_false_iff.2 hchanged)
        cases passes with
        | zero => rfl
        | succ passes =>
          unfold sweeps
          rw [hbox, hp]
          dsimp only
          rw [if_neg hchanged, hbox]
      rwa [hstays] at hnext
    · exact .inr ⟨p.box, p'.box, rfl, rfl, hstep.hasSize, hstep.hasSize', hstep.follows⟩

end Rows

/-! ### Answers -/

section Answers

variable {b c : Box Binary64}

theorem cheapest_eq {cost lower upper lower' upper' : Binary64} (hl : SameLimit lower lower')
    (hu : SameLimit upper upper') :
    SubProblem.cheapest cost lower upper = SubProblem.cheapest cost lower' upper' := by
  unfold SubProblem.cheapest
  obtain rfl | ⟨hl, hl'⟩ := hl <;> obtain rfl | ⟨hu, hu'⟩ := hu <;>
    by_cases hc : 0 ≤ cost <;> simp [*]

theorem cornerEntry_eq_of_follows (h : Follows s b c) {k : SubColumn Binary64} {j : Nat}
    (hk : (k, j) ∈ s.columns.toList.zipIdx) :
    SubProblem.cornerEntry k b j = SubProblem.cornerEntry k c j := by
  have hj : j < s.numCols := by
    obtain ⟨-, hj, -⟩ := List.mem_zipIdx hk
    simpa [SubProblem.numCols] using hj
  exact cheapest_eq (h j hj .lower).sameLimit (h j hj .upper).sameLimit

/-- Both boxes have the same cheapest corner. -/
theorem corner_eq_of_follows (h : Follows s b c) :
    s.corner b = s.corner c ∧ s.cornerBound b = s.cornerBound c := by
  have hcorner : s.corner b = s.corner c := by
    unfold SubProblem.corner
    congr 1
    exact List.map_congr_left fun (k, j) hk => congrArg Prod.fst (cornerEntry_eq_of_follows h hk)
  have hlimited : s.isLimited b = s.isLimited c := by
    unfold SubProblem.isLimited
    rw [Bool.eq_iff_iff, List.all_eq_true, List.all_eq_true]
    refine forall₂_congr fun (k, j) hk => ?_
    dsimp only
    rw [cornerEntry_eq_of_follows h hk]
  refine ⟨hcorner, ?_⟩
  unfold SubProblem.cornerBound
  rw [hcorner, hlimited]

theorem bound_released (hb : b.HasSize s.numCols) (hj : j < s.numCols) (side : Side) :
    side.bound b.released j = Scalar.released (side.bound b j) := by
  have hlower : j < b.lower.size := hb.1 ▸ hj
  have hupper : j < b.upper.size := hb.2 ▸ hj
  cases side <;> simp [Side.bound, Box.released, hlower, hupper]

theorem hasSize_released (hb : b.HasSize s.numCols) : b.released.HasSize s.numCols :=
  ⟨Array.size_map.trans hb.1, Array.size_map.trans hb.2⟩

theorem map_released_eq {x y : Array Binary64} (hsize : x.size = y.size)
    (h : ∀ j < x.size, Scalar.released (x.getD j 0) = Scalar.released (y.getD j 0)) :
    x.map Scalar.released = y.map Scalar.released := by
  refine Array.ext (by simp [hsize]) fun j hj _ => ?_
  rw [Array.getElem_map, Array.getElem_map, Array.getElem_eq_getD 0, Array.getElem_eq_getD 0]
  exact h j (Array.size_map ▸ hj)

theorem released_eq_of_follows (hb : b.HasSize s.numCols) (hc : c.HasSize s.numCols)
    (h : Follows s b c) : b.released = c.released := by
  unfold Box.released
  rw [map_released_eq (hb.1.trans hc.1.symm) fun j hj => (h j (hb.1 ▸ hj) .lower).released_eq,
    map_released_eq (hb.2.trans hc.2.symm) fun j hj => (h j (hb.2 ▸ hj) .upper).released_eq]

/-- Infinite bounds follow missing ones. -/
theorem follows_released (hb : b.HasSize s.numCols) (hmissing : b.KeepsMissing s) :
    Follows s b b.released := by
  intro j hj side
  rw [bound_released hb hj]
  by_cases h : Scalar.isMissing (side.bound b j) = true
  · have hopen := hmissing j hj side h
    have hx := Binary64.place_bounds (Binary64.isMissing_iff.1 h).2
    refine .inr ⟨rfl, ?_⟩
    rw [hopen.released_eq]
    cases side with
    | lower => exact ⟨hopen, by decide, hx.1⟩
    | upper => exact ⟨hopen, by decide, Int.neg_le_neg hx.2⟩
  · rw [Scalar.released, if_neg h]
    exact .inl rfl

/-- If no coefficient turns a missing bound into a bound, then missing bounds may be replaced by infinite
ones, unless a box that holds no point is then left with a column without room. -/
theorem treatsAlike_iff (passes : Nat) (hb : b.HasSize s.numCols) (hmissing : b.KeepsMissing s) :
    TreatsAlike passes s b ↔ ¬ (IsInfeasible passes s b ∧ ∃ value point c,
      bound passes s b.released = .ok (.bounded value point, c) ∧ ¬ c.HasRoom s) := by
  constructor
  · rintro ⟨a, c, d, hc, hd, -⟩ ⟨⟨e, he⟩, value, point, f, hf, -⟩
    rw [hc] at he
    cases he
    rw [hd] at hf
    cases hf
  intro h
  have hc := hasSize_released hb
  obtain ⟨d, a, hd, ha, hends⟩ | ⟨d, d', hd, hd', hdsize, hdsize', hfollows⟩ :=
    goOn_sweeps hb hc (follows_released hb hmissing) passes
  · have hinfeasible := bound_of_stopped hd
    cases a with
    | error d' => exact ⟨.infeasible, d, d', hinfeasible, bound_of_stopped ha, .inl rfl⟩
    | ok d' =>
      exact absurd ⟨⟨d, hinfeasible⟩, _, _, d', bound_of_swept ha hends.hasSize, hends.not_hasRoom⟩ h
  · obtain ⟨hcorner, hbound⟩ := corner_eq_of_follows hfollows
    have hreleased := bound_of_swept hd' hdsize'
    rw [← hcorner, ← hbound] at hreleased
    exact ⟨_, d, d', bound_of_swept hd hdsize, hreleased,
      .inr (released_eq_of_follows hdsize hdsize' hfollows)⟩

theorem answer_of_isInfeasible {passes : Nat} (h : IsInfeasible passes s b) :
    answer passes s b = some .infeasible := by
  obtain ⟨c, hc⟩ := h
  rw [answer, hc]
  rfl

theorem TreatsAlike.answer_eq {passes : Nat} (h : TreatsAlike passes s b) :
    answer passes s b = answer passes s b.released := by
  obtain ⟨a, c, d, hc, hd, -⟩ := h
  rw [answer, answer, hc, hd]
  rfl

/-- A row of two columns. -/
def pairRow (a : Binary64) : Line Binary64 :=
  [(0, a), (1, 1)]

theorem ordered_pairRow (a : Binary64) : (pairRow a).Ordered 2 := by
  simp [pairRow, Line.Ordered]

theorem noZeros_pairRow {a : Binary64} (ha : (a == 0) = false) : (pairRow a).NoZeros := by
  have hone : ((1 : Binary64) == 0) = false := by decide
  simp [pairRow, Line.NoZeros, ha, hone]

/-- Two columns, the second one with a cost, and a row in which the first one has coefficient `a`. -/
def pair (a : Binary64) (ha : (a == 0) = false) (x y row : Binary64 × Binary64) :
    SubProblem Binary64 where
  columns := #[⟨0, 0, x.1, x.2, false⟩, ⟨1, 1, y.1, y.2, false⟩]
  rows := #[⟨0, row.1, row.2⟩]
  matrix := .ofRows 2 #[pairRow a] (by simpa using ordered_pairRow a)
    (by simpa using noZeros_pairRow ha)
  offset := 0
  originalSize := 3
  numCols_matrix := rfl
  numRows_matrix := rfl
  rows_nonempty := by simp [Matrix.ofRows, pairRow]

/-- Two columns whose upper bounds are missing and whose sum is at most four. -/
def openPair : SubProblem Binary64 :=
  pair 1 rfl (0, Scalar.infiniteBound) (1, Scalar.infinity) (-Scalar.infinity, Scalar.ofNat 4)

theorem treatsAlike_iff_openPair : openPair.box.HasSize openPair.numCols ∧
    openPair.box.KeepsMissing openPair ∧ TreatsAlike 8 openPair openPair.box := by
  have hb := openPair.hasSize_box
  have hmissing : openPair.box.KeepsMissing openPair := by decide +kernel
  refine ⟨hb, hmissing, (treatsAlike_iff 8 hb hmissing).2 fun h => ?_⟩
  exact absurd (answer_of_isInfeasible h.1) (by decide +kernel)

/-- The upper bound of the first column is missing, but its small coefficient turns it into a bound. -/
def faintPair : SubProblem Binary64 :=
  pair ⟨0x3C30000000000000⟩ rfl (0, Scalar.infiniteBound) (0, Scalar.ofNat 10)
    (Scalar.ofNat 90, Scalar.infinity)

/-- The lower bound of the first column is missing, but the limit of the row lies below the number that
stands for it. -/
def deepPair : SubProblem Binary64 :=
  pair 1 rfl (-Scalar.infiniteBound, 0) (Scalar.ofNat (9 * 10 ^ 19), Scalar.ofNat (9 * 10 ^ 19))
    (-Scalar.infinity, -Scalar.ofNat (9 * 10 ^ 19))

theorem not_treatsAlike_faintPair : ¬ TreatsAlike 8 faintPair faintPair.box ∧
    deepPair.box.KeepsMissing deepPair ∧ ¬ TreatsAlike 8 deepPair deepPair.box :=
  ⟨fun h => absurd h.answer_eq (by decide +kernel), by decide +kernel,
    fun h => absurd h.answer_eq (by decide +kernel)⟩

end Answers

end Propagation

end PrimalHeuristics
