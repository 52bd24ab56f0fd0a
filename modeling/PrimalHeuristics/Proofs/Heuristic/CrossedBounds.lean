import PrimalHeuristics.Proofs.Heuristic.Errors

/-!
# Runs at nodes with crossed bounds

Branching may cross the bounds of a column, and then the node holds no solution. A run ought to say
so. If an integer column is left no whole number, rounding and partial fixing do; but crossed bounds
of a continuous column stop them. Serendipity never stops, but where numbers are large the
tolerances may cover the gap, and a solution of the relaxation passes its check.

* `Box.CrossesFar`: bounds that cross by more than three tolerances;
* `not_isWithin_of_choice`: no zero and no one lies between such bounds;
* `Serendipity.answer_trial_of_crossesFar`: so no cover counts;
* `Heuristic.toleratesCrossing_iff`: a run tolerates crossed bounds exactly if it neither stops at
  them nor picks up a solution across them;
* `Heuristic.not_toleratesCrossing_branched`: a run that stops after a branching.
-/

namespace PrimalHeuristics

/-! ### Tolerances -/

namespace Binary64

variable {x y t l u : Binary64}

theorem signedUnits_feasTol : 0 < (Scalar.feasTol : Binary64).signedUnits ∧
    (neg Scalar.feasTol).signedUnits = -(Scalar.feasTol : Binary64).signedUnits := by
  decide +kernel

/-- What is not above a number up to the tolerance exceeds no greater one by the tolerance. -/
theorem signedUnits_lt_of_sub_feasTol_le (hl : l.isNaN = false) (hx : x.isNaN = false)
    (hy : y.isFinite = true) (hxy : x.place < y.place) (h : l - Scalar.feasTol ≤ x) :
    l.signedUnits < y.signedUnits + (Scalar.feasTol : Binary64).signedUnits := by
  obtain ⟨htol, hneg⟩ := feasTol_isFinite
  obtain ⟨hpos, hunits⟩ := signedUnits_feasTol
  rw [sub_eq_add_neg htol hneg, add_eq hl hneg] at h
  have hplace := (le_iff_place (isNaN_of_le h).1 hx).1 h
  by_contra hge
  split at hplace
  · have := signedUnits_lt (Int.lt_of_le_of_lt hplace hxy)
    omega
  · have hmono := nearestPlace_mono
      (show y.signedUnits ≤ l.signedUnits + (neg Scalar.feasTol).signedUnits by omega)
    rw [nearestPlace_signedUnits hy, ← place_addFinite] at hmono
    omega

/-- What is not below a number up to the tolerance is exceeded by no smaller one by the
tolerance. -/
theorem signedUnits_lt_of_le_add_feasTol (hu : u.isNaN = false) (hx : x.isNaN = false)
    (hy : y.isFinite = true) (hyx : y.place < x.place) (h : x ≤ u + Scalar.feasTol) :
    y.signedUnits < u.signedUnits + (Scalar.feasTol : Binary64).signedUnits := by
  obtain ⟨htol, -⟩ := feasTol_isFinite
  obtain ⟨hpos, -⟩ := signedUnits_feasTol
  rw [add_eq hu htol] at h
  have hplace := (le_iff_place hx (isNaN_of_le h).2).1 h
  by_contra hge
  split at hplace
  · have := signedUnits_lt (Int.lt_of_lt_of_le hyx hplace)
    omega
  · have hmono := nearestPlace_mono
      (show u.signedUnits + (Scalar.feasTol : Binary64).signedUnits ≤ y.signedUnits by omega)
    rw [nearestPlace_signedUnits hy, ← place_addFinite] at hmono
    omega

/-- Around zero, and around one, numbers are closer to each other than half the tolerance. -/
theorem exists_around (hx : x = 0 ∨ x = 1) :
    ∃ y z : Binary64, y.isFinite = true ∧ z.isFinite = true ∧ y.place < x.place ∧
      x.place < z.place ∧
      z.signedUnits ≤ y.signedUnits + (Scalar.feasTol : Binary64).signedUnits := by
  rcases hx with rfl | rfl
  · exact ⟨⟨0xBE90000000000000⟩, ⟨0x3E90000000000000⟩, by decide +kernel⟩
  · exact ⟨⟨0x3FEFFFFF80000000⟩, ⟨0x3FF0000040000000⟩, by decide +kernel⟩

end Binary64

/-! ### Bounds that are far apart -/

/-- Some lower bound exceeds the upper one of its column by more than three tolerances, without any
rounding. -/
def Box.CrossesFar (b : Box Binary64) (k : Nat) : Prop :=
  ∃ c < k, (b.upper.getD c 0).signedUnits + 3 * (Scalar.feasTol : Binary64).signedUnits <
    (b.lower.getD c 0).signedUnits

instance (b : Box Binary64) (k : Nat) : Decidable (b.CrossesFar k) :=
  inferInstanceAs (Decidable (∃ c < k, _))

/-- Neither zero nor one lies between bounds that are far apart, tolerances included. -/
theorem not_isWithin_of_choice {integer : Bool} {v l u : Binary64} (hv : v = 0 ∨ v = 1)
    (hl : l.isNaN = false) (hu : u.isNaN = false)
    (h : u.signedUnits + 3 * (Scalar.feasTol : Binary64).signedUnits < l.signedUnits) :
    ¬ IsWithin integer v l u := by
  rintro ⟨hlower, hupper, -⟩
  obtain ⟨y, z, hy, hz, hyv, hvz, hclose⟩ := Binary64.exists_around hv
  have hvn := (Binary64.isNaN_of_le hlower).2
  have hlow := Binary64.signedUnits_lt_of_sub_feasTol_le hl hvn hz hvz hlower
  have hup := Binary64.signedUnits_lt_of_le_add_feasTol hu hvn hy hyv hupper
  omega

section Far

variable {p : Problem Binary64} {n : Node Binary64} {best : Binary64} {b : Box Binary64} {k : Nat}

theorem Box.CrossesFar.not_isOrdered (h : b.CrossesFar k) : ¬ b.IsOrdered k := by
  intro hordered
  obtain ⟨c, hc, hfar⟩ := h
  obtain ⟨hl, hu⟩ := Binary64.isNaN_of_le (hordered c hc)
  have hle := Binary64.signedUnits_le ((Binary64.le_iff_place hl hu).1 (hordered c hc))
  have hpos := Binary64.signedUnits_feasTol.1
  omega

/-- No vector of zeros and ones is feasible between bounds that are far apart. -/
theorem Problem.isFeasible_eq_false (hb : b.IsNumeric p.numCols) (hfar : b.CrossesFar p.numCols)
    {x : Array Binary64} (hx : ∀ c, x.getD c 0 = 0 ∨ x.getD c 0 = 1) :
    p.isFeasible x b.lower b.upper = .ok false := by
  by_cases hsize : x.size = p.numCols
  · obtain ⟨c, hc, hfar⟩ := hfar
    have hnot : ¬ p.IsFeasible x b := fun h =>
      not_isWithin_of_choice (hx c) (hb.lower c hc) (hb.upper c hc) hfar (h.1 c hc)
    rw [isFeasible_eq hsize hb.hasSize, decide_eq_false hnot]
  · unfold isFeasible
    rw [if_pos hsize]
    rfl

/-! ### Serendipity -/

/-- A choice of columns has no entries but zeros and ones. -/
def Cover.IsChoice (t : Cover Binary64) : Prop :=
  ∀ c, t.point.getD c 0 = 0 ∨ t.point.getD c 0 = 1

theorem Cover.IsChoice.choose {t : Cover Binary64} (h : t.IsChoice) (p : Problem Binary64)
    (c : Nat) : (t.choose p c).IsChoice := by
  intro d
  show (t.point.setIfInBounds c 1).getD d 0 = 0 ∨ (t.point.setIfInBounds c 1).getD d 0 = 1
  by_cases hc : c < t.point.size
  · rw [getD_setIfInBounds hc]
    split
    · exact .inr rfl
    · exact h d
  · rw [Array.setIfInBounds_def, dif_neg hc]
    exact h d

theorem Cover.IsChoice.extend {upper : Array Binary64} {jitter : Binary64} {fuel : Nat}
    {t u : Cover Binary64} {stream : Stream} (h : t.IsChoice)
    (hu : (t.extend p upper jitter fuel stream).1 = some u) : u.IsChoice := by
  induction fuel generalizing t stream with
  | zero =>
    unfold Cover.extend at hu
    split at hu
    · split at hu
      · rename_i hfuel _
        cases hfuel
      · cases hu
    · cases hu
      exact h
  | succ fuel ih =>
    unfold Cover.extend at hu
    split at hu
    · split at hu
      · rename_i hfuel _
        cases hfuel
        exact ih (h.choose p _) hu
      · cases hu
    · cases hu
      exact h

/-- A cover that is found is a choice of columns. -/
theorem Serendipity.isChoice_of_cover (hn : n.HasSize p.numCols) {jitter : Binary64}
    {stream : Stream} {x : Array Binary64} (h : (cover jitter p n stream).1 = .ok (some x)) :
    ∀ c, x.getD c 0 = 0 ∨ x.getD c 0 = 1 := by
  unfold cover at h
  split at h
  · obtain ⟨t, ht, -, hchoice⟩ := Cover.exists_start_eq hn
    have hstart : t.IsChoice := by
      intro c
      by_cases hc : c < t.point.size
      · have hget : t.point.getD c 0 = t.point[c] := by simp [Array.getD, hc]
        rw [hget]
        exact hchoice _ (Array.getElem_mem hc)
      · exact .inl (by simp [Array.getD, hc])
    rw [ht] at h
    obtain ⟨u, hu, rfl⟩ := Option.map_eq_some_iff.1 (Except.ok.inj h)
    exact hstart.extend hu
  · cases h

/-- The relaxation came across a vector that passes for a better solution. -/
def Node.HasSolution (n : Node Binary64) (p : Problem Binary64) (best : Binary64) : Prop :=
  ∃ o x, n.solverSolution = some (o, x) ∧ p.isFeasible x n.box.lower n.box.upper = .ok true ∧
    p.objectiveValue x < best

/-- Only such a vector is picked up. -/
theorem Serendipity.capture_cases (hn : n.HasSize p.numCols) (best : Binary64) :
    ((∃ found, capture p n best = .ok (some found)) ∧ n.HasSolution p best) ∨
      (capture p n best = .ok none ∧ ¬ n.HasSolution p best) := by
  unfold capture Node.HasSolution
  cases hs : n.solverSolution with
  | none => exact .inr ⟨rfl, nofun⟩
  | some found =>
    obtain ⟨o, x⟩ := found
    obtain ⟨feasible, hfeasible⟩ := Problem.exists_isFeasible_eq hn.box x
    dsimp only
    rw [hfeasible, Checked.ok_bind]
    by_cases hcounts : feasible = true ∧ p.objectiveValue x < best
    · obtain ⟨rfl, hbest⟩ := hcounts
      exact .inl ⟨⟨_, by rw [if_pos rfl, if_pos hbest]; rfl⟩, o, x, rfl, hfeasible, hbest⟩
    · refine .inr ⟨?_, ?_⟩
      · cases feasible with
        | false => rfl
        | true =>
          rw [if_pos rfl, if_neg fun hbest => hcounts ⟨rfl, hbest⟩]
          rfl
      · rintro ⟨_, _, hsame, hpasses, hbest⟩
        cases hsame
        rw [hfeasible] at hpasses
        exact hcounts ⟨Except.ok.inj hpasses, hbest⟩

/-- Between bounds that are far apart, only what the relaxation came across can be an answer. -/
theorem Serendipity.answer_trial_of_crossesFar (hn : n.HasSize p.numCols)
    (hb : n.box.IsNumeric p.numCols) (hfar : n.box.CrossesFar p.numCols)
    (s : Serendipity Binary64) (c : Core Binary64) (best : Binary64) :
    (s.trial c p n best).answer = .ok none ↔ ¬ n.HasSolution p best := by
  unfold trial
  rcases capture_cases hn best with ⟨⟨found, hfound⟩, hsolution⟩ | ⟨hnone, hsolution⟩
  · rw [hfound]
    exact iff_of_false nofun (not_not.2 hsolution)
  · rw [hnone]
    refine iff_of_true ?_ hsolution
    dsimp only
    obtain ⟨o, ho⟩ := exists_cover_eq hn s.jitter c.stream
    cases o with
    | none => exact Attempt.settle_eq_none (by rw [ho]; rfl)
    | some x =>
      have himprovement : improvement p n.box best x = .ok none := by
        unfold improvement
        rw [Problem.isFeasible_eq_false hb hfar (isChoice_of_cover hn ho)]
        rfl
      rw [ho]
      unfold Attempt.settle
      simp only [Failure.ofChecked, Checked.ok_bind, himprovement]
      rfl

end Far

/-! ### Tables of the problem -/

section Current

variable {p : Problem Binary64} {n : Node Binary64} {b : Box Binary64}

/-- The tables of the kind, if there are any, are those of the problem. -/
def Kind.IsCurrent (k : Kind Binary64) (p : Problem Binary64) : Prop :=
  match k with
  | rounding r => r.HasLocksOf p
  | partialFix f => f.HasFixSetOf p
  | serendipity _ => True

/-- The bounds of a continuous column cross. -/
def Box.CrossesContinuous (b : Box Binary64) (p : Problem Binary64) : Prop :=
  ∃ c < p.numCols, p.isInteger c = false ∧ b.upper.getD c 0 < b.lower.getD c 0

/-- Where integer columns are left a whole number, only bounds of continuous ones can cross. -/
theorem Box.IsNumeric.isOrdered_iff (hb : b.IsNumeric p.numCols) (hwhole : b.LeavesIntegers p) :
    b.IsOrdered p.numCols ↔ ¬ b.CrossesContinuous p := by
  constructor
  · rintro hordered ⟨c, hc, -, hcrossed⟩
    exact Binary64.not_lt_of_le (hordered c hc) hcrossed
  · intro hcontinuous c hc
    cases hinteger : p.isInteger c with
    | true => exact hb.le_of_holdsWhole hc (hwhole c (Problem.mem_integerColumns.2 ⟨hc, hinteger⟩))
    | false =>
      by_contra hcrossed
      exact hcontinuous
        ⟨c, hc, hinteger, Binary64.lt_of_not_le (hb.lower c hc) (hb.upper c hc) hcrossed⟩

theorem Box.Decides.congr {fit fit' : Prop}
    {a : Except (Failure Binary64) (Option (Binary64 × Array Binary64))} (h : b.Decides p fit a)
    (hfit : b.LeavesIntegers p → (fit ↔ fit')) : b.Decides p fit' a := by
  cases h with
  | nothing hwhole => exact .nothing hwhole
  | answer hwhole h o => exact .answer hwhole ((hfit hwhole).1 h) o
  | stop hwhole h => exact .stop hwhole fun h' => h ((hfit hwhole).2 h')

/-- With tables of the problem, crossed bounds of continuous columns are all that stops rounding and
partial fixing. -/
theorem Kind.IsCurrent.decides_trial {k : Kind Binary64} (h : k.IsCurrent p)
    (hk : ∀ s, k ≠ .serendipity s) (hn : n.HasSize p.numCols) (hb : n.box.IsNumeric p.numCols)
    (c : Core Binary64) (best : Binary64) :
    n.box.Decides p (¬ n.box.CrossesContinuous p) (k.trial c p n best).answer := by
  cases k with
  | rounding r =>
    obtain ⟨phase, hlocks⟩ := Rounding.ensureLocks_eq h
    exact (Rounding.decides_trial hlocks hn hb c best).congr hb.isOrdered_iff
  | partialFix f =>
    have hcols := PartialFix.HasFixSetOf.numCols_eq h
    have hsound := PartialFix.HasFixSetOf.isSound h
    refine (PartialFix.decides_trial hcols (hcols ▸ hsound) hn hb c best).congr fun hwhole => ?_
    unfold PartialFix.Fits
    rw [← hb.isOrdered_iff hwhole]
    exact and_iff_left (PartialFix.HasFixSetOf.not_slips h hwhole _)
  | serendipity s => exact absurd rfl (hk s)

end Current

/-! ### Runs -/

namespace Heuristic

/-- A run does not stop, and bounds that are far apart leave it with nothing. -/
def ToleratesCrossing (h : Heuristic Binary64) (m : Model Binary64) (best : Binary64)
    (buffer : Array Binary64) : Prop :=
  (∀ f, (h.seek m best buffer).outcome ≠ .error (.fault f)) ∧
    (m.node.box.CrossesFar m.problem.numCols → (h.seek m best buffer).outcome = .ok .nothing)

/-- A run of rounding or partial fixing comes to crossed bounds of a continuous column: all integer
columns are left a whole number. -/
def StopsAtCrossing (h : Heuristic Binary64) (m : Model Binary64) : Prop :=
  m.problem.numIntegers ≠ 0 ∧ (∀ s, h.kind ≠ .serendipity s) ∧
    m.node.box.LeavesIntegers m.problem ∧ m.node.box.CrossesContinuous m.problem

/-- A run of serendipity is at bounds that are far apart, across which a solution is found. -/
def PicksUpCrossed (h : Heuristic Binary64) (m : Model Binary64) (best : Binary64) : Prop :=
  m.problem.numIntegers ≠ 0 ∧ (∃ s, h.kind = .serendipity s) ∧
    m.node.box.CrossesFar m.problem.numCols ∧ m.node.HasSolution m.problem best

variable {h : Heuristic Binary64} {m : Model Binary64} {best : Binary64} {buffer : Array Binary64}

theorem toleratesCrossing_of_nothing (ho : (h.seek m best buffer).outcome = .ok .nothing) :
    h.ToleratesCrossing m best buffer := by
  unfold ToleratesCrossing
  rw [ho]
  exact ⟨nofun, fun _ => rfl⟩

/-- A run of serendipity tolerates crossed bounds unless it picks up a solution across them. -/
theorem toleratesCrossing_iff_of_serendipity (hcheck : h.check m buffer = .ok ())
    (hinteger : m.problem.numIntegers ≠ 0) (hnumeric : m.node.box.IsNumeric m.problem.numCols)
    {s : Serendipity Binary64} (hkind : h.kind = .serendipity s) (best : Binary64) :
    h.ToleratesCrossing m best buffer ↔ ¬ h.PicksUpCrossed m best := by
  have hready := isReady_of_check hcheck
  have houtcome : (h.seek m best buffer).outcome =
      (s.trial h.core m.problem m.node best).answer.map .ofAnswer := by
    rw [outcome_seek hcheck hinteger, hkind]
    rfl
  obtain ⟨o, ho⟩ := s.exists_answer_trial hready.node h.core best
  unfold ToleratesCrossing PicksUpCrossed
  rw [houtcome]
  by_cases hfar : m.node.box.CrossesFar m.problem.numCols
  · have hanswer := Serendipity.answer_trial_of_crossesFar hready.node hnumeric hfar s h.core best
    rw [ho] at hanswer ⊢
    cases o with
    | none =>
      refine iff_of_true ⟨nofun, fun _ => rfl⟩ fun hpicks => ?_
      exact hanswer.1 rfl hpicks.2.2.2
    | some found =>
      have hsolution := not_not.1 fun hnone => by cases hanswer.2 hnone
      refine iff_of_false (fun htolerates => ?_)
        (not_not.2 ⟨hinteger, ⟨s, hkind⟩, hfar, hsolution⟩)
      cases htolerates.2 hfar
  · rw [ho]
    exact iff_of_true ⟨nofun, fun h => absurd h hfar⟩ fun hpicks => hfar hpicks.2.2.1

/-- With tables of the problem, a run of another kind tolerates crossed bounds unless it stops. -/
theorem toleratesCrossing_iff_of_isCurrent (hcheck : h.check m buffer = .ok ())
    (hinteger : m.problem.numIntegers ≠ 0) (hnumeric : m.node.box.IsNumeric m.problem.numCols)
    (hcurrent : h.kind.IsCurrent m.problem) (hkind : ∀ s, h.kind ≠ .serendipity s)
    (best : Binary64) : h.ToleratesCrossing m best buffer ↔ ¬ h.StopsAtCrossing m := by
  have hready := isReady_of_check hcheck
  have houtcome := outcome_seek hcheck hinteger best
  have hdecides := hcurrent.decides_trial hkind hready.node hnumeric h.core best
  generalize (h.kind.trial h.core m.problem m.node best).answer = a at houtcome hdecides
  cases hdecides with
  | nothing hwhole =>
    exact iff_of_true (toleratesCrossing_of_nothing houtcome) fun hstops => hwhole hstops.2.2.1
  | answer hwhole hcontinuous o =>
    have hfar : ¬ m.node.box.CrossesFar m.problem.numCols :=
      fun hfar => hfar.not_isOrdered ((hnumeric.isOrdered_iff hwhole).2 hcontinuous)
    unfold ToleratesCrossing
    rw [houtcome]
    exact iff_of_true ⟨nofun, fun h => absurd h hfar⟩ fun hstops => hcontinuous hstops.2.2.2
  | stop hwhole hcontinuous =>
    exact iff_of_false (fun htolerates => htolerates.1 _ houtcome)
      (not_not.2 ⟨hinteger, hkind, hwhole, not_not.1 hcontinuous⟩)

/-- With tables of the problem, a run at a node whose bounds are numbers tolerates crossed bounds
exactly if it neither stops at them nor picks up a solution across them. -/
theorem toleratesCrossing_iff (hcheck : h.check m buffer = .ok ())
    (hcurrent : h.kind.IsCurrent m.problem)
    (hnumeric : m.node.box.IsNumeric m.problem.numCols) (best : Binary64) :
    h.ToleratesCrossing m best buffer ↔ ¬ h.StopsAtCrossing m ∧ ¬ h.PicksUpCrossed m best := by
  by_cases hinteger : m.problem.numIntegers = 0
  · exact iff_of_true
      (toleratesCrossing_of_nothing (outcome_seek_of_numIntegers hcheck hinteger best))
      ⟨fun hstops => hstops.1 hinteger, fun hpicks => hpicks.1 hinteger⟩
  by_cases hkind : ∃ s, h.kind = .serendipity s
  · obtain ⟨s, hs⟩ := hkind
    rw [toleratesCrossing_iff_of_serendipity hcheck hinteger hnumeric hs]
    exact (and_iff_right fun hstops => hstops.2.1 s hs).symm
  · have hother : ∀ s, h.kind ≠ .serendipity s := fun s hs => hkind ⟨s, hs⟩
    rw [toleratesCrossing_iff_of_isCurrent hcheck hinteger hnumeric hcurrent hother]
    exact (and_iff_left fun hpicks => hkind hpicks.2.1).symm

/-- A binary column of cost minus one, and a continuous one between zero and one. -/
def binaryAndContinuous : Problem Binary64 :=
  { twoBinaries with
    columns := #[⟨-1, 0, 1, true, 0⟩, ⟨0, 0, 1, false, 1000⟩]
    numCols_matrix := numCols_twoBinaries }

/-- The continuous column is at least two. -/
def atLeastTwo : Decision Binary64 :=
  ⟨1, .up, Scalar.ofNat 2⟩

/-- A search at the node after this decision. -/
def branched : Model Binary64 where
  problem := binaryAndContinuous
  node := ⟨1, [atLeastTwo], ⟨#[0, Scalar.ofNat 2], #[1, 1]⟩, #[0, Scalar.ofNat 2], 0, none, none⟩
  incumbent := Model.noIncumbent
  messages := #[]

theorem child_root_branched :
    (Node.root branched.problem #[0, 1] 0).child atLeastTwo #[0, Scalar.ofNat 2] 0 =
      .ok branched.node := by
  have hbounds : branched.problem.lower = #[0, 0] ∧ branched.problem.upper = #[1, 1] := by
    simp [branched, binaryAndContinuous, Problem.lower, Problem.upper]
  have hmax : Scalar.max (0 : Binary64) (Scalar.ofNat 2) = Scalar.ofNat 2 := by
    decide +kernel
  unfold Node.child Node.root Node.restrictBox
  rw [hbounds.1, hbounds.2]
  show Except.ok (Node.mk 1 [atLeastTwo] ⟨#[0, Scalar.max 0 (Scalar.ofNat 2)], #[1, 1]⟩
    #[0, Scalar.ofNat 2] 0 none none) = _
  rw [hmax]
  rfl

/-- A new rounding heuristic for the search. -/
def branchedRounding : Heuristic Binary64 :=
  (Heuristic.ofKind (.rounding .fresh)).attach branched

theorem toleratesCrossing_iff_branched :
    branchedRounding.check branched #[0, 0] = .ok () ∧
      branchedRounding.kind.IsCurrent branched.problem ∧
      branched.node.box.IsNumeric branched.problem.numCols ∧
      (branchedRounding.ToleratesCrossing branched Scalar.infinity #[0, 0] ↔
        ¬ branchedRounding.StopsAtCrossing branched ∧
          ¬ branchedRounding.PicksUpCrossed branched Scalar.infinity) := by
  have hcheck : branchedRounding.check branched #[0, 0] = .ok () := rfl
  have hcurrent : branchedRounding.kind.IsCurrent branched.problem := .inl rfl
  have hnumeric : branched.node.box.IsNumeric branched.problem.numCols :=
    ⟨⟨rfl, rfl⟩, by decide +kernel, by decide +kernel⟩
  exact ⟨hcheck, hcurrent, hnumeric, toleratesCrossing_iff hcheck hcurrent hnumeric _⟩

/-- The node is a child of the root, its bounds are far apart, and the run stops. -/
theorem not_toleratesCrossing_branched :
    (Node.root branched.problem #[0, 1] 0).child atLeastTwo #[0, Scalar.ofNat 2] 0 =
        .ok branched.node ∧
      branchedRounding.check branched #[0, 0] = .ok () ∧
      branchedRounding.kind.IsCurrent branched.problem ∧
      branched.node.box.IsNumeric branched.problem.numCols ∧
      branched.node.box.CrossesFar branched.problem.numCols ∧
      ¬ branchedRounding.ToleratesCrossing branched Scalar.infinity #[0, 0] := by
  have hstop : (branchedRounding.seek branched Scalar.infinity #[0, 0]).outcome =
      .error (.fault .emptyInterval) := by
    decide +kernel
  exact ⟨child_root_branched, rfl, .inl rfl,
    ⟨⟨rfl, rfl⟩, by decide +kernel, by decide +kernel⟩, by decide +kernel,
    fun htolerates => htolerates.1 _ hstop⟩

end Heuristic

end PrimalHeuristics
