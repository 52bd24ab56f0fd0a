import PrimalHeuristics.Proofs.Binary64.Large
import PrimalHeuristics.Proofs.Heuristic.FixSet
import PrimalHeuristics.Proofs.Heuristic.NodeBounds

/-!
# Fixed columns keep their values

Partial fixing chooses the values of all columns before there is a sub-problem, and the fixed ones
have a long way to go after that: flags tell them from the free ones, a restriction renumbers what
is free, and an expansion writes the solution of the sub-problem back. A wrong index on this way
would move a fixed column, and the solution might still be feasible. None does, whatever the search
answers.

* `PartialFix.fixColumns_eq_some`, `PartialFix.values_eq_some`: the values that are chosen;
* `SubProblem.frame_expand`: an expansion writes to free columns only;
* `PartialFix.MayReach`: the points to which a run may come, whatever its search answers;
* `Heuristic.KeepsFixedColumns`, `Heuristic.seek_keepsFixedColumns`: all of them have the values
  that were chosen, the solutions of a run among them.
-/

namespace PrimalHeuristics

open SubProblem

/-! ### What an expansion leaves alone -/

namespace SubProblem

variable {α : Type} [Scalar α]

theorem frame_place {x full full' : Array α} {k : SubColumn α × Nat}
    (h : place x full k = .ok full') : full'.size = full.size ∧
      ∀ c, k.1.origin ≠ c → full'.getD c 0 = full.getD c 0 := by
  obtain ⟨v, -, h⟩ := Checked.bind_eq_ok.1 h
  split at h
  · rename_i hlt
    cases h
    refine ⟨by simp, fun c hc => ?_⟩
    rw [getD_setIfInBounds hlt, if_neg hc]
  · cases h

/-- Columns that are placed one after another leave all other ones as they were, whatever vector
they are taken from. -/
theorem frame_foldlM_place {x : Array α} {l : List (SubColumn α × Nat)} {full full' : Array α}
    (h : l.foldlM (place x) full = .ok full') : full'.size = full.size ∧
      ∀ c, (∀ k ∈ l, k.1.origin ≠ c) → full'.getD c 0 = full.getD c 0 := by
  induction l generalizing full with
  | nil =>
    cases h
    exact ⟨rfl, fun _ _ => rfl⟩
  | cons k l ih =>
    rw [List.foldlM_cons] at h
    obtain ⟨next, hnext, h⟩ := Checked.bind_eq_ok.1 h
    obtain ⟨hsize, hother⟩ := frame_place hnext
    obtain ⟨hsize', hother'⟩ := ih h
    refine ⟨hsize'.trans hsize, fun c hc => ?_⟩
    obtain ⟨hk, hl⟩ := List.forall_mem_cons.1 hc
    rw [hother' c hl, hother c hk]

variable {p : Problem α} {values : Array α} {free : Array Bool} {b : Box α} {m : Matrix α}
  {h : freeMatrix? p free = .ok m}

/-- An expansion writes to free columns only. -/
theorem frame_expand {y full : Array α}
    (hfull : (ofFree p values free b m h).expand values y = .ok full) :
    full.size = values.size ∧
      ∀ c, isFree free c = false → full.getD c 0 = values.getD c 0 := by
  obtain ⟨hsize, hother⟩ := frame_foldlM_place hfull
  refine ⟨hsize, fun c hc => hother c ?_⟩
  rintro ⟨k, i⟩ hk rfl
  have hk := List.fst_mem_of_mem_zipIdx hk
  obtain ⟨d, -, hd, rfl⟩ := exists_origin (Array.mem_toList_iff.1 hk)
  rw [hd] at hc
  contradiction

end SubProblem

/-- The candidate of a completion is an expansion, of whatever the search has found. -/
theorem Attempt.exists_expand_of_complete {α : Type} [Scalar α] {s : Settings α} {p : Problem α}
    {b : Box α} {x full : Array α} {free : Array Bool} {cutoff : α} {label : String}
    {tooLarge : SubProblem α → List (Message α)}
    (h : (complete s p b x free cutoff label tooLarge).candidate = .ok (some full)) :
    ∃ sub y, restrict p x free b = .ok (some sub) ∧ sub.expand x y = .ok full := by
  unfold complete at h
  split at h
  · cases h
  · cases h
  · rename_i sub hrestrict
    split at h
    · split at h
      · cases h
      · rename_i result report hsolved
        dsimp only at h
        split at h
        · cases h
        · rename_i y hy
          refine ⟨sub, y, hrestrict, ?_⟩
          cases hexpand : sub.expand x y with
          | error e =>
            rw [hexpand] at h
            cases h
          | ok z =>
            rw [hexpand] at h
            cases h
            rfl
    · cases h

/-! ### The values at which columns are fixed -/

namespace PartialFix

section Values

variable {α : Type} [Scalar α] {f : PartialFix} {p : Problem α} {n : Node α} {b : Box α}
  {x y z : Array α} {k : Nat}

/-- The value is the whole number next to the entry of a column, brought between the whole numbers
that its bounds leave, and the entry is not fractional. -/
structure IsFixedAt (b : Box α) (x : Array α) (c : Nat) (v : α) : Prop where
  not_isFractional : ¬ IsFractional x c
  clamp_eq : Scalar.clamp (Scalar.round (x.getD c 0)) (Scalar.ceil (b.lower.getD c 0))
    (Scalar.floor (b.upper.getD c 0)) = .ok v

/-- The columns of a list are fixed, and the others are as they were. -/
theorem fixColumns_eq_some {l : List Nat} (hx : x.size = k) (hb : b.HasSize k)
    (hl : ∀ c ∈ l, c < k) (hy : y.size = k) (h : fixColumns b x l y = .ok (some z)) :
    z.size = k ∧ (∀ c ∈ l, IsFixedAt b x c (z.getD c 0)) ∧
      ∀ c, c ∉ l → z.getD c 0 = y.getD c 0 := by
  induction l generalizing y with
  | nil =>
    cases h
    exact ⟨hy, nofun, fun _ _ => rfl⟩
  | cons d l ih =>
    obtain ⟨hd, hl⟩ := List.forall_mem_cons.1 hl
    rw [fixColumns_cons hx hb hd] at h
    split at h
    · cases h
    · rename_i hwhole
      obtain ⟨v, hv, h⟩ := Checked.bind_eq_ok.1 h
      obtain ⟨hsize, hfixed, hother⟩ := ih hl (by simpa using hy) h
      refine ⟨hsize, fun c hc => ?_, fun c hc => ?_⟩
      · by_cases hcl : c ∈ l
        · exact hfixed c hcl
        · -- the column is the first one, and nothing is written to it later
          obtain rfl : c = d := (List.mem_cons.1 hc).resolve_right hcl
          refine ⟨hwhole, ?_⟩
          rw [hother c hcl, getD_setIfInBounds (hy ▸ hd), if_pos rfl]
          exact hv
      · obtain ⟨hcd, hcl⟩ := not_or.1 (mt List.mem_cons.2 hc)
        rw [hother c hcl, getD_setIfInBounds (hy ▸ hd), if_neg (Ne.symm hcd)]

/-- Columns of the fix set are fixed, and the others are brought between their bounds. -/
theorem values_eq_some (hfix : ∀ c ∈ f.fixSet, c < p.numCols) (hn : n.HasSize p.numCols)
    (h : f.values p n = .ok (some z)) :
    z.size = p.numCols ∧ (∀ c ∈ f.fixSet, IsFixedAt n.box (source p n) c (z.getD c 0)) ∧
      ∀ c < p.numCols, c ∉ f.fixSet →
        Scalar.clamp ((source p n).getD c 0) (n.box.lower.getD c 0) (n.box.upper.getD c 0) =
          .ok (z.getD c 0) := by
  have hx := size_source hn
  obtain ⟨y, hy, hvalues⟩ := Checked.bind_eq_ok.1 h
  have hordered : n.box.IsOrdered p.numCols := by
    by_contra hcrossed
    rw [Box.nearest_eq_error hx hn.box hcrossed] at hy
    cases hy
  obtain ⟨y', hy', hsize, hclamp⟩ := Box.exists_nearest_eq hx hn.box hordered
  obtain rfl : y = y' := Except.ok.inj (hy.symm.trans hy')
  obtain ⟨hsize, hfixed, hother⟩ := fixColumns_eq_some hx hn.box hfix hsize hvalues
  refine ⟨hsize, hfixed, fun c hc hcf => ?_⟩
  rw [hother c hcf]
  exact hclamp c hc

/-! ### The points to which a run may come -/

/-- Columns are fixed, the others make a sub-problem, and some vector of it, whichever that is, is
expanded. -/
inductive MayReach (f : PartialFix) (k : SubSolver) (p : Problem α) (n : Node α)
    (full : Array α) : Prop
  | intro (x y : Array α) (sub : SubProblem α) (values : f.values p n = .ok (some x))
      (restrict : restrict p x (f.freeFlags k p) n.box = .ok (some sub))
      (expand : sub.expand x y = .ok full)

/-- What a run proposes is such a point. -/
theorem mayReach_of_attempt {s : Settings α} {best : α} {full : Array α}
    (h : (f.attempt s p n best).candidate = .ok (some full)) :
    f.MayReach s.subSolver p n full := by
  unfold attempt at h
  split at h
  · cases h
  · cases h
  · rename_i x hvalues
    obtain ⟨sub, y, hrestrict, hexpand⟩ := Attempt.exists_expand_of_complete h
    exact .intro x y sub hvalues hrestrict hexpand

theorem mayReach_of_trial {c : Core α} {best v : α} {full : Array α}
    (h : (f.trial c p n best).answer = .ok (some (v, full))) :
    f.MayReach c.settings.subSolver p n full := by
  unfold trial at h
  split at h
  · split at h
    · cases h
    · cases h
    · exact mayReach_of_attempt (Attempt.settle_eq_some.1 h).1
  · cases h

/-- A point to which a run may come has the values at which columns are fixed, but for the free
columns. -/
theorem MayReach.exists_values {k : SubSolver} {full : Array α} (h : f.MayReach k p n full)
    (hfix : ∀ c ∈ f.fixSet, c < p.numCols) (hn : n.HasSize p.numCols) :
    ∃ x, f.values p n = .ok (some x) ∧ full.size = p.numCols ∧
      ∀ c, isFree (f.freeFlags k p) c = false → full.getD c 0 = x.getD c 0 := by
  obtain ⟨x, y, sub, hvalues, hrestrict, hexpand⟩ := h
  obtain ⟨hx, -, -⟩ := values_eq_some hfix hn hvalues
  rw [restrict_eq hx (size_freeFlags f k) hn.box] at hrestrict
  split at hrestrict
  · cases hrestrict
  · cases hrestrict
    obtain ⟨hsize, hother⟩ := frame_expand hexpand
    exact ⟨x, hvalues, hsize.trans hx, hother⟩

end Values

/-! ### Floating-point values -/

/-- The vector keeps what a run must not alter: in the columns that are to be fixed in the problem,
the source is integral and the vector has the whole number next to it, brought between the whole
numbers that the bounds leave; in continuous columns it has the source, brought between the
bounds. -/
structure KeepsColumns (f : PartialFix) (p : Problem Binary64) (n : Node Binary64)
    (x : Array Binary64) : Prop where
  size : x.size = p.numCols
  integral : ∀ c ∈ fixSetOf p f.fixPriority,
    Scalar.abs ((source p n).getD c 0 - Scalar.round ((source p n).getD c 0)) ≤ Scalar.intTol
  fixed : ∀ c ∈ fixSetOf p f.fixPriority,
    Scalar.clamp (Scalar.round ((source p n).getD c 0)) (Scalar.ceil (n.box.lower.getD c 0))
      (Scalar.floor (n.box.upper.getD c 0)) = .ok (x.getD c 0)
  continuous : ∀ c < p.numCols, p.isInteger c = false →
    Scalar.clamp ((source p n).getD c 0) (n.box.lower.getD c 0) (n.box.upper.getD c 0) =
      .ok (x.getD c 0)

/-- A finite entry that is not fractional is integral. -/
theorem le_intTol_of_not_isFractional {x : Array Binary64} {c : Nat}
    (hx : (x.getD c 0).isFinite = true) (h : ¬ IsFractional x c) :
    Scalar.abs (x.getD c 0 - Scalar.round (x.getD c 0)) ≤ Scalar.intTol := by
  have hnumber := Binary64.isNaN_of_isFinite hx
  obtain ⟨hwhole, -⟩ :=
    Binary64.toWhole_bounds hnumber (Binary64.upperHalf (x.getD c 0).magnitude)
  refine Binary64.le_of_not_lt (Binary64.isNaN_of_isFinite Binary64.intTol_isFinite) ?_ h
  rw [show Scalar.abs (x.getD c 0 - Scalar.round (x.getD c 0)) =
    (x.getD c 0 - Scalar.round (x.getD c 0)).abs from rfl, Binary64.isNaN_abs]
  exact Binary64.isNaN_sub_of_isFinite hx hwhole

/-- Whatever a search answers, a run comes to points only that keep what it must not alter. -/
theorem MayReach.keepsColumns {f : PartialFix} {p : Problem Binary64} {n : Node Binary64}
    {k : SubSolver} {full : Array Binary64} (h : f.MayReach k p n full) (hf : f.HasFixSetOf p)
    (hn : n.HasSize p.numCols)
    (hsource : ∀ c < p.numCols, ((source p n).getD c 0).isFinite = true) :
    f.KeepsColumns p n full := by
  have hmem : ∀ c, c ∈ f.fixSet ↔ c ∈ fixSetOf p f.fixPriority := fun c => by rw [hf.fixSet_eq]
  have hinteger : ∀ c ∈ f.fixSet, c < p.numCols ∧ p.isInteger c = true := fun c hc =>
    Problem.mem_integerColumns.1 (mem_fixSetOf ((hmem c).1 hc))
  obtain ⟨x, hvalues, hsize, hother⟩ := h.exists_values (fun c hc => (hinteger c hc).1) hn
  obtain ⟨-, hfixed, hclamp⟩ := values_eq_some (fun c hc => (hinteger c hc).1) hn hvalues
  refine ⟨hsize, fun c hc => ?_, fun c hc => ?_, fun c hc hcontinuous => ?_⟩
  · have hc := (hmem c).2 hc
    exact le_intTol_of_not_isFractional (hsource c (hinteger c hc).1) (hfixed c hc).not_isFractional
  · have hc := (hmem c).2 hc
    have hfree : isFree (f.freeFlags k p) c = false :=
      (isFree_eq_false_iff (hinteger c hc).1).2 (.inl hc)
    rw [hother c hfree]
    exact (hfixed c hc).clamp_eq
  · have hfree : isFree (f.freeFlags k p) c = false :=
      (isFree_eq_false_iff hc).2 (.inr hcontinuous)
    have hcf : c ∉ f.fixSet := by
      intro hcf
      rw [(hinteger c hcf).2] at hcontinuous
      contradiction
    rw [hother c hfree]
    exact hclamp c hc hcf

end PartialFix

/-! ### Runs -/

/-- A run of partial fixing leaves the columns alone that it has fixed, and those that it cannot
choose: the solution with which it ends, if there is one, is a point to which it may come, and all
of these keep what must not be altered. -/
structure Heuristic.KeepsFixedColumns (h : Heuristic Binary64) (f : PartialFix)
    (m : Model Binary64) (best : Binary64) (buffer : Array Binary64) : Prop where
  improved : ∀ v, (h.seek m best buffer).outcome = .ok (.improved v) →
    f.MayReach h.core.settings.subSolver m.problem m.node (h.seek m best buffer).buffer ∧
      f.KeepsColumns m.problem m.node (h.seek m best buffer).buffer
  anyAnswer : m.node.HasSize m.problem.numCols → ∀ x,
    f.MayReach h.core.settings.subSolver m.problem m.node x → f.KeepsColumns m.problem m.node x

namespace Heuristic

/-- A run that ends with a solution has come to it. -/
theorem mayReach_of_improved {h : Heuristic Binary64} {f : PartialFix} {m : Model Binary64}
    {best v : Binary64} {buffer : Array Binary64} (hkind : h.kind = .partialFix f)
    (hv : (h.seek m best buffer).outcome = .ok (.improved v)) :
    m.node.HasSize m.problem.numCols ∧
      f.MayReach h.core.settings.subSolver m.problem m.node (h.seek m best buffer).buffer := by
  cases hcheck : h.check m buffer with
  | error e =>
    rw [outcome_seek_of_error hcheck] at hv
    cases hv
  | ok _ =>
    refine ⟨(isReady_of_check hcheck).node, ?_⟩
    by_cases hinteger : m.problem.numIntegers = 0
    · rw [outcome_seek_of_numIntegers hcheck hinteger] at hv
      cases hv
    · rw [outcome_seek hcheck hinteger] at hv
      cases hanswer : (h.kind.trial h.core m.problem m.node best).answer with
      | error e =>
        rw [hanswer] at hv
        cases hv
      | ok o =>
        cases o with
        | none =>
          rw [hanswer] at hv
          cases hv
        | some found =>
          rw [buffer_seek hcheck hinteger hanswer]
          rw [hkind] at hanswer
          exact PartialFix.mayReach_of_trial hanswer

/-- Every run whose fix set is that of the problem, and whose source is finite, leaves these columns
alone. -/
theorem seek_keepsFixedColumns {h : Heuristic Binary64} {f : PartialFix}
    (hkind : h.kind = .partialFix f) (m : Model Binary64) (hf : f.HasFixSetOf m.problem)
    (hsource : ∀ c < m.problem.numCols,
      ((PartialFix.source m.problem m.node).getD c 0).isFinite = true)
    (best : Binary64) (buffer : Array Binary64) : h.KeepsFixedColumns f m best buffer := by
  constructor
  · intro v hv
    obtain ⟨hn, hreach⟩ := mayReach_of_improved hkind hv
    exact ⟨hreach, hreach.keepsColumns hf hn hsource⟩
  · intro hn x hx
    exact hx.keepsColumns hf hn hsource

/-- An integer column that is to be fixed, one that is not, and a continuous column; the integer
columns may not both be one. -/
def threeColumns : Problem Binary64 where
  columns := #[⟨0, 0, 1, true, 0⟩, ⟨-1, 0, 1, true, 20000⟩, ⟨1, 0, Scalar.decimal 5 1, false, 0⟩]
  rowBounds := #[⟨-Scalar.infinity, 1⟩]
  matrix := .ofEntries 1 3 [⟨0, 0, 1⟩, ⟨0, 1, 1⟩]
  sosSets := []
  numCols_matrix := rfl
  numRows_matrix := by simp

/-- The root, where the relaxation is slightly above zero, a half, and above the upper
bound. -/
def aboveBounds : Model Binary64 where
  problem := threeColumns
  node := .root threeColumns #[Scalar.decimal 1 6, Scalar.decimal 5 1, 1] 0
  incumbent := Model.noIncumbent
  messages := #[]

/-- What is to be fixed in that problem. -/
def firstOfThree : PartialFix :=
  PartialFix.fresh.derive threeColumns

theorem seek_keepsFixedColumns_aboveBounds :
    (∀ c < threeColumns.numCols,
      ((PartialFix.source threeColumns aboveBounds.node).getD c 0).isFinite = true) ∧
    firstOfThree.HasFixSetOf threeColumns ∧
    (seek (ofKind (.partialFix firstOfThree)).attachOnly aboveBounds Scalar.infinity
        #[0, 0, 0]).outcome = .ok (.improved (-Scalar.decimal 5 1)) ∧
    (seek (ofKind (.partialFix firstOfThree)).attachOnly aboveBounds Scalar.infinity
        #[0, 0, 0]).buffer = #[0, 1, Scalar.decimal 5 1] ∧
    KeepsFixedColumns (ofKind (.partialFix firstOfThree)).attachOnly firstOfThree aboveBounds
      Scalar.infinity #[0, 0, 0] := by
  have hsource : ∀ c < threeColumns.numCols,
      ((PartialFix.source threeColumns aboveBounds.node).getD c 0).isFinite = true := by
    decide +kernel
  have hf : firstOfThree.HasFixSetOf threeColumns := PartialFix.hasFixSetOf_derive _ _
  exact ⟨hsource, hf, by decide +kernel, by decide +kernel,
    seek_keepsFixedColumns rfl aboveBounds hf hsource _ _⟩

end Heuristic

end PrimalHeuristics
