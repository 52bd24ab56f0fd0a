import PrimalHeuristics.Binary64.Arithmetic
import PrimalHeuristics.Proofs.Collection.Frame

/-!
# The cut phase before the main phase

No kind of heuristic does anything while cuts are generated. A pass with cuts still counts the node,
and it records a run of each heuristic whose turn it is: the node is remembered as one where the
heuristic has run, and the interval grows. So a pass at the same node in the main phase may run
other heuristics than it would have run alone.

* `Collection.reached`, `Collection.ran`: the heuristics that a pass of the main phase gets to, and
  which of them it runs, by `Collection.handed_eq`;
* `Collection.runWithCuts_eq`: what a pass with cuts leaves behind;
* `Core.IsUndisturbed`: the heuristics for which it makes no difference;
* `Collection.keepsMainPhase_iff`: a pass with cuts keeps the main phase if and only if it makes no
  difference for all heuristics that the main phase gets to;
* `Collection.not_keepsMainPhase_luckyBranch`: a pass with cuts that does not.
-/

namespace PrimalHeuristics

variable {α : Type} [Scalar α]

/-! ### The gate, twice -/

namespace Core

/-- The heuristic is to run at a node. -/
def runsAt (c : Core α) (n : Node α) : Bool :=
  (c.shouldRun n).1

/-- The heuristic, with the node counted. -/
def counted (c : Core α) (n : Node α) : Core α :=
  (c.shouldRun n).2

/-- What a pass with cuts leaves of a heuristic. -/
def afterCuts (c : Core α) (n : Node α) : Core α :=
  if c.runsAt n then (c.counted n).recordRun n false else c.counted n

/-- The stride after one more run without success. -/
def grownStride (c : Core α) : Nat :=
  stride { c with interval := c.interval * (1 + c.settings.decayFactor) }

/-- No earlier run is near the node, or it is the root. -/
def isClear (c : Core α) (n : Node α) : Bool :=
  n.isRoot || c.runNodes.allFar n.path c.settings.farThreshold

/-- A pass with cuts makes no difference for a heuristic: it does not fire at the node, or is kept
from it by an earlier run nearby; or it is its turn neither now nor at the next count; or it is its
turn now and again at the next count, with the interval grown, and the node is no obstacle to
itself, as the root is none. -/
def IsUndisturbed (c : Core α) (n : Node α) : Prop :=
  c.settings.trigger.firesAt n.isRoot = true →
  c.isClear n = true →
    if c.eligible % c.stride = 0 then
      (c.eligible + 1) % c.grownStride = 0 ∧
        (n.isRoot || n.path.isFarFrom n.path c.settings.farThreshold) = true
    else (c.eligible + 1) % c.stride ≠ 0

theorem counted_agrees (c : Core α) (n : Node α) : c.Agrees (c.counted n) := by
  unfold counted shouldRun
  split <;> exact ⟨rfl, rfl, rfl⟩

theorem afterCuts_agrees (c : Core α) (n : Node α) : c.Agrees (c.afterCuts n) := by
  obtain ⟨hattached, hsettings, hstream⟩ := c.counted_agrees n
  unfold afterCuts
  split <;> exact ⟨hattached, hsettings, hstream⟩

theorem allFar_append (h : History α) (p q : Path α) (share : α) :
    History.allFar (h ++ [p]) q share = (h.allFar q share && p.isFarFrom q share) := by
  simp [History.allFar]

theorem runsAt_of_fires {c : Core α} {n : Node α}
    (h : c.settings.trigger.firesAt n.isRoot = true) : c.runsAt n = c.isDue n := by
  unfold runsAt shouldRun
  rw [if_pos h]

theorem counted_of_fires {c : Core α} {n : Node α}
    (h : c.settings.trigger.firesAt n.isRoot = true) :
    c.counted n = { c with eligible := c.eligible + 1 } := by
  unfold counted shouldRun
  rw [if_pos h]

theorem isDue_iff {c : Core α} {n : Node α} :
    c.isDue n = true ↔ c.eligible % c.stride = 0 ∧ c.isClear n = true := by
  unfold isDue isClear
  rw [Bool.and_eq_true, beq_iff_eq]

/-- After a run without success the node has to be clear of itself, too. -/
theorem isDue_recordRun_iff {c : Core α} {n : Node α} (hclear : c.isClear n = true) :
    (recordRun { c with eligible := c.eligible + 1 } n false).isDue n = true ↔
      (c.eligible + 1) % c.grownStride = 0 ∧
        (n.isRoot || n.path.isFarFrom n.path c.settings.farThreshold) = true := by
  rw [isDue_iff]
  unfold isClear recordRun grownStride at *
  cases hroot : n.isRoot with
  | true => rfl
  | false =>
    rw [hroot, Bool.false_or] at hclear
    simp only [Bool.false_or, Bool.false_eq_true, if_false]
    rw [allFar_append, hclear, Bool.true_and]
    rfl

/-- The gate answers after a pass with cuts as it does before if and only if the heuristic is
undisturbed. -/
theorem runsAt_afterCuts_iff (c : Core α) (n : Node α) :
    (c.afterCuts n).runsAt n = c.runsAt n ↔ c.IsUndisturbed n := by
  unfold IsUndisturbed
  -- only a heuristic that runs with cuts is left with a longer interval and a new run
  by_cases hfires : c.settings.trigger.firesAt n.isRoot = true
  · have hfires' : (c.afterCuts n).settings.trigger.firesAt n.isRoot = true := by
      rw [← (c.afterCuts_agrees n).settings_eq]
      exact hfires
    rw [runsAt_of_fires hfires', runsAt_of_fires hfires]
    unfold afterCuts
    rw [runsAt_of_fires hfires, counted_of_fires hfires]
    by_cases hclear : c.isClear n = true
    · by_cases hturn : c.eligible % c.stride = 0
      · have hdue : c.isDue n = true := isDue_iff.2 ⟨hturn, hclear⟩
        rw [hdue, if_pos rfl, isDue_recordRun_iff hclear]
        simp only [hfires, hclear, hturn, if_true, forall_const]
      · have hdue : c.isDue n = false := by
          rw [Bool.eq_false_iff, Ne, isDue_iff]
          exact fun h => hturn h.1
        rw [hdue, if_neg Bool.false_ne_true, Bool.eq_false_iff, Ne, isDue_iff]
        simp only [hfires, hclear, hturn, if_false, forall_const]
        exact ⟨fun h k => h ⟨k, hclear⟩, fun h k => h k.1⟩
    · have hdue : c.isDue n = false := by
        rw [Bool.eq_false_iff, Ne, isDue_iff]
        exact fun h => hclear h.2
      rw [hdue, if_neg Bool.false_ne_true, Bool.eq_false_iff, Ne, isDue_iff]
      exact ⟨fun _ _ h => absurd h hclear, fun _ h => hclear h.2⟩
  · have hrun : ∀ d : Core α, d.settings = c.settings → d.runsAt n = false := by
      intro d hd
      unfold runsAt shouldRun
      rw [hd, if_neg hfires]
    rw [hrun c rfl, hrun _ (c.afterCuts_agrees n).settings_eq.symm]
    exact ⟨fun _ h => absurd h hfires, fun _ => rfl⟩

end Core

namespace Collection

/-! ### What a pass of the main phase runs -/

/-- The turn of a heuristic that runs at the current node of a model. -/
def turn (h : Heuristic α) (m : Model α) (n : Node α) : Turn α :=
  runOne { h with core := h.core.counted n } m m.node

/-- The heuristics that a pass of the main phase gets to; one that fails is the last. -/
def reached (n : Node α) : List (Heuristic α) → Model α → List (Heuristic α)
  | [], _ => []
  | h :: hs, m =>
    if h.core.runsAt n then
      match (turn h m n).outcome with
      | .error _ => [h]
      | .ok _ => h :: reached n hs (turn h m n).model
    else h :: reached n hs m

/-- Which of the heuristics that a pass of the main phase gets to it runs, in order. -/
def ran (k : Collection α) (m : Model α) : List Bool :=
  if k.attached then (reached m.node k.heuristics m).map (·.core.runsAt m.node) else []

/-- A pass of the main phase. -/
def mainPass (n : Node α) (hs : List (Heuristic α)) (m : Model α) : Pass α :=
  (pass (fun h m () => (runOne h m m.node, ())) n hs m ()).1

theorem runAtNode_eq {k : Collection α} (h : k.attached = true) (m : Model α) :
    k.runAtNode m = mainPass m.node k.heuristics m := by
  unfold runAtNode mainPass
  rw [if_pos h]

section MainPass

variable {n : Node α} {h : Heuristic α} {m : Model α}

theorem mainPass_of_not_runs (hrun : h.core.runsAt n = false) (hs : List (Heuristic α)) :
    (mainPass n (h :: hs) m).outcome = (mainPass n hs m).outcome := by
  unfold mainPass
  rw [pass]
  dsimp only
  rw [show (h.core.shouldRun n).1 = false from hrun]
  rfl

theorem mainPass_of_error {e : Failure α} (hrun : h.core.runsAt n = true)
    (he : (turn h m n).outcome = .error e) (hs : List (Heuristic α)) :
    (mainPass n (h :: hs) m).outcome = .error e := by
  have hdue : (h.core.shouldRun n).1 = true := hrun
  have he : (runOne { h with core := (h.core.shouldRun n).2 } m m.node).outcome = .error e := he
  unfold mainPass
  rw [pass]
  simp only [hdue, if_true, he]

theorem mainPass_of_ok {f : Option (Find α)} (hrun : h.core.runsAt n = true)
    (hf : (turn h m n).outcome = .ok f) (hs : List (Heuristic α)) :
    (mainPass n (h :: hs) m).outcome =
      (mainPass n hs (turn h m n).model).outcome.map (f.toList ++ ·) := by
  have hdue : (h.core.shouldRun n).1 = true := hrun
  have hf : (runOne { h with core := (h.core.shouldRun n).2 } m m.node).outcome = .ok f := hf
  unfold mainPass
  rw [pass]
  simp only [hdue, if_true, hf]
  rfl

theorem reached_of_not_runs (hrun : h.core.runsAt n = false) (hs : List (Heuristic α)) :
    reached n (h :: hs) m = h :: reached n hs m := by
  rw [reached, hrun, if_neg Bool.false_ne_true]

theorem reached_of_error {e : Failure α} (hrun : h.core.runsAt n = true)
    (he : (turn h m n).outcome = .error e) (hs : List (Heuristic α)) :
    reached n (h :: hs) m = [h] := by
  rw [reached, if_pos hrun, he]

theorem reached_of_ok {f : Option (Find α)} (hrun : h.core.runsAt n = true)
    (hf : (turn h m n).outcome = .ok f) (hs : List (Heuristic α)) :
    reached n (h :: hs) m = h :: reached n hs (turn h m n).model := by
  rw [reached, if_pos hrun, hf]

/-- The heuristics that a pass hands to a run, with the node counted, are those that it gets to and
that the gate lets through. -/
theorem handed_eq (n : Node α) (hs : List (Heuristic α)) (m : Model α)
    (seen : List (Heuristic α)) :
    (pass (fun h m seen => (runOne h m m.node, seen ++ [h])) n hs m seen).2 =
      seen ++ ((reached n hs m).filter (·.core.runsAt n)).map
        (fun h => { h with core := h.core.counted n }) := by
  induction hs generalizing m seen with
  | nil => simp [pass, reached]
  | cons h hs ih =>
    rw [pass]
    dsimp only
    cases hrun : h.core.runsAt n with
    | false =>
      have hdue : (h.core.shouldRun n).1 = false := hrun
      simp only [hdue, Bool.false_eq_true, if_false]
      rw [ih, reached_of_not_runs hrun, List.filter_cons_of_neg (by rw [hrun]; decide)]
    | true =>
      have hdue : (h.core.shouldRun n).1 = true := hrun
      have hturn : runOne { h with core := (h.core.shouldRun n).2 } m m.node = turn h m n := rfl
      simp only [hdue, if_true, hturn]
      cases ht : (turn h m n).outcome with
      | error e =>
        simp only [reached_of_error hrun ht, List.filter_cons, hrun, if_true]
        rfl
      | ok f =>
        simp only [ih, reached_of_ok hrun ht, List.filter_cons, hrun, if_true, List.map_cons,
          List.append_assoc]
        rfl

/-- A pass gets to the first heuristic. -/
theorem reached_cons (n : Node α) (h : Heuristic α) (hs : List (Heuristic α)) (m : Model α) :
    ∃ l, reached n (h :: hs) m = h :: l := by
  rw [reached]
  split
  · split <;> exact ⟨_, rfl⟩
  · exact ⟨_, rfl⟩

end MainPass

/-! ### A pass with cuts -/

/-- What a pass with cuts leaves of a heuristic. -/
def afterCuts (n : Node α) (h : Heuristic α) : Heuristic α :=
  { h with core := h.core.afterCuts n }

/-- A run while cuts are generated ends without a find. -/
theorem runOneWithCuts_eq (h : Heuristic α) (m : Model α) (n : Node α) (cuts : CutPool α) :
    runOneWithCuts h m n cuts = (conclude h m n "none" none, cuts) := rfl

/-- A pass with cuts finds nothing and adds no cuts; it only counts nodes and records runs. -/
theorem passWithCuts_eq (n : Node α) (hs : List (Heuristic α)) (m : Model α) (cuts : CutPool α)
    (hm : m.node = n) : ∃ l, m.Agrees l ∧
      pass (fun h m cuts => runOneWithCuts h m m.node cuts) n hs m cuts =
        (⟨.ok [], hs.map (afterCuts n), l⟩, cuts) := by
  induction hs generalizing m with
  | nil => exact ⟨m, .refl m, rfl⟩
  | cons h hs ih =>
    have hafter : h.core.afterCuts n = if h.core.runsAt n then
        (h.core.counted n).recordRun n false else h.core.counted n := rfl
    rw [pass]
    dsimp only
    cases hrun : (h.core.shouldRun n).1 with
    | false =>
      obtain ⟨l, hl, hpass⟩ := ih m hm
      rw [show h.core.runsAt n = false from hrun, if_neg Bool.false_ne_true] at hafter
      refine ⟨l, hl, ?_⟩
      simp only [Bool.false_eq_true, if_false, hpass, List.map_cons, afterCuts, hafter]
      rfl
    | true =>
      have hcounted : (h.core.shouldRun n).2 = h.core.counted n := rfl
      rw [show h.core.runsAt n = true from hrun, if_pos rfl] at hafter
      rw [hcounted, hm, if_pos rfl, runOneWithCuts_eq]
      generalize hturn : conclude { h with core := h.core.counted n } m n "none" none = t
      have houtcome : t.outcome = .ok none := hturn ▸ rfl
      have hheuristic : t.heuristic = afterCuts n h := by
        rw [afterCuts, hafter]
        exact hturn ▸ rfl
      have hmodel : m.Agrees t.model := hturn ▸ ⟨rfl, rfl, rfl⟩
      obtain ⟨l, hl, hpass⟩ := ih t.model (hmodel.node_eq.symm.trans hm)
      refine ⟨l, hmodel.trans hl, ?_⟩
      simp only [houtcome, hheuristic, hpass, List.map_cons]
      rfl

theorem runWithCuts_eq {k : Collection α} (h : k.attached = true) (m : Model α)
    (cuts : CutPool α) : ∃ l, m.Agrees l ∧
      k.runWithCuts m cuts = (⟨.ok [], k.heuristics.map (afterCuts m.node), l⟩, cuts) := by
  unfold runWithCuts
  rw [if_pos h]
  exact passWithCuts_eq m.node k.heuristics m cuts rfl

/-! ### The main phase afterwards -/

section Afterwards

variable {n : Node α} {m l : Model α}

theorem turn_agrees {h k : Heuristic α} (hh : h.Agrees k) (hm : m.Agrees l) (n : Node α) :
    (turn h m n).Agrees (turn k l n) := by
  have hcore : (h.core.counted n).Agrees (k.core.counted n) :=
    ((h.core.counted_agrees n).symm.trans hh.core).trans (k.core.counted_agrees n)
  unfold turn
  rw [hm.node_eq]
  exact runOne_agrees (h := ⟨h.core.counted n, h.kind⟩) (k := ⟨k.core.counted n, k.kind⟩)
    ⟨hcore, hh.kind_eq⟩ hm l.node

/-- A heuristic for which the gate answers alike: both passes go on from models that agree, or both
end with its error. -/
theorem pass_cons_agrees (hm : m.Agrees l) (h : Heuristic α) (hs : List (Heuristic α))
    (hsame : (afterCuts n h).core.runsAt n = h.core.runsAt n) :
    (∃ m' l' : Model α, m'.Agrees l' ∧ reached n (h :: hs) m = h :: reached n hs m' ∧
      reached n ((h :: hs).map (afterCuts n)) l =
        afterCuts n h :: reached n (hs.map (afterCuts n)) l' ∧
      ((mainPass n (hs.map (afterCuts n)) l').outcome = (mainPass n hs m').outcome →
        (mainPass n ((h :: hs).map (afterCuts n)) l).outcome =
          (mainPass n (h :: hs) m).outcome)) ∨
    (reached n (h :: hs) m = [h] ∧
      reached n ((h :: hs).map (afterCuts n)) l = [afterCuts n h] ∧
      (mainPass n ((h :: hs).map (afterCuts n)) l).outcome =
        (mainPass n (h :: hs) m).outcome) := by
  have hafter : h.Agrees (afterCuts n h) := ⟨h.core.afterCuts_agrees n, rfl⟩
  have hturn := turn_agrees hafter hm n
  rw [List.map_cons]
  cases hrun : h.core.runsAt n with
  | false =>
    rw [hrun] at hsame
    refine .inl ⟨m, l, hm, reached_of_not_runs hrun hs, reached_of_not_runs hsame _,
      fun hrest => ?_⟩
    rw [mainPass_of_not_runs hrun, mainPass_of_not_runs hsame]
    exact hrest
  | true =>
    rw [hrun] at hsame
    cases ht : (turn h m n).outcome with
    | error e =>
      have ht' : (turn (afterCuts n h) l n).outcome = .error e := hturn.outcome_eq ▸ ht
      refine .inr ⟨reached_of_error hrun ht hs, reached_of_error hsame ht' _, ?_⟩
      rw [mainPass_of_error hrun ht, mainPass_of_error hsame ht']
    | ok f =>
      have ht' : (turn (afterCuts n h) l n).outcome = .ok f := hturn.outcome_eq ▸ ht
      refine .inl ⟨_, _, hturn.model, reached_of_ok hrun ht hs, reached_of_ok hsame ht' _,
        fun hrest => ?_⟩
      rw [mainPass_of_ok hrun ht, mainPass_of_ok hsame ht', hrest]

/-- The gate lets the same heuristics through, as far as a pass gets, if and only if none of them is
disturbed. -/
theorem reached_afterCuts_iff (hm : m.Agrees l) (hs : List (Heuristic α)) :
    (reached n (hs.map (afterCuts n)) l).map (·.core.runsAt n) =
        (reached n hs m).map (·.core.runsAt n) ↔
      ∀ h ∈ reached n hs m, h.core.IsUndisturbed n := by
  induction hs generalizing m l with
  | nil => simp [reached]
  | cons h hs ih =>
    have hgate := h.core.runsAt_afterCuts_iff n
    by_cases hsame : (afterCuts n h).core.runsAt n = h.core.runsAt n
    · have hfirst : h.core.IsUndisturbed n := hgate.1 hsame
      obtain ⟨m', l', hagree, hr, hr', -⟩ | ⟨hr, hr', -⟩ := pass_cons_agrees hm h hs hsame
      · rw [hr, hr', List.map_cons, List.map_cons, hsame, List.forall_mem_cons, ← ih hagree]
        exact ⟨fun heq => ⟨hfirst, (List.cons.inj heq).2⟩, fun hall => by rw [hall.2]⟩
      · rw [hr, hr', List.forall_mem_singleton, List.map_singleton, List.map_singleton, hsame]
        exact ⟨fun _ => hfirst, fun _ => rfl⟩
    · -- both passes get to this heuristic, and they differ there
      obtain ⟨a, ha⟩ := reached_cons n h hs m
      obtain ⟨b, hb⟩ := reached_cons n (afterCuts n h) (hs.map (afterCuts n)) l
      rw [List.map_cons, ha, hb]
      constructor
      · intro heq
        exact absurd (List.cons.inj heq).1 hsame
      · intro hall
        exact absurd (hgate.2 (hall h List.mem_cons_self)) hsame

/-- Passes that run the same heuristics find the same. -/
theorem outcome_afterCuts (hm : m.Agrees l) (hs : List (Heuristic α))
    (hall : ∀ h ∈ reached n hs m, h.core.IsUndisturbed n) :
    (mainPass n (hs.map (afterCuts n)) l).outcome = (mainPass n hs m).outcome := by
  induction hs generalizing m l with
  | nil => rfl
  | cons h hs ih =>
    obtain ⟨a, ha⟩ := reached_cons n h hs m
    have hsame := (h.core.runsAt_afterCuts_iff n).2 (hall h (ha ▸ List.mem_cons_self))
    obtain ⟨m', l', hagree, hr, -, hrest⟩ | ⟨-, -, heq⟩ := pass_cons_agrees hm h hs hsame
    · rw [hr, List.forall_mem_cons] at hall
      exact hrest (ih hagree hall.2)
    · exact heq

end Afterwards

/-- A pass with cuts keeps the main phase: a pass at the same node afterwards runs the same
heuristics as it does alone, and finds the same. -/
structure KeepsMainPhase (k : Collection α) (m : Model α) (cuts : CutPool α) : Prop where
  ran_eq : ran { k with heuristics := (k.runWithCuts m cuts).1.heuristics }
    (k.runWithCuts m cuts).1.model = k.ran m
  outcome_eq : (runAtNode { k with heuristics := (k.runWithCuts m cuts).1.heuristics }
    (k.runWithCuts m cuts).1.model).outcome = (k.runAtNode m).outcome

/-- The main phase is kept if and only if no heuristic that it gets to is disturbed. -/
theorem keepsMainPhase_iff (k : Collection α) (m : Model α) (cuts : CutPool α) :
    k.KeepsMainPhase m cuts ↔ (k.attached = true →
      ∀ h ∈ reached m.node k.heuristics m, h.core.IsUndisturbed m.node) := by
  by_cases hk : k.attached = true
  · obtain ⟨l, hl, hcuts⟩ := runWithCuts_eq hk m cuts
    have hran : ran { k with heuristics := k.heuristics.map (afterCuts m.node) } l = k.ran m ↔
        ∀ h ∈ reached m.node k.heuristics m, h.core.IsUndisturbed m.node := by
      rw [← reached_afterCuts_iff hl, ran, ran, if_pos hk, if_pos hk, hl.node_eq]
    have hkeeps := outcome_afterCuts (n := m.node) hl k.heuristics
    constructor
    · rintro ⟨hsame, -⟩ -
      rw [hcuts] at hsame
      exact hran.1 hsame
    · intro hall
      constructor
      · rw [hcuts]
        exact hran.2 (hall hk)
      · have hafter := runAtNode_eq (k := ⟨k.heuristics.map (afterCuts m.node), k.attached⟩) hk l
        rw [hcuts]
        dsimp only
        rw [runAtNode_eq hk, hafter, ← hl.node_eq]
        exact hkeeps (hall hk)
  · have hcuts : k.runWithCuts m cuts =
        (⟨.error (.error (.noModel "collection")), k.heuristics, m⟩, cuts) := by
      unfold runWithCuts
      rw [if_neg hk]
    refine ⟨fun _ h => absurd h hk, fun _ => ⟨?_, ?_⟩⟩ <;> rw [hcuts]

/-! ### A find that is lost -/

/-- One binary column of cost minus one. -/
def oneBinary : Problem Binary64 where
  columns := #[⟨-1, 0, 1, true, 0⟩]
  rowBounds := #[]
  matrix := .ofRows 1 #[] (by simp) (by simp)
  sosSets := []
  numCols_matrix := rfl
  numRows_matrix := rfl

/-- Its variant with another cost and another priority. -/
def oneColumn (cost : Binary64) (priority : Int) : Problem Binary64 :=
  { oneBinary with
    columns := #[⟨cost, 0, 1, true, priority⟩]
    numCols_matrix := rfl }

/-- A node below the root whose relaxation came across the best solution. -/
def luckyBranch : Model Binary64 where
  problem := oneBinary
  node := {
    depth := 1
    path := [⟨0, .up, 1⟩]
    box := ⟨#[1], #[1]⟩
    solution := #[1]
    objective := -1
    solverSolution := some (-1, #[1])
    hotstart := none }
  incumbent := Model.noIncumbent
  messages := #[]

/-- A serendipity heuristic with standard settings. -/
def oneSerendipity : Collection Binary64 :=
  ⟨[(Heuristic.ofKind (.serendipity .fresh)).attachOnly], true⟩

/-- Alone the pass finds the solution, after a pass with cuts it finds none. -/
theorem not_keepsMainPhase_luckyBranch : ¬ oneSerendipity.KeepsMainPhase luckyBranch #[] := by
  intro h
  have halone : (oneSerendipity.runAtNode luckyBranch).outcome.toOption.map List.length =
      some 1 := by
    decide +kernel
  have hafter : (runAtNode { oneSerendipity with
        heuristics := (oneSerendipity.runWithCuts luckyBranch #[]).1.heuristics }
      (oneSerendipity.runWithCuts luckyBranch #[]).1.model).outcome.toOption.map List.length =
      some 0 := by
    decide +kernel
  rw [h.outcome_eq, halone] at hafter
  contradiction

end Collection

end PrimalHeuristics
