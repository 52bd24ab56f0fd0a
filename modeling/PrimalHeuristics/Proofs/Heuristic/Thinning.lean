import PrimalHeuristics.Proofs.Binary64.Counts
import PrimalHeuristics.Proofs.Collection.CutPhase

/-!
# How runs thin out

A heuristic runs at every so many nodes at which it fires, and that number grows with every run that
finds nothing. Nodes are counted from the first one on, not from the last run, so the next run is at
the next multiple of the grown number. It comes sooner than the number says, unless the node of the
last run is a multiple of it, too.

* `Core.afterNodes`: a heuristic that is asked at one root after another, and finds nothing;
* `Core.one_le_interval`: the number of nodes from run to run stays one or more;
* `Core.nextTurn`, `Core.runsAtTurn_add_iff`: where the next run is;
* `Core.thinsOut_iff`: when each run is followed by as many refusals as the grown number says;
* `Core.not_thinsOut_quarter`: runs at two nodes in a row.
-/

namespace PrimalHeuristics

namespace Core

/-! ### One node after another -/

section Nodes

variable {α : Type} [Scalar α] {c : Core α} {n : Node α} {ns : Nat → Node α} {k j : Nat}

/-- What is left of a heuristic after the first nodes of a sequence, if none of its runs finds
anything. -/
def afterNodes (c : Core α) (ns : Nat → Node α) : Nat → Core α
  | 0 => c
  | k + 1 => (c.afterNodes ns k).afterCuts (ns k)

/-- The heuristic runs at a node of a sequence. -/
def runsAtTurn (c : Core α) (ns : Nat → Node α) (k : Nat) : Bool :=
  (c.afterNodes ns k).runsAt (ns k)

/-- All nodes of a sequence are roots, at which the heuristic fires, and none has been counted. -/
structure FiresAlong (c : Core α) (ns : Nat → Node α) : Prop where
  fires : c.settings.trigger.firesAt true = true
  isRoot : ∀ k, (ns k).isRoot = true
  eligible_eq : c.eligible = 0

theorem settings_afterNodes (c : Core α) (ns : Nat → Node α) (k : Nat) :
    (c.afterNodes ns k).settings = c.settings := by
  induction k with
  | zero => rfl
  | succ k ih => exact ((c.afterNodes ns k).afterCuts_agrees (ns k)).settings_eq.symm.trans ih

/-- At a root a heuristic that fires is only kept from a run by the count of nodes. -/
theorem runsAt_of_isRoot (hfires : c.settings.trigger.firesAt true = true) (hn : n.isRoot = true) :
    c.runsAt n = decide (c.stride ∣ c.eligible) := by
  rw [runsAt_of_fires (hn ▸ hfires), Bool.eq_iff_iff, isDue_iff, decide_eq_true_iff,
    Nat.dvd_iff_mod_eq_zero]
  unfold isClear
  simp [hn]

/-- The node is counted, and the interval grows with a run. -/
theorem afterCuts_of_isRoot (hfires : c.settings.trigger.firesAt true = true)
    (hn : n.isRoot = true) : (c.afterCuts n).eligible = c.eligible + 1 ∧
      (c.afterCuts n).interval =
        if c.runsAt n then c.interval * (1 + c.settings.decayFactor) else c.interval := by
  unfold afterCuts
  rw [counted_of_fires (hn ▸ hfires)]
  split <;> exact ⟨rfl, rfl⟩

section Along

variable (h : c.FiresAlong ns)

include h

theorem fires_afterNodes (k : Nat) :
    (c.afterNodes ns k).settings.trigger.firesAt true = true := by
  rw [settings_afterNodes]
  exact h.fires

theorem eligible_afterNodes (k : Nat) : (c.afterNodes ns k).eligible = k := by
  induction k with
  | zero => exact h.eligible_eq
  | succ k ih =>
    obtain ⟨hcount, -⟩ := afterCuts_of_isRoot (fires_afterNodes h k) (h.isRoot k)
    exact hcount.trans (congrArg (· + 1) ih)

theorem interval_afterNodes_succ (k : Nat) : (c.afterNodes ns (k + 1)).interval =
    if c.runsAtTurn ns k then (c.afterNodes ns k).interval * (1 + c.settings.decayFactor)
    else (c.afterNodes ns k).interval := by
  obtain ⟨-, hinterval⟩ := afterCuts_of_isRoot (fires_afterNodes h k) (h.isRoot k)
  rw [settings_afterNodes] at hinterval
  exact hinterval

/-- Without runs the interval stays. -/
theorem interval_afterNodes_add (hnone : ∀ i < j, c.runsAtTurn ns (k + i) = false) :
    (c.afterNodes ns (k + j)).interval = (c.afterNodes ns k).interval := by
  induction j with
  | zero => rfl
  | succ j ih =>
    rw [← Nat.add_assoc, interval_afterNodes_succ h, hnone j (Nat.lt_succ_self j),
      if_neg Bool.false_ne_true]
    exact ih fun i hi => hnone i (Nat.lt_succ_of_lt hi)

/-- The turns are the multiples of the stride of the time. -/
theorem runsAtTurn_iff (k : Nat) :
    c.runsAtTurn ns k = true ↔ (c.afterNodes ns k).stride ∣ k := by
  unfold runsAtTurn
  rw [runsAt_of_isRoot (fires_afterNodes h k) (h.isRoot k), eligible_afterNodes h,
    decide_eq_true_iff]

/-- Without runs so does the stride. -/
theorem stride_afterNodes_add (hnone : ∀ i < j, c.runsAtTurn ns (k + i) = false) :
    (c.afterNodes ns (k + j)).stride = (c.afterNodes ns k).stride := by
  unfold stride
  rw [interval_afterNodes_add h hnone]

end Along

/-! ### The next run -/

/-- The stride after a node. -/
def strideAfter (c : Core α) (ns : Nat → Node α) (k : Nat) : Nat :=
  (c.afterNodes ns (k + 1)).stride

/-- The next multiple of the stride after a node. -/
def nextTurn (c : Core α) (ns : Nat → Node α) (k : Nat) : Nat :=
  c.strideAfter ns k * (k / c.strideAfter ns k + 1)

theorem lt_nextTurn (hpos : 0 < c.strideAfter ns k) : k < c.nextTurn ns k :=
  Nat.lt_mul_div_succ k hpos

/-- The next turn is one stride away exactly if the node is a multiple of the stride. -/
theorem nextTurn_eq_add_iff :
    c.nextTurn ns k = k + c.strideAfter ns k ↔ c.strideAfter ns k ∣ k := by
  unfold nextTurn
  rw [Nat.mul_succ, Nat.add_right_cancel_iff]
  exact ⟨fun h => ⟨_, h.symm⟩, Nat.mul_div_cancel'⟩

theorem nextTurn_le (c : Core α) (ns : Nat → Node α) (k : Nat) :
    c.nextTurn ns k ≤ k + c.strideAfter ns k := by
  unfold nextTurn
  rw [Nat.mul_succ]
  exact Nat.add_le_add_right (Nat.mul_div_le k _) _

/-- A multiple of the stride after a node that is not beyond the next turn is the next turn. -/
theorem dvd_add_iff_eq_nextTurn (hj : 0 < j) (hle : k + j ≤ c.nextTurn ns k) :
    c.strideAfter ns k ∣ k + j ↔ k + j = c.nextTurn ns k := by
  constructor
  · rintro ⟨q, hq⟩
    have hlt : k / c.strideAfter ns k < q := Nat.div_lt_of_lt_mul (by omega)
    refine Nat.le_antisymm hle ?_
    rw [hq]
    exact Nat.mul_le_mul_left _ hlt
  · intro heq
    exact ⟨_, heq⟩

/-- After a node the next run is at the next multiple of the stride, and none before. -/
theorem runsAtTurn_add_iff (h : c.FiresAlong ns) (hj : 0 < j) (hle : k + j ≤ c.nextTurn ns k) :
    c.runsAtTurn ns (k + j) = true ↔ k + j = c.nextTurn ns k := by
  induction j using Nat.strong_induction_on with
  | h j ih =>
    have hnone : ∀ i < j - 1, c.runsAtTurn ns (k + 1 + i) = false := by
      intro i hi
      rw [Nat.add_assoc, Bool.eq_false_iff, Ne, ih (1 + i) (by omega) (by omega) (by omega)]
      omega
    have hstride := stride_afterNodes_add h hnone
    rw [show k + 1 + (j - 1) = k + j by omega] at hstride
    rw [runsAtTurn_iff h, hstride]
    exact dvd_add_iff_eq_nextTurn hj hle

end Nodes

/-! ### Floating-point numbers of nodes -/

section Thinning

variable {c : Core Binary64} {ns : Nat → Node Binary64} {s : Settings Binary64} {n k j : Nat}

/-- From one on, the number of nodes from run to run is counted exactly, as far as it fits. -/
theorem lt_stride_iff (hc : 1 ≤ c.interval) (hj : j + 1 < UInt64.size) :
    j < c.stride ↔ (Scalar.round c.interval : Binary64).Exceeds j := by
  obtain ⟨hn, -⟩ := Binary64.one_le_iff.1 hc
  obtain ⟨-, hwhole, -⟩ := Binary64.toWhole_bounds hn (Binary64.upperHalf c.interval.magnitude)
  unfold stride
  rw [Binary64.max_one hc]
  exact Binary64.lt_toCount_iff (Binary64.one_le_round hc) hwhole hj

theorem stride_pos (hc : 1 ≤ c.interval) : 0 < c.stride := by
  rw [lt_stride_iff hc (by decide)]
  have hpos : 0 < 2 ^ 1074 := by positivity
  right
  rw [Nat.zero_mul]
  exact hpos.trans_le (Binary64.le_units (Binary64.one_le_round hc))

/-- Runs that find nothing do not make the number of nodes less than one. -/
theorem one_le_interval (h : c.FiresAlong ns) (hdecay : 0 ≤ c.settings.decayFactor)
    (hc : 1 ≤ c.interval) (k : Nat) : 1 ≤ (c.afterNodes ns k).interval := by
  induction k with
  | zero => exact hc
  | succ k ih =>
    rw [interval_afterNodes_succ h]
    split
    · exact Binary64.le_trans ih (Binary64.le_mul ih (Binary64.one_le_one_add hdecay))
    · exact ih

/-- Each run among the first nodes is followed by as many refusals as the grown number says, rounded
and less one, as far as there are nodes. -/
def ThinsOut (c : Core Binary64) (ns : Nat → Node Binary64) (n : Nat) : Prop :=
  ∀ k, c.runsAtTurn ns k = true → ∀ j, 0 < j → k + j < n →
    (Scalar.round (c.afterNodes ns (k + 1)).interval : Binary64).Exceeds j →
      c.runsAtTurn ns (k + j) = false

/-- Runs thin out exactly if the node of each run is a multiple of the grown stride, as far as the
next multiple is among the nodes. -/
theorem thinsOut_iff_of_firesAlong (h : c.FiresAlong ns) (hdecay : 0 ≤ c.settings.decayFactor)
    (hc : 1 ≤ c.interval) (hn : n < UInt64.size) : c.ThinsOut ns n ↔
      ∀ k, c.runsAtTurn ns k = true → c.nextTurn ns k < n → c.strideAfter ns k ∣ k := by
  have hinterval (k : Nat) := one_le_interval h hdecay hc (k + 1)
  have hpos (k : Nat) : 0 < c.strideAfter ns k := stride_pos (hinterval k)
  constructor
  · intro hthin k hrun hnext
    have hlt : k < c.nextTurn ns k := lt_nextTurn (hpos k)
    have hle := nextTurn_le c ns k
    -- the next run is not refused, so it is one stride away
    have hnextRun : c.runsAtTurn ns (k + (c.nextTurn ns k - k)) = true :=
      (runsAtTurn_add_iff h (by omega) (by omega)).2 (by omega)
    have hfar : ¬ c.nextTurn ns k - k < c.strideAfter ns k := by
      intro hnear
      have hexceeds := (lt_stride_iff (hinterval k) (by omega)).1 hnear
      rw [hthin k hrun _ (by omega) (by omega) hexceeds] at hnextRun
      contradiction
    exact nextTurn_eq_add_iff.1 (by omega)
  · intro hdvd k hrun j hj hlt hexceeds
    have hnear : j < c.strideAfter ns k := (lt_stride_iff (hinterval k) (by omega)).2 hexceeds
    have hnext : c.nextTurn ns k < n → k + j < c.nextTurn ns k := by
      intro hnext
      rw [nextTurn_eq_add_iff.2 (hdvd k hrun hnext)]
      omega
    have hbefore : k + j < c.nextTurn ns k := by
      by_contra hge
      exact hge (hnext (by omega))
    rw [Bool.eq_false_iff, Ne, runsAtTurn_add_iff h hj (by omega)]
    omega

/-- For a fresh heuristic, runs thin out exactly if the node of each run is a multiple of the grown
stride, as far as the next multiple is among the nodes. -/
theorem thinsOut_iff (hfires : s.trigger.firesAt true = true)
    (hroots : ∀ k, (ns k).isRoot = true) (hoften : s.howOften ≠ 0) (hdecay : 0 ≤ s.decayFactor)
    (hn : n < UInt64.size) : (ofSettings s).ThinsOut ns n ↔
      ∀ k, (ofSettings s).runsAtTurn ns k = true → (ofSettings s).nextTurn ns k < n →
        (ofSettings s).strideAfter ns k ∣ k := by
  have hcount : s.howOften.toNat ≠ 0 := by
    intro hzero
    exact hoften (UInt32.toNat_inj.1 hzero)
  exact thinsOut_iff_of_firesAlong ⟨hfires, hroots, rfl⟩ hdecay (Binary64.one_le_ofNat hcount) hn

/-- The heuristic always fires, first at every third node, and this number grows by a quarter. -/
def quarter : Settings Binary64 :=
  { Settings.named "Serendipity" with
    trigger := .always
    howOften := 3
    decayFactor := Scalar.decimal 25 2 }

/-- The root, again and again. -/
def rootAgain (_ : Nat) : Node Binary64 :=
  .root Collection.oneBinary #[0] 0

theorem thinsOut_iff_quarter :
    quarter.trigger.firesAt true = true ∧ (∀ k, (rootAgain k).isRoot = true) ∧
      quarter.howOften ≠ 0 ∧ 0 ≤ quarter.decayFactor ∧ 6 < UInt64.size ∧
      ((ofSettings quarter).ThinsOut rootAgain 6 ↔
        ∀ k, (ofSettings quarter).runsAtTurn rootAgain k = true →
          (ofSettings quarter).nextTurn rootAgain k < 6 →
            (ofSettings quarter).strideAfter rootAgain k ∣ k) := by
  have hfires : quarter.trigger.firesAt true = true := rfl
  have hroots : ∀ k, (rootAgain k).isRoot = true := fun _ => rfl
  have hoften : quarter.howOften ≠ 0 := by decide
  have hdecay : 0 ≤ quarter.decayFactor := by decide +kernel
  have hn : 6 < UInt64.size := by decide
  exact ⟨hfires, hroots, hoften, hdecay, hn, thinsOut_iff hfires hroots hoften hdecay hn⟩

/-- Nodes are counted from zero: after the run at node four the stride is five, and still there is a
run at node five. -/
theorem not_thinsOut_quarter :
    (ofSettings quarter).FiresAlong rootAgain ∧ quarter.howOften ≠ 0 ∧
      0 ≤ quarter.decayFactor ∧ quarter.decayFactor.isFinite = true ∧
      (List.range 6).map ((ofSettings quarter).runsAtTurn rootAgain) =
        [true, false, false, false, true, true] ∧
      (ofSettings quarter).strideAfter rootAgain 4 = 5 ∧
      ¬ (ofSettings quarter).ThinsOut rootAgain 6 := by
  refine ⟨⟨rfl, fun _ => rfl, rfl⟩, by decide, by decide +kernel, by decide +kernel,
    by decide +kernel, by decide +kernel, fun h => ?_⟩
  have hrun : (ofSettings quarter).runsAtTurn rootAgain 4 = true := by
    decide +kernel
  have hexceeds : (Scalar.round ((ofSettings quarter).afterNodes rootAgain 5).interval :
      Binary64).Exceeds 1 := by
    decide +kernel
  have hagain : (ofSettings quarter).runsAtTurn rootAgain 5 = true := by
    decide +kernel
  rw [h 4 hrun 1 (by decide) (by decide) hexceeds] at hagain
  exact Bool.false_ne_true hagain

end Thinning

end Core

end PrimalHeuristics
