import PrimalHeuristics.Proofs.Heuristic.Reproducible
import PrimalHeuristics.Proofs.Heuristic.Thinning

/-!
# The gate before a run

Nodes are counted modulo the number of nodes from run to run. That number starts with a setting, and
is multiplied by one plus another setting for each run that finds nothing, up to infinity. Both are
checked when they are set, by the checks of whole settings, so that the number never falls below one.

* `Core.Use`, `Core.after`: what may be done with a heuristic that is not attached to a problem;
* `Core.change?_eq_error_iff`: a change is checked as whole settings are;
* `Core.IsSound`: the invariant, and `Core.IsSound.after`: whatever is done preserves it;
* `Core.sound_of_isNew`: what holds of a heuristic after any history.
-/

namespace PrimalHeuristics

namespace Core

/-! ### Histories -/

section Histories

variable {α : Type} [Scalar α]

/-- What may be done with the part that all heuristics have in common. -/
inductive Use (α : Type) [Scalar α] where
  | set (e : Change α)
  | shouldRun (n : Node α)
  | recordRun (n : Node α) (found : Bool)
  | draw
  | attach
  | disable (m : Model α) (reason : String)
  | addSubSolveNodes (n : Nat)

/-- The heuristic after it. -/
def after (c : Core α) : Use α → Core α
  | .set e => c.change e
  | .shouldRun n => (c.shouldRun n).2
  | .recordRun n found => c.recordRun n found
  | .draw => c.draw.2
  | .attach => { c with attached := true }
  | .disable m reason => (c.disable m reason).1
  | .addSubSolveNodes n => c.addSubSolveNodes n

/-- The heuristic after a history. -/
def afterAll (c : Core α) (history : List (Use α)) : Core α :=
  history.foldl after c

/-- A fresh heuristic: with settings that were checked, or with standard ones under a name. -/
inductive IsNew : Core α → Prop
  | ofSettings {s : Settings α} {c : Core α} (h : ofSettings? s = .ok c) : IsNew c
  | named (name : String) : IsNew (named name)

theorem change_of_error {c : Core α} {e : Change α} {err : Error α} (h : c.change? e = .error err) :
    c.change e = c := by
  unfold change
  rw [h]
  rfl

/-- Only a new frequency resets the number of nodes from run to run. -/
theorem interval_change (c : Core α) (e : Change α) : (c.change e).interval = c.interval ∨
    ∃ n : UInt32, n ≠ 0 ∧ (c.change e).interval = Scalar.ofNat n.toNat := by
  unfold change
  cases he : c.change? e with
  | error _ => exact .inl rfl
  | ok d =>
    show d.interval = c.interval ∨ ∃ n : UInt32, n ≠ 0 ∧ d.interval = Scalar.ofNat n.toNat
    cases e with
    | howOften n =>
      obtain ⟨_, hn, hd⟩ := Checked.bind_eq_ok.1 he
      cases hd
      exact .inr ⟨n, bne_iff_ne.1 (Settings.demand_eq_ok.1 hn), rfl⟩
    | triggerCode | fractionSmall | decayFactor | farThreshold =>
      obtain ⟨_, -, hd⟩ := Checked.bind_eq_ok.1 he
      cases hd
      exact .inl rfl
    | name | trigger | trustOddProblems | numberNodes | feasibilityPumpOptions | seed | subSolver =>
      cases he
      exact .inl rfl

/-- The settings with a new value, valid or not. A trigger's number is checked by the trigger. -/
def written (s : Settings α) : Change α → Settings α
  | .name name => { s with name }
  | .trigger trigger => { s with trigger }
  | .triggerCode _ => s
  | .trustOddProblems trust => { s with trustOddProblems := trust }
  | .numberNodes n => { s with numberNodes := n }
  | .feasibilityPumpOptions options => { s with feasibilityPumpOptions := options }
  | .fractionSmall x => { s with fractionSmall := x }
  | .howOften n => { s with howOften := n }
  | .decayFactor x => { s with decayFactor := x }
  | .farThreshold x => { s with farThreshold := x }
  | .seed seed => { s with seed }
  | .subSolver k => { s with subSolver := k }

/-- A change is refused exactly if whole settings with the new value are, and with the same error. -/
theorem change?_eq_error_iff {c : Core α} (hc : c.settings.validate = .ok ()) (e : Change α)
    (err : Error α) : c.change? e = .error err ↔
      (∃ code, e = .triggerCode code ∧ Trigger.ofCode code = .error err) ∨
        (written c.settings e).validate = .error err := by
  -- the other values are valid, so that the check of the new one decides
  obtain ⟨hfraction, hfar, hoften, hdecay⟩ := Settings.validate_eq_ok.1 hc
  cases e with
  | triggerCode code =>
    rw [or_iff_left fun herror => by cases hc.symm.trans herror]
    refine Checked.bind_ok_eq_error.trans ⟨fun h => ⟨code, rfl, h⟩, fun ⟨_, heq, h⟩ => ?_⟩
    cases heq
    exact h
  | fractionSmall x =>
    rw [or_iff_right nofun]
    unfold Settings.validate
    simp only [written, hfar, hoften, hdecay, Checked.ok_bind]
    exact Checked.bind_ok_eq_error.trans Checked.bind_ok_eq_error.symm
  | howOften n =>
    rw [or_iff_right nofun]
    unfold Settings.validate
    simp only [written, hfraction, hfar, hdecay, Checked.ok_bind]
    exact Checked.bind_ok_eq_error.trans Checked.bind_ok_eq_error.symm
  | decayFactor x =>
    rw [or_iff_right nofun]
    unfold Settings.validate
    simp only [written, hfraction, hfar, hoften, Checked.ok_bind]
    exact Checked.bind_ok_eq_error
  | farThreshold x =>
    rw [or_iff_right nofun]
    unfold Settings.validate
    simp only [written, hfraction, hoften, hdecay, Checked.ok_bind]
    exact Checked.bind_ok_eq_error.trans Checked.bind_ok_eq_error.symm
  | name | trigger | trustOddProblems | numberNodes | feasibilityPumpOptions | seed | subSolver =>
    refine iff_of_false nofun ?_
    rintro (⟨_, hcode, -⟩ | herror)
    · cases hcode
    · cases hc.symm.trans herror

end Histories

/-! ### The invariant -/

variable {c : Core Binary64} {s : Settings Binary64}

/-- The growth of valid settings is a number, and not negative. -/
theorem decayFactor_nonneg (h : s.validate = .ok ()) : 0 ≤ s.decayFactor := by
  obtain ⟨-, -, -, hdecay⟩ := Settings.validate_eq_ok.1 h
  rw [Settings.checkDecayFactor, Settings.demand_eq_ok, Bool.not_eq_true', Bool.or_eq_false_iff,
    decide_eq_false_iff_not] at hdecay
  obtain ⟨hnumber, hneg⟩ := hdecay
  have hzero : (0 : Binary64).isNaN = false := rfl
  exact (Binary64.le_iff_place hzero hnumber).2
    (not_lt.1 fun hlt => hneg ((Binary64.lt_iff_place hnumber hzero).2 hlt))

/-- Settings that are valid, and one node or more from run to run. -/
structure IsSound (c : Core Binary64) : Prop where
  valid : c.settings.validate = .ok ()
  one_le : 1 ≤ c.interval

theorem IsSound.of_interval_eq {d : Core Binary64} (h : c.IsSound)
    (hs : d.settings.validate = .ok ()) (hinterval : d.interval = c.interval) : d.IsSound :=
  ⟨hs, hinterval ▸ h.one_le⟩

theorem isSound_ofSettings (h : s.validate = .ok ()) : (ofSettings s).IsSound := by
  obtain ⟨-, -, hoften, -⟩ := Settings.validate_eq_ok.1 h
  have hn : s.howOften ≠ 0 := bne_iff_ne.1 (Settings.demand_eq_ok.1 hoften)
  exact ⟨h, Binary64.one_le_ofNat fun hzero => hn (UInt32.toNat_inj.1 hzero)⟩

/-- Whatever is done with a heuristic keeps its settings valid and the number of nodes from run to run
at one or more. -/
theorem IsSound.after (h : c.IsSound) (u : Use Binary64) : (c.after u).IsSound := by
  cases u with
  | set e =>
    refine ⟨validate_change h.valid e, ?_⟩
    show 1 ≤ (c.change e).interval
    rcases interval_change c e with hsame | ⟨n, hn, hnew⟩
    · rw [hsame]
      exact h.one_le
    · rw [hnew]
      exact Binary64.one_le_ofNat fun hzero => hn (UInt32.toNat_inj.1 hzero)
  | shouldRun n =>
    refine h.of_interval_eq ?_ ?_
    · show (c.shouldRun n).2.settings.validate = .ok ()
      rw [settings_shouldRun]
      exact h.valid
    · show (c.shouldRun n).2.interval = c.interval
      unfold shouldRun
      split <;> rfl
  | recordRun n found =>
    refine ⟨h.valid, ?_⟩
    show 1 ≤ if found then c.interval else c.interval * (1 + c.settings.decayFactor)
    split
    · exact h.one_le
    · -- one plus the growth is one or more, and a product by it is no less
      exact Binary64.le_trans h.one_le
        (Binary64.le_mul h.one_le (Binary64.one_le_one_add (decayFactor_nonneg h.valid)))
  | draw | attach | addSubSolveNodes => exact h.of_interval_eq h.valid rfl
  | disable => exact h.of_interval_eq h.valid rfl

theorem IsSound.afterAll (h : c.IsSound) (history : List (Use Binary64)) :
    (c.afterAll history).IsSound := by
  induction history generalizing c with
  | nil => exact h
  | cons u history ih => exact ih (h.after u)

theorem IsNew.isSound (h : c.IsNew) : c.IsSound := by
  cases h with
  | ofSettings h =>
    obtain ⟨_, hvalid, hc⟩ := Checked.bind_eq_ok.1 h
    cases hc
    exact isSound_ofSettings hvalid
  | named name =>
    -- the check does not read the name
    have hvalid : (Settings.standard : Settings Binary64).validate = .ok () := by decide +kernel
    exact isSound_ofSettings (s := .named name) hvalid

/-- After any history, the settings of a heuristic are valid, the number of nodes from run to run is
one or more, though it may be infinite, nodes are counted modulo one or more, and a change that is
refused leaves no trace. -/
theorem sound_of_isNew (h : c.IsNew) (history : List (Use Binary64)) :
    (c.afterAll history).settings.validate = .ok () ∧
      1 ≤ (c.afterAll history).interval ∧ (c.afterAll history).interval.isNaN = false ∧
      0 < (c.afterAll history).stride ∧
      ∀ e err, (c.afterAll history).change? e = .error err →
        (c.afterAll history).after (.set e) = c.afterAll history := by
  have hsound := h.isSound.afterAll history
  obtain ⟨hnumber, -⟩ := Binary64.one_le_iff.1 hsound.one_le
  exact ⟨hsound.valid, hsound.one_le, hnumber, stride_pos hsound.one_le,
    fun _ _ herror => change_of_error herror⟩

/-- The growth becomes infinite, and there is a run that finds nothing. -/
def endless : List (Use Binary64) :=
  [.set (.decayFactor Scalar.infinity), .recordRun (rootAgain 0) false]

/-- After them the number of nodes from run to run is infinite, and still valid. A frequency of zero is
refused. -/
theorem sound_of_isNew_endless : (ofSettings quarter).IsNew ∧
    (∃ err, ((ofSettings quarter).afterAll endless).change? (.howOften 0) = .error err ∧
      ((ofSettings quarter).afterAll endless).after (.set (.howOften 0)) =
        (ofSettings quarter).afterAll endless) ∧
    1 ≤ ((ofSettings quarter).afterAll endless).interval ∧
    ((ofSettings quarter).afterAll endless).interval.isInfinite = true ∧
    0 < ((ofSettings quarter).afterAll endless).stride := by
  have hnew : (ofSettings quarter).IsNew := by
    refine .ofSettings (s := quarter) ?_
    have hvalid : quarter.validate = .ok () := by decide +kernel
    unfold ofSettings?
    rw [hvalid]
    rfl
  obtain ⟨-, hle, -, hpos, hrefused⟩ := sound_of_isNew hnew endless
  exact ⟨hnew, ⟨_, rfl, hrefused _ _ rfl⟩, hle, by decide +kernel, hpos⟩

end Core

end PrimalHeuristics
