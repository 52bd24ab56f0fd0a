import PrimalHeuristics.Proofs.Feasibility
import PrimalHeuristics.SubProblem.Branching

/-!
# What a branch can be

On vectors of the right lengths the choice of a branch never breaks a rule, and it is one of four:
a split around a fractional value, a move of a column of a violated row, or none because all rows
are satisfied or because no column of a violated row can move.

* `Branch.CanSplit`, `Branch.CanMove`: the columns that may be chosen;
* `Branch.Choice`: the four cases, and `Branch.choose_choice`: there is no other.
-/

namespace PrimalHeuristics

variable {α : Type} [Scalar α]

namespace Scalar

variable {β : Type}

theorem foldl_mem {f : β → β → β} (hf : ∀ c d, f c d = c ∨ f c d = d) (l : List β) (b : β) :
    l.foldl f b ∈ b :: l := by
  induction l generalizing b with
  | nil => simp
  | cons d l ih =>
    rw [List.foldl_cons]
    rcases hf b d with h | h
    · rw [h]
      rcases List.mem_cons.1 (ih b) with h | h <;> simp [h]
    · rw [h]
      exact List.mem_cons_of_mem _ (ih d)

theorem mem_of_firstLeast {key : β → α} {l : List β} {b : β} (h : firstLeast key l = some b) :
    b ∈ l := by
  cases l with
  | nil => contradiction
  | cons c l =>
    cases h
    exact foldl_mem (fun c d => by split <;> simp) l c

theorem firstLeast_eq_none {key : β → α} {l : List β} : firstLeast key l = none ↔ l = [] := by
  cases l <;> simp [firstLeast]

section Least

variable {key : β → α} (hself : ∀ x : α, totalCompare x x ≠ .lt)
  (htrans : ∀ x c d : α, totalCompare d c = .lt → totalCompare x c ≠ .lt → totalCompare x d ≠ .lt)

include hself htrans

/-- What is not below the least entry so far, or is still to come, is not below the last one. -/
theorem not_lt_foldl {x : β} (l : List β) (c : β)
    (hc : totalCompare (key x) (key c) ≠ .lt ∨ x ∈ l) :
    totalCompare (key x) (key (l.foldl (fun c d =>
      if totalCompare (key d) (key c) = .lt then d else c) c)) ≠ .lt := by
  induction l generalizing c with
  | nil => exact hc.resolve_right List.not_mem_nil
  | cons d l ih =>
    rw [List.mem_cons] at hc
    rw [List.foldl_cons]
    by_cases hd : totalCompare (key d) (key c) = .lt
    · rw [if_pos hd]
      apply ih d
      rcases hc with hc | rfl | hc
      · exact .inl (htrans _ _ _ hd hc)
      · exact .inl (hself _)
      · exact .inr hc
    · rw [if_neg hd]
      apply ih c
      rcases hc with hc | rfl | hc
      · exact .inl hc
      · exact .inl hd
      · exact .inr hc

/-- No key of a list is below that of the first least entry, if the order of all values is one. -/
theorem not_lt_firstLeast {l : List β} {m x : β} (h : firstLeast key l = some m) (hx : x ∈ l) :
    totalCompare (key x) (key m) ≠ .lt := by
  cases l with
  | nil => contradiction
  | cons c l =>
    cases h
    apply not_lt_foldl hself htrans l c
    rcases List.mem_cons.1 hx with rfl | hx
    · exact .inl (hself _)
    · exact .inr hx

end Least

theorem mem_of_lastGreatest {key : β → α} {l : List β} {b : β}
    (h : lastGreatest key l = some b) : b ∈ l := by
  cases l with
  | nil => contradiction
  | cons c l =>
    cases h
    exact foldl_mem (fun c d => by split <;> simp) l c

theorem lastGreatest_eq_none {key : β → α} {l : List β} :
    lastGreatest key l = none ↔ l = [] := by
  cases l <;> simp [lastGreatest]

end Scalar

namespace Branch

variable (s : SubProblem α) (x : Array α) (b : Box α)

/-! ### Columns that may be chosen -/

/-- The fractional part of the value of a column. -/
def fraction (j : Nat) : α :=
  x.getD j 0 - Scalar.floor (x.getD j 0)

/-- An integer column that is left a choice, and whose value is not whole. -/
def CanSplit (j : Nat) : Prop :=
  s.isInteger j = true ∧ b.lower.getD j 0 < b.upper.getD j 0 ∧
    Scalar.intTol < fraction x j ∧ fraction x j < 1 - Scalar.intTol

instance (j : Nat) : Decidable (CanSplit s x b j) :=
  inferInstanceAs (Decidable (_ ∧ _ ∧ _ ∧ _))

/-- An integer column that can be moved in the wanted direction. -/
def CanMove (increase : Bool) (e : Nat × α) : Prop :=
  s.isInteger e.1 = true ∧
    if goesUp increase e.2 = true then x.getD e.1 0 < b.upper.getD e.1 0 - Scalar.intTol
    else b.lower.getD e.1 0 + Scalar.intTol < x.getD e.1 0

instance (increase : Bool) (e : Nat × α) : Decidable (CanMove s x b increase e) :=
  inferInstanceAs (Decidable (s.isInteger e.1 = true ∧
    if goesUp increase e.2 = true then x.getD e.1 0 < b.upper.getD e.1 0 - Scalar.intTol
    else b.lower.getD e.1 0 + Scalar.intTol < x.getD e.1 0))

/-- The activity of a row has to increase. -/
def increases (r : Nat) : Bool :=
  decide ((s.matrix.row r).dot x < (s.boundsOf r).lower)

/-- The amount by which a row is violated. -/
def violationOf (r : Nat) : α :=
  (s.boundsOf r).violation ((s.matrix.row r).dot x)

/-- The split around the value of a column. -/
def around (j : Nat) : Branch α :=
  ⟨j, Scalar.floor (x.getD j 0), Scalar.ceil (x.getD j 0), Scalar.decimal 5 1 ≤ fraction x j⟩

/-- The split that moves the column of an entry by one. -/
def move (increase : Bool) (e : Nat × α) : Branch α :=
  let v := Scalar.round (x.getD e.1 0)
  if goesUp increase e.2 then ⟨e.1, v, v + 1, true⟩ else ⟨e.1, v - 1, v, false⟩

/-- What the choice of a branch can be. -/
inductive Choice : Option (Branch α) → Prop where
  | split {j : Nat} (hj : j < s.numCols) (h : CanSplit s x b j) : Choice (some (around x j))
  | move {r : Nat} {e : Nat × α} (whole : ∀ j < s.numCols, ¬ CanSplit s x b j)
      (hr : r < s.numRows) (violated : Scalar.feasTol < violationOf s x r)
      (he : e ∈ s.matrix.row r) (h : CanMove s x b (increases s x r) e) :
      Choice (some (move x (increases s x r) e))
  | satisfied (whole : ∀ j < s.numCols, ¬ CanSplit s x b j)
      (h : ∀ r < s.numRows, ¬ Scalar.feasTol < violationOf s x r) : Choice none
  | stuck {r : Nat} (whole : ∀ j < s.numCols, ¬ CanSplit s x b j) (hr : r < s.numRows)
      (violated : Scalar.feasTol < violationOf s x r)
      (h : ∀ e ∈ s.matrix.row r, ¬ CanMove s x b (increases s x r) e) : Choice none

/-! ### The choice on vectors of the right lengths -/

variable {s x b} (hx : x.size = s.numCols) (hb : b.HasSize s.numCols)

include hx hb

theorem fractional?_eq {j : Nat} (hj : j < s.numCols) :
    fractional? s x b j = .ok
      (if CanSplit s x b j then some (j, x.getD j 0, fraction x j) else none) := by
  unfold fractional?
  rw [Checked.read_eq_getD (hb.1 ▸ hj) 0, Checked.read_eq_getD (hb.2 ▸ hj) 0,
    Checked.read_eq_getD (hx ▸ hj) 0]
  simp only [Checked.ok_bind, Checked.pure_eq]
  by_cases h : CanSplit s x b j
  · obtain ⟨hi, hlt, hf⟩ := id h
    rw [if_pos h, if_pos hi, if_pos hlt]
    exact if_pos hf
  · rw [if_neg h]
    by_cases hi : s.isInteger j = true
    · rw [if_pos hi]
      by_cases hlt : b.lower.getD j 0 < b.upper.getD j 0
      · rw [if_pos hlt]
        exact if_neg fun hf => h ⟨hi, hlt, hf⟩
      · rw [if_neg hlt]
    · rw [if_neg hi]

theorem ofFraction?_eq : ∃ o, ofFraction? s x b = .ok o ∧
    ((∃ j < s.numCols, CanSplit s x b j ∧ o = some (around x j)) ∨
      (o = none ∧ ∀ j < s.numCols, ¬ CanSplit s x b j)) := by
  unfold ofFraction?
  rw [Checked.filterMapM_eq fun j hj => fractional?_eq hx hb (List.mem_range.1 hj)]
  simp only [Checked.ok_bind, Checked.pure_eq]
  refine ⟨_, rfl, ?_⟩
  cases hleast : Scalar.firstLeast (fun c : Nat × α × α =>
      Scalar.abs (c.2.2 - Scalar.decimal 5 1)) ((List.range s.numCols).filterMap fun j =>
        if CanSplit s x b j then some (j, x.getD j 0, fraction x j) else none) with
  | none =>
    refine .inr ⟨rfl, fun j hj h => ?_⟩
    have := List.filterMap_eq_nil_iff.1 (Scalar.firstLeast_eq_none.1 hleast) j
      (List.mem_range.2 hj)
    rw [if_pos h] at this
    contradiction
  | some c =>
    obtain ⟨j, hj, hc⟩ := List.mem_filterMap.1 (Scalar.mem_of_firstLeast hleast)
    split at hc
    · cases hc
      exact .inl ⟨j, List.mem_range.1 hj, ‹_›, rfl⟩
    · contradiction

theorem canMove_eq {increase : Bool} {e : Nat × α} (he : e.1 < s.numCols) :
    canMove s x b increase e = .ok (decide (CanMove s x b increase e)) := by
  unfold canMove
  rw [Checked.read_eq_getD (hx ▸ he) 0, Checked.read_eq_getD (hb.2 ▸ he) 0,
    Checked.read_eq_getD (hb.1 ▸ he) 0]
  simp only [Checked.ok_bind, Checked.pure_eq]
  by_cases hi : s.isInteger e.1 = true
  · rw [if_pos hi]
    by_cases hu : goesUp increase e.2 = true
    · rw [if_pos hu]
      simp [CanMove, hi, hu]
    · rw [if_neg hu]
      simp [CanMove, hi, hu]
  · rw [if_neg hi]
    simp [CanMove, hi]

/-- The choice among the columns of the first violated row, if no column can be split. -/
theorem ofViolation?_eq (hwhole : ∀ j < s.numCols, ¬ CanSplit s x b j) :
    ∃ o, ofViolation? s x b = .ok o ∧ Choice s x b o := by
  have hdot : ∀ r < s.numRows, (s.matrix.rows.map (·.dot x)).getD r 0 = (s.matrix.row r).dot x :=
    fun r hr => Matrix.getD_map_dot (hr.trans_eq s.numRows_matrix.symm) x
  unfold ofViolation?
  rw [Matrix.activities_eq (by rw [s.numCols_matrix, hx, SubProblem.numCols])]
  simp only [Checked.ok_bind, Checked.pure_eq]
  split
  · rename_i hfind
    refine ⟨none, rfl, .satisfied hwhole fun r hr => ?_⟩
    have := List.find?_eq_none.1 hfind r (List.mem_range.2 hr)
    rwa [hdot r hr, decide_eq_true_iff] at this
  · rename_i r hfind
    have hr : r < s.numRows := List.mem_range.1 (List.mem_of_find?_eq_some hfind)
    have hviolated := List.find?_some hfind
    rw [hdot r hr, decide_eq_true_iff] at hviolated
    rw [hdot r hr, Checked.filterM_eq (fun e he => canMove_eq hx hb
      ((s.matrix.ordered_row r).2 e he |>.trans_eq s.numCols_matrix))]
    simp only [Checked.ok_bind]
    split
    · rename_i hnone
      refine ⟨none, rfl, .stuck hwhole hr hviolated fun e he => ?_⟩
      have := List.filter_eq_nil_iff.1 (Scalar.lastGreatest_eq_none.1 hnone) e he
      rwa [decide_eq_true_iff] at this
    · rename_i j a hgreatest
      obtain ⟨he, hmove⟩ := List.mem_filter.1 (Scalar.mem_of_lastGreatest hgreatest)
      have hj : j < s.numCols :=
        ((s.matrix.ordered_row r).2 (j, a) he).trans_eq s.numCols_matrix
      refine ⟨_, ?_, .move hwhole hr hviolated he (of_decide_eq_true hmove)⟩
      rw [Checked.read_eq_getD (hx ▸ hj) 0]
      exact (apply_ite (fun k => Except.ok (some k)) _ _ _).symm

/-- On vectors of the right lengths the choice of a branch never breaks a rule. -/
theorem choose_choice : ∃ o, choose s x b = .ok o ∧ Choice s x b o := by
  obtain ⟨o, ho, ⟨j, hj, hsplit, rfl⟩ | ⟨rfl, hwhole⟩⟩ := ofFraction?_eq hx hb
  · refine ⟨_, ?_, .split hj hsplit⟩
    unfold choose
    rw [ho]
    rfl
  · obtain ⟨o, ho', hchoice⟩ := ofViolation?_eq hx hb hwhole
    refine ⟨o, ?_, hchoice⟩
    unfold choose
    rw [ho]
    exact ho'

end Branch

end PrimalHeuristics
