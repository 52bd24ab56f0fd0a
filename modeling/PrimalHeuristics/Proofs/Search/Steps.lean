import PrimalHeuristics.Proofs.Propagation.Runs
import PrimalHeuristics.Proofs.Search.Branches
import PrimalHeuristics.Proofs.Search.Queue
import PrimalHeuristics.SubProblem.Search

/-!
# The steps of a search with propagation

A search that bounds its nodes by propagation never fails. Each of its nodes is pruned, infeasible,
too costly, accepted, dropped or branched, and this module says what each of these does to the
state; the invariants of a search are proved from these six cases.

* `Search.Step`: what becomes of one node, and `Search.step_eq`: there is nothing else;
* `Search.loop_add`: a search with a greater cap goes on;
* `Search.loop_rule`: an invariant of one node is one of a whole search;
* `Search.loop_total`: a search with propagation never fails.
-/

namespace PrimalHeuristics

namespace Search

variable {α : Type} [Scalar α]

/-! ### Children -/

/-- A child leaves its column no value. -/
def IsCrossed (column : Nat) (b : Box α) : Prop :=
  b.upper.getD column 0 + Scalar.feasTol < b.lower.getD column 0

instance (column : Nat) (b : Box α) : Decidable (IsCrossed column b) :=
  inferInstanceAs (Decidable (_ < _))

/-- Adds a child, unless its column has no value left. -/
def adopt (t : Search α) (column : Nat) (child : OpenNode α) : Search α :=
  if IsCrossed column child.box then t
  else { t with queue := t.queue.push { child with id := t.nextId }, nextId := t.nextId + 1 }

theorem addChild_eq {t : Search α} {column n : Nat} {child : OpenNode α}
    (hb : child.box.HasSize n) (hc : column < n) :
    t.addChild column child = .ok (t.adopt column child) := by
  unfold addChild adopt IsCrossed
  rw [Checked.read_eq_getD (hb.1 ▸ hc) 0, Checked.read_eq_getD (hb.2 ▸ hc) 0]
  exact (apply_ite Except.ok _ _ _).symm

@[simp] theorem value_adopt (t : Search α) (column : Nat) (child : OpenNode α) :
    (t.adopt column child).value = t.value := by
  unfold adopt; split <;> rfl

@[simp] theorem incumbent_adopt (t : Search α) (column : Nat) (child : OpenNode α) :
    (t.adopt column child).incumbent = t.incumbent := by
  unfold adopt; split <;> rfl

@[simp] theorem nodes_adopt (t : Search α) (column : Nat) (child : OpenNode α) :
    (t.adopt column child).nodes = t.nodes := by
  unfold adopt; split <;> rfl

theorem mem_adopt {t : Search α} {column : Nat} {child m : OpenNode α} :
    m ∈ (t.adopt column child).queue.toList ↔
      (¬ IsCrossed column child.box ∧ m = { child with id := t.nextId }) ∨
        m ∈ t.queue.toList := by
  unfold adopt
  split <;> simp [*]

/-- The box of the child that goes down. -/
def downBox (b : Box α) (branch : Branch α) : Box α :=
  ⟨b.lower, b.upper.setIfInBounds branch.column branch.downUpper⟩

/-- The box of the child that goes up. -/
def upBox (b : Box α) (branch : Branch α) : Box α :=
  ⟨b.lower.setIfInBounds branch.column branch.upLower, b.upper⟩

/-- The state after a node was split. -/
def branched (t : Search α) (n : OpenNode α) (objective : α) (b : Box α) (branch : Branch α) :
    Search α :=
  let down : OpenNode α := ⟨0, n.depth + 1, objective, downBox b branch⟩
  let up : OpenNode α := ⟨0, n.depth + 1, objective, upBox b branch⟩
  if branch.upFirst then (t.adopt branch.column down).adopt branch.column up
  else (t.adopt branch.column up).adopt branch.column down

omit [Scalar α] in
theorem hasSize_downBox {n : Nat} {b : Box α} (hb : b.HasSize n) (branch : Branch α) :
    (downBox b branch).HasSize n := by
  simpa [Box.HasSize, downBox] using hb

omit [Scalar α] in
theorem hasSize_upBox {n : Nat} {b : Box α} (hb : b.HasSize n) (branch : Branch α) :
    (upBox b branch).HasSize n := by
  simpa [Box.HasSize, upBox] using hb

theorem split_eq {t : Search α} {n : OpenNode α} {objective : α} {m : Nat} {b : Box α}
    {branch : Branch α} (hb : b.HasSize m) (hc : branch.column < m) :
    t.split n objective b branch = .ok (t.branched n objective b branch) := by
  unfold split branched
  by_cases hup : branch.upFirst = true
  · rw [if_pos hup, if_pos hup, addChild_eq (hasSize_downBox hb branch) hc, Checked.ok_bind]
    exact addChild_eq (hasSize_upBox hb branch) hc
  · rw [if_neg hup, if_neg hup, addChild_eq (hasSize_upBox hb branch) hc, Checked.ok_bind]
    exact addChild_eq (hasSize_downBox hb branch) hc

@[simp] theorem value_branched (t : Search α) (n : OpenNode α) (objective : α) (b : Box α)
    (branch : Branch α) : (t.branched n objective b branch).value = t.value := by
  unfold branched; split <;> simp

@[simp] theorem incumbent_branched (t : Search α) (n : OpenNode α) (objective : α) (b : Box α)
    (branch : Branch α) : (t.branched n objective b branch).incumbent = t.incumbent := by
  unfold branched; split <;> simp

@[simp] theorem nodes_branched (t : Search α) (n : OpenNode α) (objective : α) (b : Box α)
    (branch : Branch α) : (t.branched n objective b branch).nodes = t.nodes := by
  unfold branched; split <;> simp

/-- An open node after a split was open before, or it has the box of a child that leaves the column a
value, and the bound that its parent passed on. -/
theorem child_of_mem_branched {t : Search α} {n m : OpenNode α} {objective : α} {b : Box α}
    {branch : Branch α} (h : m ∈ (t.branched n objective b branch).queue.toList) :
    m ∈ t.queue.toList ∨ (¬ IsCrossed branch.column m.box ∧ m.bound = objective ∧
      (m.box = downBox b branch ∨ m.box = upBox b branch)) := by
  unfold branched at h
  split at h <;> rw [mem_adopt, mem_adopt] at h
  · rcases h with ⟨hopen, rfl⟩ | ⟨hopen, rfl⟩ | h
    · exact .inr ⟨hopen, rfl, .inr rfl⟩
    · exact .inr ⟨hopen, rfl, .inl rfl⟩
    · exact .inl h
  · rcases h with ⟨hopen, rfl⟩ | ⟨hopen, rfl⟩ | h
    · exact .inr ⟨hopen, rfl, .inl rfl⟩
    · exact .inr ⟨hopen, rfl, .inr rfl⟩
    · exact .inl h

theorem of_mem_branched {t : Search α} {n m : OpenNode α} {objective : α} {b : Box α}
    {branch : Branch α} (h : m ∈ (t.branched n objective b branch).queue.toList) :
    m ∈ t.queue.toList ∨
      (m.bound = objective ∧ (m.box = downBox b branch ∨ m.box = upBox b branch)) :=
  (child_of_mem_branched h).imp_right And.right

/-- Nodes stay open when another one is split. -/
theorem mem_branched_of_mem {t : Search α} {n m : OpenNode α} {objective : α} {b : Box α}
    {branch : Branch α} (h : m ∈ t.queue.toList) :
    m ∈ (t.branched n objective b branch).queue.toList := by
  unfold branched
  split <;> rw [mem_adopt, mem_adopt] <;> exact .inr (.inr h)

/-- Both children of a split are open, unless they leave the column no value. -/
theorem exists_child {t : Search α} {n : OpenNode α} {objective : α} {b c : Box α}
    {branch : Branch α} (hc : c = downBox b branch ∨ c = upBox b branch)
    (h : ¬ IsCrossed branch.column c) :
    ∃ m ∈ (t.branched n objective b branch).queue.toList, m.box = c := by
  have hnew : ∀ (u : Search α) (d : Nat), ∃ m ∈ (u.adopt branch.column
      ⟨0, d, objective, c⟩).queue.toList, m.box = c := fun u d =>
    ⟨_, mem_adopt.2 (.inl ⟨h, rfl⟩), rfl⟩
  have hold : ∀ (u : Search α) (child : OpenNode α), (∃ m ∈ u.queue.toList, m.box = c) →
      ∃ m ∈ (u.adopt branch.column child).queue.toList, m.box = c :=
    fun u child ⟨m, hm, hmc⟩ => ⟨m, mem_adopt.2 (.inr hm), hmc⟩
  unfold branched
  rcases hc with rfl | rfl <;> split
  · exact hold _ _ (hnew _ _)
  · exact hnew _ _
  · exact hnew _ _
  · exact hold _ _ (hnew _ _)

/-! ### One node -/

/-- The same state, with one more node. -/
def counted (t : Search α) : Search α :=
  { t with nodes := t.nodes + 1 }

/-- The state after a point was accepted. -/
def accept (t : Search α) (s : SubProblem α) (x : Array α) : Search α :=
  { t with value := s.objectiveValue x, incumbent := some x, queue := t.queue.nowHasBound }

/-- The propagation leaves the box `c` of a node, and its corner is not too costly. -/
structure Survives (s : SubProblem α) (passes : Nat) (t : Search α) (n : OpenNode α)
    (c : Box α) : Prop where
  isOpen : t.isPruned n.bound = false
  hasSize : c.HasSize s.numCols
  bound_eq : Propagation.bound passes s n.box = .ok (.bounded (s.cornerBound c) (s.corner c), c)
  promising : t.isPruned (s.cornerBound c) = false

/-- What becomes of a node. -/
inductive Step (s : SubProblem α) (passes : Nat) (t : Search α) (n : OpenNode α) :
    Search α → Prop where
  | pruned (h : t.isPruned n.bound = true) : Step s passes t n t.counted
  | infeasible {c : Box α} (h : Propagation.bound passes s n.box = .ok (.infeasible, c)) :
      Step s passes t n t.counted
  | costly {c : Box α} (hc : c.HasSize s.numCols)
      (bound_eq : Propagation.bound passes s n.box =
        .ok (.bounded (s.cornerBound c) (s.corner c), c))
      (h : t.isPruned (s.cornerBound c) = true) : Step s passes t n t.counted
  | accepted {c : Box α} (hc : Survives s passes t n c) (h : s.IsFeasible (s.corner c) c) :
      Step s passes t n (t.counted.accept s (s.corner c))
  | dropped {c : Box α} (hc : Survives s passes t n c) (h : ¬ s.IsFeasible (s.corner c) c)
      (choice : Branch.Choice s (s.corner c) c none) : Step s passes t n t.counted
  | branched {c : Box α} {branch : Branch α} (hc : Survives s passes t n c)
      (h : ¬ s.IsFeasible (s.corner c) c)
      (choice : Branch.Choice s (s.corner c) c (some branch)) :
      Step s passes t n (t.counted.branched n (s.cornerBound c) c branch)

variable {s : SubProblem α} {passes : Nat}

/-- The column of a branch is one of the sub-problem. -/
theorem column_lt {x : Array α} {b : Box α} {branch : Branch α}
    (h : Branch.Choice s x b (some branch)) : branch.column < s.numCols := by
  cases h with
  | split hj _ => exact hj
  | @move r e _ _ _ he _ =>
    have := SubProblem.lt_of_mem_row he
    unfold Branch.move
    split <;> exact this

/-- A node that the propagation leaves a corner is too costly, accepted, dropped or branched. -/
theorem absorb_eq {t : Search α} {n : OpenNode α} {c : Box α} (isOpen : t.isPruned n.bound = false)
    (hc : c.HasSize s.numCols) (bound_eq : Propagation.bound passes s n.box =
      .ok (.bounded (s.cornerBound c) (s.corner c), c)) :
    ∃ t', t.counted.absorb s n (.bounded (s.cornerBound c) (s.corner c)) c = .ok t' ∧
      Step s passes t n t' := by
  unfold absorb
  cases hw : t.isPruned (s.cornerBound c) with
  | true => exact ⟨t.counted, if_pos hw, .costly hc bound_eq hw⟩
  | false =>
    have hsurvives : Survives s passes t n c := ⟨isOpen, hc, bound_eq, hw⟩
    have hw : ¬ t.counted.isPruned (s.cornerBound c) = true := by
      rw [show t.counted.isPruned (s.cornerBound c) = false from hw]
      exact Bool.false_ne_true
    simp only [if_neg hw]
    rw [SubProblem.isFeasible_eq (s.size_corner c) hc, Checked.ok_bind]
    by_cases hf : s.IsFeasible (s.corner c) c
    · exact ⟨_, by rw [if_pos (decide_eq_true hf)]; rfl, .accepted hsurvives hf⟩
    · rw [if_neg (by simpa using hf)]
      obtain ⟨o, ho, hchoice⟩ := Branch.choose_choice (s.size_corner c) hc
      rw [ho, Checked.ok_bind]
      cases o with
      | none => exact ⟨t.counted, rfl, .dropped hsurvives hf hchoice⟩
      | some branch =>
        exact ⟨_, split_eq hc (column_lt hchoice), .branched hsurvives hf hchoice⟩

/-- A node with a box of the right size never makes a search fail. -/
theorem step_eq (passes : Nat) (t : Search α) {n : OpenNode α} (hn : n.box.HasSize s.numCols) :
    ∃ t', step s (.activity passes) t n () = (.ok t', ()) ∧ Step s passes t n t' := by
  unfold step
  cases hp : t.isPruned n.bound with
  | true => exact ⟨t.counted, if_pos hp, .pruned hp⟩
  | false =>
    have hopen : ¬ t.counted.isPruned n.bound = true := by
      rw [show t.counted.isPruned n.bound = false from hp]
      exact Bool.false_ne_true
    obtain ⟨c, hc, h | h⟩ := Propagation.bound_hasSize passes hn
    · refine ⟨t.counted, (if_neg hopen).trans ?_, .infeasible h⟩
      simp only [Relaxation.activity, h]
      rfl
    · obtain ⟨t', ht', hs⟩ := absorb_eq hp hc h
      refine ⟨t', (if_neg hopen).trans ?_, hs⟩
      simp only [Relaxation.activity, h]
      exact congrArg (fun a => (Failure.ofChecked a, ())) ht'

/-! ### Any relaxation -/

section Any

variable {σ : Type} {r : Relaxation α σ} {t u : Search α} {n : OpenNode α} {q : NodeQueue α}
  {a b : σ}

theorem loop_of_pop_eq_none (h : t.queue.pop = none) (k : Nat) : loop s r k t a = (.ok t, a) := by
  cases k with
  | zero => rfl
  | succ k =>
    unfold loop
    rw [h]

theorem loop_succ_of_ok (hpop : t.queue.pop = some (n, q))
    (hstep : step s r { t with queue := q } n a = (.ok u, b)) (k : Nat) :
    loop s r (k + 1) t a = loop s r k u b := by
  rw [loop]
  simp only [hpop, hstep]

theorem loop_succ_of_error {e : Failure α} (hpop : t.queue.pop = some (n, q))
    (hstep : step s r { t with queue := q } n a = (.error e, b)) (k : Nat) :
    loop s r (k + 1) t a = (.error e, b) := by
  rw [loop]
  simp only [hpop, hstep]

/-- A search with a greater cap goes on where the other one ends, unless it failed. -/
theorem loop_add (k d : Nat) (t : Search α) (a : σ) :
    loop s r (k + d) t a =
      match loop s r k t a with
      | (.ok u, b) => loop s r d u b
      | (.error e, b) => (.error e, b) := by
  induction k generalizing t a with
  | zero =>
    rw [Nat.zero_add]
    rfl
  | succ k ih =>
    rw [Nat.add_right_comm]
    cases hpop : t.queue.pop with
    | none => simp only [loop_of_pop_eq_none hpop]
    | some p =>
      obtain ⟨n, q⟩ := p
      cases hstep : step s r { t with queue := q } n a with
      | mk e c =>
        cases e with
        | error e => simp only [loop_succ_of_error hpop hstep]
        | ok v => simp only [loop_succ_of_ok hpop hstep, ih]

end Any

/-! ### Whole searches -/

/-- All open nodes have boxes of the right size. -/
def Fits (s : SubProblem α) (t : Search α) : Prop :=
  ∀ n ∈ t.queue.toList, n.box.HasSize s.numCols

theorem fits_start (s : SubProblem α) (cutoff : α) : (start s cutoff).Fits s := by
  intro n hn
  rw [start, NodeQueue.mem_push] at hn
  rcases hn with rfl | hn
  · exact s.hasSize_box
  · contradiction

theorem Step.fits {t t' : Search α} {n : OpenNode α} (h : Step s passes t n t')
    (ht : t.Fits s) : t'.Fits s := by
  cases h with
  | pruned | infeasible | costly | dropped => exact ht
  | accepted => exact fun m hm => ht m (NodeQueue.mem_nowHasBound.1 hm)
  | branched hc =>
    intro m hm
    rcases of_mem_branched hm with hm | ⟨-, hm | hm⟩
    · exact ht m hm
    · exact hm ▸ hasSize_downBox hc.hasSize _
    · exact hm ▸ hasSize_upBox hc.hasSize _

/-- What every node preserves, a search preserves. -/
theorem loop_rule {P : Search α → Prop} (hP : ∀ t, P t → t.Fits s)
    (hstep : ∀ t n q t', P t → t.queue.pop = some (n, q) →
      Step s passes { t with queue := q } n t' → P t') (cap : Nat) {t : Search α} (ht : P t) :
    ∃ t', loop s (.activity passes) cap t () = (.ok t', ()) ∧ P t' := by
  induction cap generalizing t with
  | zero => exact ⟨t, rfl, ht⟩
  | succ cap ih =>
    unfold loop
    cases hpop : t.queue.pop with
    | none => exact ⟨t, rfl, ht⟩
    | some p =>
      obtain ⟨n, q⟩ := p
      have hn := hP t ht n ((NodeQueue.mem_of_pop hpop).2 (.inl rfl))
      obtain ⟨t', ht', hs⟩ := step_eq passes { t with queue := q } hn
      simp only [ht']
      exact ih (hstep t n q t' ht hpop hs)

theorem fits_of_pop {t : Search α} {n : OpenNode α} {q : NodeQueue α} (ht : t.Fits s)
    (h : t.queue.pop = some (n, q)) : ({ t with queue := q } : Search α).Fits s :=
  fun m hm => ht m ((NodeQueue.mem_of_pop h).2 (.inr hm))

/-- The state after so many nodes exists. -/
theorem loop_total (passes cap : Nat) {t : Search α} (ht : t.Fits s) :
    ∃ t', loop s (.activity passes) cap t () = (.ok t', ()) ∧ t'.Fits s :=
  loop_rule (fun _ h => h) (fun _ _ _ _ ht hpop hs => hs.fits (fits_of_pop ht hpop)) cap ht

end Search

end PrimalHeuristics
