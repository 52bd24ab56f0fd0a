import PrimalHeuristics.Proofs.Binary64.Sums
import PrimalHeuristics.Proofs.Search.Steps

/-!
# The cap of a search

A search takes nodes one after another, whatever bounds them, and a greater cap only makes it go on.
It stops early if no node is open. Once no open node promises anything better it may go on, but all
that is left is dropped unseen: nothing is bounded any more, and the result stays. That it is so far
is seen from the least bound of the open nodes, provided that all bounds are numbers.

* `Search.Opens`, `Search.step_cases`: what a node leaves behind, for any relaxation;
* `Search.isFinished_iff`, `Search.loop_of_allPruned`: a search that is finished, and what more
  nodes make of it;
* `Search.Alike`, `Search.run_alike`: searches whose relaxations answer alike;
* `Search.calls`, `Search.calls_prefix`: the calls of the relaxation;
* `Search.keepsCap`: what the cap means for a search.
-/

namespace PrimalHeuristics

namespace Binary64

/-- The least of several numbers is not above any of them. -/
theorem firstLeast_le {l : List Binary64} {m x : Binary64} (h : Scalar.firstLeast id l = some m)
    (hl : ∀ y ∈ l, y.isNaN = false) (hx : x ∈ l) : m ≤ x := by
  have hm : m ∈ l := Scalar.mem_of_firstLeast h
  refine (le_iff_place (hl m hm) (hl x hx)).2 (place_le_of_totalCompare ?_)
  refine Scalar.not_lt_firstLeast (fun y => ?_) (fun y c d hd hy => ?_) h hx
  · exact totalCompare_ne_lt.2 (Nat.le_refl _)
  · have hlt : ¬ c.orderWord.toNat ≤ d.orderWord.toNat :=
      fun hle => totalCompare_ne_lt.2 hle hd
    have hle : c.orderWord.toNat ≤ y.orderWord.toNat := totalCompare_ne_lt.1 hy
    exact totalCompare_ne_lt.2 (by omega)

end Binary64

namespace Search

section Loop

variable {α σ : Type} [Scalar α] {s : SubProblem α} {r : Relaxation α σ} {t t' u : Search α}
  {n : OpenNode α} {q : NodeQueue α} {a b : σ} {k : Nat}

/-! ### Searches that do not fail -/

/-- A search that does not fail ends with no node open, or takes its next node and goes on. -/
theorem loop_succ_cases (h : loop s r (k + 1) t a = (.ok u, b)) :
    (t.queue.pop = none ∧ u = t) ∨
      ∃ n q v c, t.queue.pop = some (n, q) ∧ step s r { t with queue := q } n a = (.ok v, c) ∧
        loop s r k v c = (.ok u, b) := by
  cases hpop : t.queue.pop with
  | none =>
    rw [loop_of_pop_eq_none hpop] at h
    cases h
    exact .inl ⟨rfl, rfl⟩
  | some p =>
    obtain ⟨n, q⟩ := p
    cases hstep : step s r { t with queue := q } n a with
    | mk e c =>
      cases e with
      | error e =>
        rw [loop_succ_of_error hpop hstep] at h
        cases h
      | ok v =>
        rw [loop_succ_of_ok hpop hstep] at h
        exact .inr ⟨n, q, v, c, rfl, hstep, h⟩

/-- What every node preserves, a search preserves as long as it does not fail. -/
theorem loop_preserves {P : Search α → Prop}
    (hstep : ∀ t n q a t' b, P t → t.queue.pop = some (n, q) →
      step s r { t with queue := q } n a = (.ok t', b) → P t')
    (ht : P t) (h : loop s r k t a = (.ok u, b)) : P u := by
  induction k generalizing t a with
  | zero =>
    cases h
    exact ht
  | succ k ih =>
    rcases loop_succ_cases h with ⟨-, rfl⟩ | ⟨n, q, v, c, hpop, hs, h⟩
    · exact ht
    · exact ih (hstep _ _ _ _ _ _ ht hpop hs) h

/-! ### What a node leaves behind -/

/-- No node is counted from one state to the other, and the nodes that are new have the bound
`o`. -/
structure Opens (o : α) (t t' : Search α) : Prop where
  nodes_eq : t'.nodes = t.nodes
  bound_eq : ∀ m ∈ t'.queue.toList, m ∈ t.queue.toList ∨ m.bound = o

omit [Scalar α] in
theorem Opens.refl (o : α) (t : Search α) : Opens o t t :=
  ⟨rfl, fun _ hm => .inl hm⟩

omit [Scalar α] in
theorem Opens.trans {o : α} (h : Opens o t t') (h' : Opens o t' u) : Opens o t u where
  nodes_eq := h'.nodes_eq.trans h.nodes_eq
  bound_eq m hm := by
    rcases h'.bound_eq m hm with hm | hm
    · exact h.bound_eq m hm
    · exact .inr hm

theorem opens_of_addChild {column : Nat} {child : OpenNode α}
    (h : t.addChild column child = .ok t') : Opens child.bound t t' := by
  obtain ⟨lower, -, h⟩ := Checked.bind_eq_ok.1 h
  obtain ⟨upper, -, h⟩ := Checked.bind_eq_ok.1 h
  split at h
  · cases h
    exact .refl _ t
  · cases h
    refine ⟨rfl, fun m hm => ?_⟩
    rcases NodeQueue.mem_push.1 hm with rfl | hm
    · exact .inr rfl
    · exact .inl hm

theorem opens_of_split {objective : α} {c : Box α} {branch : Branch α}
    (h : t.split n objective c branch = .ok t') : Opens objective t t' := by
  unfold split at h
  dsimp only at h
  split at h
  · obtain ⟨v, hdown, hup⟩ := Checked.bind_eq_ok.1 h
    have hopens : Opens objective v t' := opens_of_addChild hup
    exact (opens_of_addChild hdown).trans hopens
  · obtain ⟨v, hup, hdown⟩ := Checked.bind_eq_ok.1 h
    have hopens : Opens objective v t' := opens_of_addChild hdown
    exact (opens_of_addChild hup).trans hopens

theorem opens_of_absorb {objective : α} {x : Array α} {c : Box α}
    (h : t.absorb s n (.bounded objective x) c = .ok t') : Opens objective t t' := by
  unfold absorb at h
  dsimp only at h
  split at h
  · cases h
    exact .refl _ t
  · obtain ⟨feasible, -, h⟩ := Checked.bind_eq_ok.1 h
    split at h
    · cases h
      exact ⟨rfl, fun m hm => .inl (NodeQueue.mem_nowHasBound.1 hm)⟩
    · obtain ⟨branch, -, h⟩ := Checked.bind_eq_ok.1 h
      cases branch with
      | none =>
        cases h
        exact .refl _ t
      | some branch => exact opens_of_split h

/-- A node that is taken is dropped unseen, or handed to the relaxation, and what it leaves open has
the bound that the relaxation answers. -/
theorem step_cases (h : step s r t n a = (.ok t', b)) :
    t'.nodes = t.nodes + 1 ∧
      ((t.isPruned n.bound = true ∧ b = a ∧ t' = { t with nodes := t.nodes + 1 }) ∨
        ∃ bound c, (r.solve s n.box a).1 = .ok (bound, c) ∧
          ∀ m ∈ t'.queue.toList, m ∈ t.queue.toList ∨ ∃ x, bound = .bounded m.bound x) := by
  unfold step at h
  dsimp only at h
  by_cases hp : t.isPruned n.bound = true
  · have hp' : isPruned { t with nodes := t.nodes + 1 } n.bound = true := hp
    rw [if_pos hp'] at h
    cases h
    exact ⟨rfl, .inl ⟨hp, rfl, rfl⟩⟩
  · have hp' : ¬ isPruned { t with nodes := t.nodes + 1 } n.bound = true := hp
    rw [if_neg hp'] at h
    cases hsolve : r.solve s n.box a with
    | mk answer d =>
      rw [hsolve] at h
      cases answer with
      | error e => cases h
      | ok answer =>
        obtain ⟨bound, c⟩ := answer
        obtain ⟨habsorb, rfl⟩ := Prod.mk.inj h
        cases hu : absorb { t with nodes := t.nodes + 1 } s n bound c with
        | error f =>
          rw [hu] at habsorb
          cases habsorb
        | ok u =>
          rw [hu] at habsorb
          cases habsorb
          cases bound with
          | infeasible =>
            cases hu
            exact ⟨rfl, .inr ⟨_, c, rfl, fun m hm => .inl hm⟩⟩
          | bounded objective x =>
            obtain ⟨hnodes, hbound⟩ := opens_of_absorb hu
            refine ⟨hnodes, .inr ⟨_, c, rfl, fun m hm => ?_⟩⟩
            rcases hbound m hm with hm | rfl
            · exact .inl hm
            · exact .inr ⟨x, rfl⟩

/-! ### Counting -/

/-- A search takes as many nodes as its cap allows, or it ends with no node open. -/
theorem nodes_of_loop (h : loop s r k t a = (.ok u, b)) :
    u.nodes ≤ t.nodes + k ∧ (u.nodes = t.nodes + k ∨ u.queue.pop = none) := by
  induction k generalizing t a with
  | zero =>
    cases h
    exact ⟨Nat.le_refl _, .inl rfl⟩
  | succ k ih =>
    rcases loop_succ_cases h with ⟨hpop, rfl⟩ | ⟨n, q, v, c, -, hs, h⟩
    · exact ⟨Nat.le_add_right _ _, .inr hpop⟩
    · have hnodes : v.nodes = t.nodes + 1 := (step_cases hs).1
      obtain ⟨hle, heq⟩ := ih h
      exact ⟨by omega, heq.imp_left (by omega)⟩

theorem isFinished_of_pop_eq_none (h : t.queue.pop = none) : t.isFinished = true := by
  have hempty : t.queue.nodes.toList = [] := NodeQueue.toList_of_pop_eq_none h
  unfold isFinished NodeQueue.lowestBy
  rw [hempty]
  rfl

/-! ### Finished searches -/

/-- No open node promises anything better than the best value. -/
def AllPruned (t : Search α) : Prop :=
  ∀ m ∈ t.queue.toList, t.isPruned m.bound = true

theorem AllPruned.isFinished (h : t.AllPruned) : t.isFinished = true := by
  unfold Search.isFinished NodeQueue.lowestBy
  cases hlowest : Scalar.firstLeast id (t.queue.nodes.toList.map (·.bound)) with
  | none => rfl
  | some lowest =>
    obtain ⟨m, hm, rfl⟩ := List.mem_map.1 (Scalar.mem_of_firstLeast hlowest)
    exact h m hm

/-- From there on every node is dropped unseen, and the result stays. -/
theorem loop_of_allPruned (ht : t.AllPruned) (k : Nat) (a : σ) :
    ∃ u, loop s r k t a = (.ok u, a) ∧ u.value = t.value ∧ u.incumbent = t.incumbent ∧
      u.AllPruned := by
  induction k generalizing t with
  | zero => exact ⟨t, rfl, rfl, rfl, ht⟩
  | succ k ih =>
    cases hpop : t.queue.pop with
    | none => exact ⟨t, loop_of_pop_eq_none hpop _, rfl, rfl, ht⟩
    | some p =>
      obtain ⟨n, q⟩ := p
      have hn : isPruned { t with queue := q, nodes := t.nodes + 1 } n.bound = true :=
        ht n ((NodeQueue.mem_of_pop hpop).2 (.inl rfl))
      have hstep : step s r { t with queue := q } n a =
          (.ok { t with queue := q, nodes := t.nodes + 1 }, a) := if_pos hn
      rw [loop_succ_of_ok hpop hstep]
      exact ih fun m hm => ht m ((NodeQueue.mem_of_pop hpop).2 (.inr hm))

/-! ### Relaxations that answer alike -/

section Alike

variable {τ : Type} {r' : Relaxation α τ} {R : σ → τ → Prop} {a' : τ}

/-- Related states lead to the same answers and to related states. -/
def Alike (s : SubProblem α) (r : Relaxation α σ) (r' : Relaxation α τ) (R : σ → τ → Prop) : Prop :=
  ∀ b a a', R a a' → (r.solve s b a).1 = (r'.solve s b a').1 ∧
    R (r.solve s b a).2 (r'.solve s b a').2

theorem step_alike (h : Alike s r r' R) (ha : R a a') (t : Search α) (n : OpenNode α) :
    (step s r t n a).1 = (step s r' t n a').1 ∧ R (step s r t n a).2 (step s r' t n a').2 := by
  unfold step
  dsimp only
  by_cases hp : isPruned { t with nodes := t.nodes + 1 } n.bound = true
  · rw [if_pos hp, if_pos hp]
    exact ⟨rfl, ha⟩
  · rw [if_neg hp, if_neg hp]
    obtain ⟨hanswer, hstate⟩ := h n.box a a' ha
    generalize r.solve s n.box a = x at hanswer hstate ⊢
    generalize r'.solve s n.box a' = y at hanswer hstate ⊢
    obtain ⟨x, b⟩ := x
    obtain ⟨y, b'⟩ := y
    cases hanswer
    cases x with
    | error e => exact ⟨rfl, hstate⟩
    | ok x => exact ⟨rfl, hstate⟩

/-- Searches with relaxations that answer alike end alike. -/
theorem loop_alike (h : Alike s r r' R) (ha : R a a') (k : Nat) (t : Search α) :
    (loop s r k t a).1 = (loop s r' k t a').1 ∧ R (loop s r k t a).2 (loop s r' k t a').2 := by
  induction k generalizing t a a' with
  | zero => exact ⟨rfl, ha⟩
  | succ k ih =>
    cases hpop : t.queue.pop with
    | none =>
      rw [loop_of_pop_eq_none hpop, loop_of_pop_eq_none hpop]
      exact ⟨rfl, ha⟩
    | some p =>
      obtain ⟨n, q⟩ := p
      obtain ⟨hanswer, hstate⟩ := step_alike h ha { t with queue := q } n
      cases hs : step s r { t with queue := q } n a with
      | mk e b =>
        cases hs' : step s r' { t with queue := q } n a' with
        | mk e' b' =>
          rw [hs, hs'] at hanswer hstate
          cases hanswer
          cases e with
          | error e =>
            rw [loop_succ_of_error hpop hs, loop_succ_of_error hpop hs']
            exact ⟨rfl, hstate⟩
          | ok v =>
            rw [loop_succ_of_ok hpop hs, loop_succ_of_ok hpop hs']
            exact ih hstate v

theorem run_alike (h : Alike s r r' R) (ha : R a a') (cap : Nat) (cutoff : α) :
    (run s r cap cutoff a).1 = (run s r' cap cutoff a').1 ∧
      R (run s r cap cutoff a).2 (run s r' cap cutoff a').2 := by
  unfold run
  by_cases hn : s.numCols = 0
  · rw [if_pos hn, if_pos hn]
    exact ⟨rfl, ha⟩
  · rw [if_neg hn, if_neg hn]
    obtain ⟨hanswer, hstate⟩ := loop_alike h ha cap (start s cutoff)
    generalize loop s r cap (start s cutoff) a = x at hanswer hstate ⊢
    generalize loop s r' cap (start s cutoff) a' = y at hanswer hstate ⊢
    obtain ⟨x, b⟩ := x
    obtain ⟨y, b'⟩ := y
    cases hanswer
    cases x with
    | error e => exact ⟨rfl, hstate⟩
    | ok x => exact ⟨rfl, hstate⟩

end Alike

/-! ### Calls of the relaxation -/

/-- The calls that a search makes of its relaxation, in order. -/
def calls (s : SubProblem α) (r : Relaxation α σ) (cap : Nat) (cutoff : α) (a : σ) :
    List (Relaxation.Call α) :=
  (run s r.traced cap cutoff (a, [])).2.2.reverse

/-- A search does not notice that its calls are recorded. -/
theorem run_traced (s : SubProblem α) (r : Relaxation α σ) (cap : Nat) (cutoff : α) (a : σ)
    (l : List (Relaxation.Call α)) :
    (run s r.traced cap cutoff (a, l)).1 = (run s r cap cutoff a).1 :=
  (run_alike (R := fun x y => x.1 = y)
    (fun b x y hxy => by cases hxy; exact ⟨rfl, rfl⟩) rfl cap cutoff).1

/-- The answers of a relaxation depend on the box that it is given, and not on its state. -/
def IsMemoryless (s : SubProblem α) (r : Relaxation α σ) : Prop :=
  ∀ b a a', (r.solve s b a).1 = (r.solve s b a').1

theorem calls_of_isMemoryless (hr : IsMemoryless s r) (cap : Nat) (cutoff : α) (a a' : σ) :
    (run s r cap cutoff a).1 = (run s r cap cutoff a').1 ∧
      calls s r cap cutoff a = calls s r cap cutoff a' := by
  have halike : Alike s r.traced r.traced fun x y => x.2 = y.2 := by
    rintro b ⟨x, l⟩ ⟨y, l'⟩ hl
    cases hl
    refine ⟨hr b x y, ?_⟩
    show _ :: l = _ :: l
    rw [hr b x y]
  have hsame : (a, ([] : List (Relaxation.Call α))).2 = (a', ([] : List (Relaxation.Call α))).2 :=
    rfl
  obtain ⟨hresult, hcalls⟩ := run_alike halike hsame cap cutoff
  rw [run_traced, run_traced] at hresult
  exact ⟨hresult, congrArg List.reverse hcalls⟩

theorem step_calls (t : Search α) (n : OpenNode α) (x : σ × List (Relaxation.Call α)) :
    ∃ c, c.length ≤ 1 ∧ (step s r.traced t n x).2.2 = c ++ x.2 := by
  unfold step
  dsimp only
  split
  · exact ⟨[], Nat.zero_le _, rfl⟩
  · refine ⟨[⟨n.box, (r.solve s n.box x.1).1.toOption.map (·.1)⟩], Nat.le_refl _, ?_⟩
    unfold Relaxation.traced
    dsimp only
    cases (r.solve s n.box x.1).1 with
    | error e => rfl
    | ok y => rfl

/-- A search makes at most as many calls as it may take nodes, and keeps those made before. -/
theorem loop_calls (k : Nat) (t : Search α) (x : σ × List (Relaxation.Call α)) :
    ∃ c, c.length ≤ k ∧ (loop s r.traced k t x).2.2 = c ++ x.2 := by
  induction k generalizing t x with
  | zero => exact ⟨[], Nat.le_refl _, rfl⟩
  | succ k ih =>
    cases hpop : t.queue.pop with
    | none =>
      rw [loop_of_pop_eq_none hpop]
      exact ⟨[], Nat.zero_le _, rfl⟩
    | some p =>
      obtain ⟨n, q⟩ := p
      obtain ⟨c, hc, hcalls⟩ := step_calls (s := s) (r := r) { t with queue := q } n x
      cases hs : step s r.traced { t with queue := q } n x with
      | mk e y =>
        rw [hs] at hcalls
        cases e with
        | error e =>
          rw [loop_succ_of_error hpop hs]
          exact ⟨c, by omega, hcalls⟩
        | ok v =>
          rw [loop_succ_of_ok hpop hs]
          obtain ⟨d, hd, hrest⟩ := ih v y
          refine ⟨d ++ c, by rw [List.length_append]; omega, ?_⟩
          rw [hrest, show y.2 = c ++ x.2 from hcalls, List.append_assoc]

theorem length_calls_le (s : SubProblem α) (r : Relaxation α σ) (cap : Nat) (cutoff : α) (a : σ) :
    (calls s r cap cutoff a).length ≤ cap := by
  unfold calls run
  by_cases hn : s.numCols = 0
  · rw [if_pos hn]
    exact Nat.zero_le _
  · rw [if_neg hn, List.length_reverse]
    obtain ⟨c, hc, hcalls⟩ := loop_calls (s := s) (r := r) cap (start s cutoff) (a, [])
    generalize loop s r.traced cap (start s cutoff) (a, []) = x at hcalls ⊢
    obtain ⟨x, b, l⟩ := x
    cases x <;> simpa [show l = c ++ [] from hcalls] using hc

/-- A greater cap only adds calls at the end. -/
theorem calls_prefix (s : SubProblem α) (r : Relaxation α σ) {cap cap' : Nat} (h : cap ≤ cap')
    (cutoff : α) (a : σ) : calls s r cap cutoff a <+: calls s r cap' cutoff a := by
  obtain ⟨d, rfl⟩ := Nat.exists_eq_add_of_le h
  unfold calls run
  rw [List.reverse_prefix]
  by_cases hn : s.numCols = 0
  · rw [if_pos hn, if_pos hn]
  · rw [if_neg hn, if_neg hn, loop_add]
    cases loop s r.traced cap (start s cutoff) (a, []) with
    | mk x y =>
      cases x with
      | error e => exact List.suffix_refl _
      | ok t =>
        obtain ⟨c, -, hcalls⟩ := loop_calls (s := s) (r := r) d t y
        dsimp only
        generalize loop s r.traced d t y = z at hcalls ⊢
        obtain ⟨z, b, l⟩ := z
        have hsuffix : y.2 <:+ l := ⟨c, (show l = c ++ y.2 from hcalls).symm⟩
        cases z <;> exact hsuffix

/-! ### Results -/

theorem run_cases {cap : Nat} {cutoff : α} {x : SearchResult α}
    (h : (run s r cap cutoff a).1 = .ok x) :
    (s.numCols = 0 ∧ x = fixedResult s cutoff) ∨
      (s.numCols ≠ 0 ∧ ∃ t b, loop s r cap (start s cutoff) a = (.ok t, b) ∧ x = t.result) := by
  unfold run at h
  by_cases hn : s.numCols = 0
  · rw [if_pos hn] at h
    cases h
    exact .inl ⟨hn, rfl⟩
  · rw [if_neg hn] at h
    cases hloop : loop s r cap (start s cutoff) a with
    | mk y b =>
      rw [hloop] at h
      cases y with
      | error e => cases h
      | ok t =>
        cases h
        exact .inr ⟨hn, t, b, rfl, rfl⟩

theorem fixedResult_eq (s : SubProblem α) (cutoff : α) :
    (fixedResult s cutoff).nodes = 0 ∧ (fixedResult s cutoff).status.isFinished = true := by
  unfold fixedResult
  split <;> exact ⟨rfl, rfl⟩

/-- No more nodes are taken than the cap allows, and all of them unless the search is finished. -/
theorem nodes_of_run {cap : Nat} {cutoff : α} {x : SearchResult α}
    (h : (run s r cap cutoff a).1 = .ok x) :
    x.nodes ≤ cap ∧ (x.status.isFinished = false → x.nodes = cap) := by
  rcases run_cases h with ⟨-, rfl⟩ | ⟨-, t, b, hloop, rfl⟩
  · obtain ⟨hnodes, hfinished⟩ := fixedResult_eq s cutoff
    rw [hnodes, hfinished]
    exact ⟨Nat.zero_le _, fun h => by cases h⟩
  · obtain ⟨hle, heq⟩ := nodes_of_loop hloop
    have hstart : (start s cutoff).nodes = 0 := rfl
    rw [hstart, Nat.zero_add] at hle heq
    refine ⟨hle, fun hunfinished => heq.resolve_right fun hpop => ?_⟩
    rw [result, SearchStatus.isFinished_ofParts, isFinished_of_pop_eq_none hpop] at hunfinished
    cases hunfinished

end Loop

/-! ### Floating-point bounds -/

section Numbers

variable {σ : Type} {s : SubProblem Binary64} {r : Relaxation Binary64 σ} {t : Search Binary64}

/-- The bounds that a relaxation answers are numbers. -/
def AnswersNumbers (s : SubProblem Binary64) (r : Relaxation Binary64 σ) : Prop :=
  ∀ b a objective x c, (r.solve s b a).1 = .ok (.bounded objective x, c) →
    objective.isNaN = false

/-- The bounds of all open nodes are numbers. -/
def HasNumbers (t : Search Binary64) : Prop :=
  ∀ m ∈ t.queue.toList, m.bound.isNaN = false

theorem hasNumbers_start (s : SubProblem Binary64) (cutoff : Binary64) :
    (start s cutoff).HasNumbers := by
  intro m hm
  rcases NodeQueue.mem_push.1 hm with rfl | hm
  · show Binary64.isNaN (-Scalar.infinity) = false
    decide
  · cases hm

theorem hasNumbers_of_loop (hr : AnswersNumbers s r) {k : Nat} {cutoff : Binary64} {a b : σ}
    (h : loop s r k (start s cutoff) a = (.ok t, b)) : t.HasNumbers := by
  refine loop_preserves (P := HasNumbers) ?_ (hasNumbers_start s cutoff) h
  intro u n q a v b hu hpop hstep m hm
  have hold : ∀ m ∈ q.toList, m.bound.isNaN = false :=
    fun m hm => hu m ((NodeQueue.mem_of_pop hpop).2 (.inr hm))
  obtain ⟨-, ⟨-, -, rfl⟩ | ⟨bound, c, hsolve, hopen⟩⟩ := step_cases hstep
  · exact hold m hm
  · rcases hopen m hm with hm | ⟨x, rfl⟩
    · exact hold m hm
    · exact hr _ _ _ _ _ hsolve

/-- A search is finished if and only if no open node promises anything better. -/
theorem isFinished_iff (ht : t.HasNumbers) : t.isFinished = true ↔ t.AllPruned := by
  refine ⟨fun h m hm => ?_, AllPruned.isFinished⟩
  have hmem : m.bound ∈ t.queue.nodes.toList.map (·.bound) := List.mem_map_of_mem hm
  unfold isFinished NodeQueue.lowestBy at h
  cases hlowest : Scalar.firstLeast id (t.queue.nodes.toList.map (·.bound)) with
  | none =>
    rw [Scalar.firstLeast_eq_none.1 hlowest] at hmem
    cases hmem
  | some lowest =>
    rw [hlowest] at h
    have hpruned : t.value - Scalar.objTol ≤ lowest := of_decide_eq_true h
    have hle : lowest ≤ m.bound := by
      refine Binary64.firstLeast_le hlowest (fun y hy => ?_) hmem
      obtain ⟨k, hk, rfl⟩ := List.mem_map.1 hy
      exact ht k hk
    exact decide_eq_true (Binary64.le_trans hpruned hle)

/-- A greater cap makes no difference for the result of a search that is finished. -/
theorem run_of_isFinished (hr : AnswersNumbers s r) {cap cap' : Nat} (h : cap ≤ cap')
    {cutoff : Binary64} {a : σ} {x : SearchResult Binary64}
    (hx : (run s r cap cutoff a).1 = .ok x) (hfinished : x.status.isFinished = true) :
    ∃ y, (run s r cap' cutoff a).1 = .ok y ∧ y.status = x.status ∧ y.solution = x.solution ∧
      y.objective = x.objective := by
  obtain ⟨d, rfl⟩ := Nat.exists_eq_add_of_le h
  rcases run_cases hx with ⟨hn, rfl⟩ | ⟨hn, t, b, hloop, rfl⟩
  · refine ⟨fixedResult s cutoff, ?_, rfl, rfl, rfl⟩
    unfold run
    rw [if_pos hn]
  · have hnumbers : t.HasNumbers := hasNumbers_of_loop hr hloop
    rw [result, SearchStatus.isFinished_ofParts] at hfinished
    -- what is still open is dropped unseen, and the search stays finished
    obtain ⟨u, hu, hvalue, hincumbent, hpruned⟩ :=
      loop_of_allPruned (s := s) (r := r) ((isFinished_iff hnumbers).1 hfinished) d b
    refine ⟨u.result, ?_, ?_, hincumbent, hvalue⟩
    · unfold run
      rw [if_neg hn, loop_add, hloop]
      simp only [hu]
    · rw [result, result, hfinished, hpruned.isFinished, hincumbent]

/-- What the cap means: the relaxation is called at most so often, and at most so many nodes are
taken, exactly so many if the search is not finished. With a greater cap it makes the same calls
first, and comes to the same result if it was finished. -/
structure KeepsCap (s : SubProblem Binary64) (r : Relaxation Binary64 σ) (cutoff : Binary64)
    (cap cap' : Nat) (a a' : σ) : Prop where
  length_calls : (calls s r cap cutoff a).length ≤ cap
  nodes_le : ∀ x, (run s r cap cutoff a).1 = .ok x → x.nodes ≤ cap
  unfinished : ∀ x, (run s r cap cutoff a).1 = .ok x → x.status.isFinished = false → x.nodes = cap
  calls_prefix : calls s r cap cutoff a <+: calls s r cap' cutoff a'
  finished : ∀ x, (run s r cap cutoff a).1 = .ok x → x.status.isFinished = true →
    ∃ y, (run s r cap' cutoff a').1 = .ok y ∧ y.status = x.status ∧ y.solution = x.solution ∧
      y.objective = x.objective

/-- Every search keeps its cap, from whatever states its relaxation starts. -/
theorem keepsCap (hr : IsMemoryless s r) (hn : AnswersNumbers s r) (cutoff : Binary64)
    {cap cap' : Nat} (h : cap ≤ cap') (a a' : σ) : KeepsCap s r cutoff cap cap' a a' := by
  obtain ⟨hresult, hcalls⟩ := calls_of_isMemoryless hr cap' cutoff a a'
  refine ⟨length_calls_le s r cap cutoff a, fun x hx => (nodes_of_run hx).1,
    fun x hx => (nodes_of_run hx).2, ?_, fun x hx hfinished => ?_⟩
  · rw [← hcalls]
    exact Search.calls_prefix s r h cutoff a
  · rw [← hresult]
    exact run_of_isFinished hn h hx hfinished

theorem ordered_noRows : ∀ l ∈ (#[] : Array (Line Binary64)), l.Ordered 1 := by
  simp

theorem noZeros_noRows : ∀ l ∈ (#[] : Array (Line Binary64)), l.NoZeros := by
  simp

/-- One binary column of cost minus one. -/
def oneChoice : SubProblem Binary64 where
  columns := #[⟨0, -1, 0, 1, true⟩]
  rows := #[]
  matrix := .ofRows 1 #[] ordered_noRows noZeros_noRows
  offset := 0
  originalSize := 1
  numCols_matrix := rfl
  numRows_matrix := rfl
  rows_nonempty := by simp [Matrix.ofRows]

/-- A relaxation that proposes the middle of every box with the bound minus one, and counts. -/
def halving : Relaxation Binary64 Nat where
  solve _ b k :=
    (.ok (.bounded (-1)
      (Array.zipWith (fun l u => (l + u) / Scalar.ofNat 2) b.lower b.upper), b), k + 1)

/-- After two nodes the search is finished with a node still open, and after a third one it ends. -/
theorem keepsCap_oneChoice :
    IsMemoryless oneChoice halving ∧ AnswersNumbers oneChoice halving ∧ 2 ≤ 5 ∧
      (run oneChoice halving 2 0 0).1.toOption.map (fun x => (x.status, x.objective, x.nodes)) =
        some (.solutionFinished, -1, 2) ∧
      (run oneChoice halving 5 0 7).1.toOption.map (fun x => (x.status, x.objective, x.nodes)) =
        some (.solutionFinished, -1, 3) ∧
      KeepsCap oneChoice halving 0 2 5 0 7 := by
  have hmemoryless : IsMemoryless oneChoice halving := fun _ _ _ => rfl
  have hnumbers : AnswersNumbers oneChoice halving := by
    intro b a objective x c h
    cases h
    decide
  exact ⟨hmemoryless, hnumbers, by decide, by decide +kernel, by decide +kernel,
    keepsCap hmemoryless hnumbers 0 (by decide) 0 7⟩

end Numbers

end Search

end PrimalHeuristics
