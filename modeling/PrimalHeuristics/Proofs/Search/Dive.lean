import PrimalHeuristics.Proofs.Search.NodeCap
import PrimalHeuristics.Proofs.Search.OpenNodes

/-!
# A search dives until it has a solution

Before its first solution a search takes its nodes in the order of a recursive depth-first search,
which looks into the child that was opened last, and everything below it, before it turns to the
other one. So the queue of open nodes, which is a heap, is a stack: the later a node was opened, the
greater its number, and of two open nodes the later one is at least as deep. Children that are left
out, nodes that are dropped and the side that is preferred make no difference to that, nor does the
relaxation.

* `Search.visit`: what becomes of a node, regardless of the queue, and `Search.step_eq_visit`;
* `Search.explore`: the recursive search, and `Search.trail`: the same with a stack;
* `NodeQueue.IsStack`: the invariant, and what each operation makes of it;
* `Search.Moment`: the queues in the course of a search;
* `Search.isDive`: the two orders are the same, and what holds of the numbers of open nodes.
-/

namespace PrimalHeuristics

open Std (TransCmp)

variable {α σ : Type} [Scalar α]

namespace NodeQueue

/-- Adds nodes one after another. -/
def pushAll (q : NodeQueue α) (l : List (OpenNode α)) : NodeQueue α :=
  l.foldl push q

theorem pushAll_append (q : NodeQueue α) (l l' : List (OpenNode α)) :
    q.pushAll (l ++ l') = (q.pushAll l).pushAll l' :=
  List.foldl_append

end NodeQueue

namespace Search

/-! ### What becomes of a node -/

/-- What becomes of a node: its point is a solution, or it has children, in the order in which they
are opened. A node that is dropped has none. -/
inductive Outcome (α : Type) where
  | solution (x : Array α)
  | children (l : List (OpenNode α))

/-- A child with its number, unless its column has no value left. -/
def numbered (column id : Nat) (child : OpenNode α) : Checked (List (OpenNode α)) := do
  let lower ← Checked.read child.box.lower column
  let upper ← Checked.read child.box.upper column
  if upper + Scalar.feasTol < lower then return []
  else return [{ child with id }]

/-- The children of a split, with numbers from `id` on; the one that is searched first comes
second. -/
def childrenOf (id : Nat) (n : OpenNode α) (objective : α) (b : Box α) (branch : Branch α) :
    Checked (List (OpenNode α)) := do
  let down : OpenNode α := ⟨0, n.depth + 1, objective, downBox b branch⟩
  let up : OpenNode α := ⟨0, n.depth + 1, objective, upBox b branch⟩
  let first ← numbered branch.column id (if branch.upFirst then down else up)
  let second ← numbered branch.column (id + first.length) (if branch.upFirst then up else down)
  return first ++ second

/-- What becomes of a node that the relaxation bounded, when `value` is the best value. -/
def outcome (s : SubProblem α) (value : α) (id : Nat) (n : OpenNode α) (bound : NodeBound α)
    (b : Box α) : Checked (Outcome α) := do
  match bound with
  | .infeasible => return .children []
  | .bounded objective x =>
    if value - Scalar.objTol ≤ objective then return .children []
    else if ← s.isFeasible x b then return .solution x
    else
      match ← Branch.choose s x b with
      | none => return .children []
      | some branch => return .children (← childrenOf id n objective b branch)

/-- What becomes of a node, when `value` is the best value and `id` the next number. -/
def visit (s : SubProblem α) (r : Relaxation α σ) (value : α) (id : Nat) (n : OpenNode α)
    (state : σ) : Except (Failure α) (Outcome α) × σ :=
  if value - Scalar.objTol ≤ n.bound then (.ok (.children []), state)
  else
    match r.solve s n.box state with
    | (.error e, state) => (.error e, state)
    | (.ok (bound, b), state) => (Failure.ofChecked (outcome s value id n bound b), state)

/-- Opens nodes that have numbers already. -/
def openAll (t : Search α) (l : List (OpenNode α)) : Search α :=
  { t with queue := t.queue.pushAll l, nextId := t.nextId + l.length }

/-- The state after a node of which that became. -/
def Outcome.apply (s : SubProblem α) (t : Search α) : Outcome α → Search α
  | .solution x => t.accept s x
  | .children l => t.openAll l

section

variable {s : SubProblem α} {r : Relaxation α σ} {t : Search α} {n : OpenNode α}

theorem addChild_eq_numbered (t : Search α) (column : Nat) (child : OpenNode α) :
    t.addChild column child = (numbered column t.nextId child).map t.openAll := by
  unfold addChild numbered
  cases Checked.read child.box.lower column with
  | error e => rfl
  | ok lower =>
    cases Checked.read child.box.upper column with
    | error e => rfl
    | ok upper =>
      simp only [Checked.ok_bind]
      split <;> rfl

theorem openAll_append (t : Search α) (l l' : List (OpenNode α)) :
    t.openAll (l ++ l') = (t.openAll l).openAll l' := by
  simp only [openAll, NodeQueue.pushAll_append, List.length_append, Nat.add_assoc]

theorem addChild_addChild_eq (t : Search α) (column : Nat) (first second : OpenNode α) :
    (do (← t.addChild column first).addChild column second) =
      (do
        let l ← numbered column t.nextId first
        let l' ← numbered column (t.nextId + l.length) second
        return l ++ l' : Checked _).map t.openAll := by
  rw [addChild_eq_numbered]
  cases numbered column t.nextId first with
  | error e => rfl
  | ok l =>
    show (t.openAll l).addChild column second = _
    rw [addChild_eq_numbered]
    simp only [Checked.ok_bind, show (t.openAll l).nextId = t.nextId + l.length from rfl]
    cases numbered column (t.nextId + l.length) second with
    | error e => rfl
    | ok l' => exact congrArg Except.ok (openAll_append t l l').symm

theorem split_eq_childrenOf (t : Search α) (n : OpenNode α) (objective : α) (b : Box α)
    (branch : Branch α) :
    t.split n objective b branch = (childrenOf t.nextId n objective b branch).map t.openAll := by
  unfold split childrenOf
  by_cases hup : branch.upFirst = true
  · simp only [if_pos hup]
    exact addChild_addChild_eq ..
  · simp only [if_neg hup]
    exact addChild_addChild_eq ..

theorem absorb_eq_outcome (t : Search α) (s : SubProblem α) (n : OpenNode α) (bound : NodeBound α)
    (b : Box α) :
    t.absorb s n bound b = (outcome s t.value t.nextId n bound b).map (Outcome.apply s t) := by
  unfold absorb outcome
  cases bound with
  | infeasible => rfl
  | bounded objective x =>
    by_cases hp : t.value - Scalar.objTol ≤ objective
    · have hp' : t.isPruned objective = true := decide_eq_true hp
      simp only [if_pos hp, if_pos hp']
      rfl
    · have hp' : ¬ t.isPruned objective = true := fun h => hp (of_decide_eq_true h)
      simp only [if_neg hp, if_neg hp']
      cases s.isFeasible x b with
      | error e => rfl
      | ok feasible =>
        cases feasible with
        | true => rfl
        | false =>
          simp only [Checked.ok_bind, Bool.false_eq_true, if_false]
          cases Branch.choose s x b with
          | error e => rfl
          | ok choice =>
            cases choice with
            | none => rfl
            | some branch =>
              simp only [Checked.ok_bind, split_eq_childrenOf]
              cases childrenOf t.nextId n objective b branch <;> rfl

/-- A node is visited, and the state changes accordingly. -/
theorem step_eq_visit (s : SubProblem α) (r : Relaxation α σ) (t : Search α) (n : OpenNode α)
    (a : σ) :
    step s r t n a = ((visit s r t.value t.nextId n a).1.map (Outcome.apply s t.counted),
      (visit s r t.value t.nextId n a).2) := by
  unfold step visit
  by_cases hp : t.value - Scalar.objTol ≤ n.bound
  · have hp' : t.counted.isPruned n.bound = true := decide_eq_true hp
    rw [if_pos hp]
    exact if_pos hp'
  · have hp' : ¬ t.counted.isPruned n.bound = true := fun h => hp (of_decide_eq_true h)
    rw [if_neg hp]
    refine (if_neg hp').trans ?_
    cases r.solve s n.box a with
    | mk answer b =>
      cases answer with
      | error e => rfl
      | ok answer =>
        have habsorb := absorb_eq_outcome t.counted s n answer.1 answer.2
        show (Failure.ofChecked (t.counted.absorb s n answer.1 answer.2), b) =
          ((Failure.ofChecked (outcome s t.counted.value t.counted.nextId n answer.1 answer.2)).map
            (Outcome.apply s t.counted), b)
        rw [habsorb]
        cases outcome s t.counted.value t.counted.nextId n answer.1 answer.2 <;> rfl

end

/-! ### Children -/

/-- Nodes of one depth with numbers in a row. -/
def AreNumbered (depth : Nat) : Nat → List (OpenNode α) → Prop
  | _, [] => True
  | id, m :: l => m.id = id ∧ m.depth = depth ∧ AreNumbered depth (id + 1) l

omit [Scalar α] in
theorem areNumbered_append {depth id : Nat} {l l' : List (OpenNode α)} :
    AreNumbered depth id (l ++ l') ↔
      AreNumbered depth id l ∧ AreNumbered depth (id + l.length) l' := by
  induction l generalizing id with
  | nil => simp [AreNumbered]
  | cons m l ih => simp [AreNumbered, ih, and_assoc, Nat.add_assoc, Nat.add_comm 1]

theorem areNumbered_of_numbered {column id : Nat} {child : OpenNode α} {l : List (OpenNode α)}
    (h : numbered column id child = .ok l) : AreNumbered child.depth id l := by
  obtain ⟨lower, -, h⟩ := Checked.bind_eq_ok.1 h
  obtain ⟨upper, -, h⟩ := Checked.bind_eq_ok.1 h
  split at h <;> cases h
  · trivial
  · exact ⟨rfl, rfl, trivial⟩

theorem areNumbered_of_childrenOf {id : Nat} {n : OpenNode α} {objective : α} {b : Box α}
    {branch : Branch α} {l : List (OpenNode α)} (h : childrenOf id n objective b branch = .ok l) :
    AreNumbered (n.depth + 1) id l := by
  obtain ⟨first, hfirst, h⟩ := Checked.bind_eq_ok.1 h
  obtain ⟨second, hsecond, h⟩ := Checked.bind_eq_ok.1 h
  cases h
  have hfirst := areNumbered_of_numbered hfirst
  have hsecond := areNumbered_of_numbered hsecond
  rw [apply_ite OpenNode.depth, ite_self] at hfirst hsecond
  exact areNumbered_append.2 ⟨hfirst, hsecond⟩

theorem areNumbered_of_outcome {s : SubProblem α} {value : α} {id : Nat} {n : OpenNode α}
    {bound : NodeBound α} {b : Box α} {l : List (OpenNode α)}
    (h : outcome s value id n bound b = .ok (.children l)) : AreNumbered (n.depth + 1) id l := by
  unfold outcome at h
  cases bound with
  | infeasible =>
    cases h
    trivial
  | bounded objective x =>
    dsimp only at h
    split at h
    · cases h
      trivial
    · obtain ⟨feasible, -, h⟩ := Checked.bind_eq_ok.1 h
      split at h
      · cases h
      · obtain ⟨choice, -, h⟩ := Checked.bind_eq_ok.1 h
        cases choice with
        | none =>
          cases h
          trivial
        | some branch =>
          obtain ⟨l', hl', h⟩ := Checked.bind_eq_ok.1 h
          cases h
          exact areNumbered_of_childrenOf hl'

/-- The children of a node are one level below it, and their numbers follow on. -/
theorem areNumbered_of_visit {s : SubProblem α} {r : Relaxation α σ} {value : α} {id : Nat}
    {n : OpenNode α} {a b : σ} {l : List (OpenNode α)}
    (h : visit s r value id n a = (.ok (.children l), b)) : AreNumbered (n.depth + 1) id l := by
  unfold visit at h
  split at h
  · cases h
    trivial
  · split at h
    · cases h
    · rename_i bound c d hsolve
      have houtcome := congrArg Prod.fst h
      dsimp only at houtcome
      cases ho : outcome s value id n bound c with
      | error f =>
        rw [ho] at houtcome
        cases houtcome
      | ok o =>
        rw [ho] at houtcome
        cases houtcome
        exact areNumbered_of_outcome ho

end Search

/-! ### The queue as a stack -/

namespace NodeQueue

/-- The open nodes of a dive, the latest first. -/
structure IsStack (q : NodeQueue α) (next : Nat) (stack : List (OpenNode α)) : Prop where
  dives : q.hasBound = false
  isHeap : q.IsHeap
  perm : q.toList.Perm stack
  /-- A later node has a greater number, and it is at least as deep. -/
  ordered : stack.Pairwise fun m n => n.id < m.id ∧ n.depth ≤ m.depth
  lt_next : ∀ m ∈ stack, m.id < next

/-- All open nodes have numbers of their own, below the next one. -/
structure IsNumbered (q : NodeQueue α) (next : Nat) : Prop where
  nodup : (q.toList.map (·.id)).Nodup
  lt_next : ∀ m ∈ q.toList, m.id < next

variable {q q' : NodeQueue α} {next : Nat} {stack : List (OpenNode α)} {n : OpenNode α}

theorem hasBound_pushAll (q : NodeQueue α) (l : List (OpenNode α)) :
    (q.pushAll l).hasBound = q.hasBound := by
  induction l generalizing q with
  | nil => rfl
  | cons m l ih => exact ih _

theorem transCmp_of_dives (h : q.hasBound = false) :
    TransCmp (OpenNode.compare q.hasBound : OpenNode α → OpenNode α → Ordering) :=
  h ▸ OpenNode.transCmp_dive

theorem isStack_empty : (empty : NodeQueue α).IsStack next [] :=
  ⟨rfl, isHeap_empty, .refl _, .nil, fun _ hm => by cases hm⟩

/-- A node that is at least as deep as all open ones goes on top. -/
theorem IsStack.push (h : q.IsStack next stack) (hid : n.id = next)
    (hdepth : ∀ m ∈ stack, m.depth ≤ n.depth) : (q.push n).IsStack (next + 1) (n :: stack) where
  dives := h.dives
  isHeap :=
    have := transCmp_of_dives h.dives
    h.isHeap.push n
  perm := (toList_push q n).trans (h.perm.cons n)
  ordered := List.pairwise_cons.2 ⟨fun m hm => ⟨hid ▸ h.lt_next m hm, hdepth m hm⟩, h.ordered⟩
  lt_next m hm := by
    rcases List.mem_cons.1 hm with rfl | hm
    · omega
    · exact Nat.lt_succ_of_lt (h.lt_next m hm)

theorem IsStack.pushAll {depth : Nat} {l : List (OpenNode α)} (h : q.IsStack next stack)
    (hl : Search.AreNumbered depth next l) (hdepth : ∀ m ∈ stack, m.depth ≤ depth) :
    (q.pushAll l).IsStack (next + l.length) (l.reverse ++ stack) := by
  induction l generalizing q next stack with
  | nil => exact h
  | cons m l ih =>
    obtain ⟨hid, rfl, hl⟩ := hl
    have hpush : (q.push m).IsStack (next + 1) (m :: stack) := h.push hid hdepth
    rw [List.length_cons, List.reverse_cons, List.append_assoc, Nat.add_comm l.length,
      ← Nat.add_assoc]
    exact ih hpush hl fun k hk => by
      rcases List.mem_cons.1 hk with rfl | hk
      · exact Nat.le_refl _
      · exact hdepth k hk

theorem IsStack.eq_nil_of_pop (h : q.IsStack next stack) (hpop : q.pop = none) : stack = [] :=
  List.nil_perm.1 (pop_eq_none_iff.1 hpop ▸ h.perm)

/-- The node that is popped is the one on top. -/
theorem IsStack.pop (h : q.IsStack next stack) (hpop : q.pop = some (n, q')) :
    ∃ rest, stack = n :: rest ∧ q'.IsStack next rest := by
  have htrans := transCmp_of_dives h.dives
  have hn : n ∈ stack := h.perm.mem_iff.1 ((mem_of_pop hpop).2 (.inl rfl))
  cases stack with
  | nil => cases hn
  | cons m rest =>
    obtain ⟨habove, hrest⟩ := List.pairwise_cons.1 h.ordered
    have hmn : m = n := by
      refine (List.mem_cons.1 hn).elim Eq.symm fun hn => ?_
      obtain ⟨hid, hdepth⟩ := habove n hn
      have hgreatest := compare_ne_gt_of_pop h.isHeap hpop m (h.perm.mem_iff.2 List.mem_cons_self)
      -- the node on top is greater than any other one
      have hgt : m.compare q.hasBound n = .gt := by
        rw [h.dives]
        simp only [OpenNode.compare, Bool.false_eq_true, if_false, Ordering.then_eq_gt,
          Nat.compare_eq_gt, Nat.compare_eq_eq]
        omega
      exact absurd hgt hgreatest
    subst hmn
    refine ⟨rest, rfl, (hasBound_of_pop hpop).trans h.dives, h.isHeap.pop hpop, ?_, hrest,
      fun k hk => h.lt_next k (List.mem_cons_of_mem _ hk)⟩
    exact (List.perm_cons m).1 ((toList_pop hpop).trans h.perm)

theorem IsStack.isNumbered (h : q.IsStack next stack) : q.IsNumbered next where
  nodup := by
    refine (h.perm.map _).nodup_iff.2 (List.pairwise_map.2 (h.ordered.imp fun hmn => ?_))
    exact Ne.symm (Nat.ne_of_lt hmn.1)
  lt_next m hm := h.lt_next m (h.perm.mem_iff.1 hm)

/-- Of two open nodes the later one is at least as deep. -/
theorem IsStack.depth_le (h : q.IsStack next stack) :
    ∀ m ∈ q.toList, ∀ m' ∈ q.toList, m.id ≤ m'.id → m.depth ≤ m'.depth := by
  intro m hm m' hm'
  refine List.Pairwise.forall_of_forall_of_flip (R := fun m n => m.id ≤ n.id → m.depth ≤ n.depth)
    (fun m _ _ => Nat.le_refl _) ?_ ?_ (h.perm.mem_iff.1 hm) (h.perm.mem_iff.1 hm')
  · exact h.ordered.imp fun hmn hle => absurd hmn.1 (Nat.not_lt.2 hle)
  · exact h.ordered.imp fun hmn _ => hmn.2

omit [Scalar α] in
theorem IsNumbered.of_perm (h : q.IsNumbered next) (hperm : q'.toList.Perm q.toList) :
    q'.IsNumbered next :=
  ⟨(hperm.map _).nodup_iff.2 h.nodup, fun m hm => h.lt_next m (hperm.mem_iff.1 hm)⟩

theorem IsNumbered.push (h : q.IsNumbered next) (hid : n.id = next) :
    (q.push n).IsNumbered (next + 1) where
  nodup := by
    rw [((toList_push q n).map _).nodup_iff, List.map_cons, List.nodup_cons]
    refine ⟨fun hmem => ?_, h.nodup⟩
    obtain ⟨m, hm, heq⟩ := List.mem_map.1 hmem
    have := h.lt_next m hm
    omega
  lt_next m hm := by
    rcases mem_push.1 hm with rfl | hm
    · omega
    · exact Nat.lt_succ_of_lt (h.lt_next m hm)

theorem IsNumbered.pushAll {depth : Nat} {l : List (OpenNode α)} (h : q.IsNumbered next)
    (hl : Search.AreNumbered depth next l) : (q.pushAll l).IsNumbered (next + l.length) := by
  induction l generalizing q next with
  | nil => exact h
  | cons m l ih =>
    obtain ⟨hid, -, hl⟩ := hl
    rw [List.length_cons, Nat.add_comm l.length, ← Nat.add_assoc]
    exact ih (h.push hid) hl

theorem IsNumbered.pop (h : q.IsNumbered next) (hpop : q.pop = some (n, q')) :
    q'.IsNumbered next where
  nodup := (List.nodup_cons.1 (((toList_pop hpop).map _).nodup_iff.2 h.nodup)).2
  lt_next m hm := h.lt_next m ((mem_of_pop hpop).2 (.inr hm))

end NodeQueue

namespace Search

/-! ### The recursive search -/

/-- The nodes that a recursive depth-first search takes, at most so many, when it looks into each of
several nodes and everything below it before it turns to the next one. Unless it has come to an end,
it also hands back the next number and the state of the relaxation. -/
def explore (s : SubProblem α) (r : Relaxation α σ) (value : α) :
    Nat → List (OpenNode α) → Nat → σ → List (OpenNode α) × Option (Nat × σ)
  | _, [], id, state => ([], some (id, state))
  | 0, _ :: _, _, _ => ([], none)
  | left + 1, n :: rest, id, state =>
    match visit s r value id n state with
    | (.error _, _) | (.ok (.solution _), _) => ([n], none)
    | (.ok (.children l), state) =>
      -- the child that was opened last comes first
      match explore s r value left l.reverse (id + l.length) state with
      | (below, none) => (n :: below, none)
      | (below, some (id, state)) =>
        let (beside, next) := explore s r value (left - below.length) rest id state
        (n :: below ++ beside, next)
termination_by left => left
decreasing_by all_goals omega

/-- The nodes that are taken from a stack, at most so many. -/
def trail (s : SubProblem α) (r : Relaxation α σ) (value : α) :
    Nat → List (OpenNode α) → Nat → σ → List (OpenNode α)
  | _, [], _, _ => []
  | 0, _ :: _, _, _ => []
  | left + 1, n :: rest, id, state =>
    match visit s r value id n state with
    | (.error _, _) | (.ok (.solution _), _) => [n]
    | (.ok (.children l), state) =>
      n :: trail s r value left (l.reverse ++ rest) (id + l.length) state

section

variable {s : SubProblem α} {r : Relaxation α σ}

/-- What is on top of a stack is explored before what is below. -/
theorem trail_append (value : α) (left : Nat) (l rest : List (OpenNode α)) (id : Nat) (a : σ) :
    trail s r value left (l ++ rest) id a =
      match explore s r value left l id a with
      | (below, none) => below
      | (below, some (id, a)) => below ++ trail s r value (left - below.length) rest id a := by
  induction left, l, id, a using explore.induct s r value generalizing rest with
  | case1 left id a => simp [explore]
  | case2 n l id a => simp [explore, trail]
  | case3 left n l id a e b hvisit => simp [explore, trail, hvisit]
  | case4 left n l id a x b hvisit => simp [explore, trail, hvisit]
  | case5 left n l id a children b hvisit below hbelow ih =>
    simp only [explore, trail, hvisit, List.cons_append, hbelow]
    rw [ih, hbelow]
  | case6 left n l id a children b hvisit below id' b' hbelow beside next hbeside ih ih' =>
    simp only [explore, trail, hvisit, List.cons_append, hbelow, hbeside]
    rw [ih, hbelow]
    dsimp only
    rw [ih', hbeside]
    cases next with
    | none => rfl
    | some p =>
      have hleft : left + 1 - (n :: (below ++ beside)).length =
          left - below.length - beside.length := by
        rw [List.length_cons, List.length_append]
        omega
      simp only [hleft, List.append_assoc, List.cons_append]

/-- With a stack and by recursion, nodes come in the same order. -/
theorem trail_eq_explore (value : α) (left : Nat) (l : List (OpenNode α)) (id : Nat) (a : σ) :
    trail s r value left l id a = (explore s r value left l id a).1 := by
  have h := trail_append (s := s) (r := r) value left l [] id a
  rw [List.append_nil] at h
  rw [h]
  split
  · simp [*]
  · simp [*, trail]

end

/-! ### The search with a queue -/

/-- The node that a search takes after `k` others, if it is still without a solution. -/
def taken? (s : SubProblem α) (r : Relaxation α σ) (t : Search α) (state : σ) (k : Nat) :
    Option (OpenNode α) :=
  match loop s r k t state with
  | (.ok t, _) => if t.queue.hasBound then none else t.queue.pop.map (·.1)
  | (.error _, _) => none

/-- The nodes that a search takes as long as it is without a solution, at most `cap`. -/
def dive (s : SubProblem α) (r : Relaxation α σ) (cap : Nat) (t : Search α) (state : σ) :
    List (OpenNode α) :=
  (List.range cap).filterMap (taken? s r t state)

/-- The queues in the course of a search. -/
inductive Moment (s : SubProblem α) (r : Relaxation α σ) (cutoff : α) (state : σ) :
    NodeQueue α → Prop where
  /-- Between two nodes. -/
  | between {k : Nat} {t : Search α} {b : σ}
      (hloop : loop s r k (start s cutoff) state = (.ok t, b)) :
      Moment s r cutoff state t.queue
  /-- A node was taken. -/
  | taken {k : Nat} {t : Search α} {b : σ} {n : OpenNode α} {q : NodeQueue α}
      (hloop : loop s r k (start s cutoff) state = (.ok t, b))
      (hpop : t.queue.pop = some (n, q)) : Moment s r cutoff state q
  /-- Some of its children were opened. -/
  | opened {k : Nat} {t : Search α} {b c : σ} {n : OpenNode α} {q : NodeQueue α}
      {l l' : List (OpenNode α)} (hloop : loop s r k (start s cutoff) state = (.ok t, b))
      (hpop : t.queue.pop = some (n, q))
      (hvisit : visit s r t.value t.nextId n b = (.ok (.children (l ++ l')), c)) :
      Moment s r cutoff state (q.pushAll l)

section

variable {s : SubProblem α} {r : Relaxation α σ} {t t' : Search α} {n : OpenNode α}
  {q : NodeQueue α} {a b : σ} {stack : List (OpenNode α)}

theorem step_of_visit {o : Outcome α} (h : visit s r t.value t.nextId n a = (.ok o, b)) :
    step s r t n a = (.ok (o.apply s t.counted), b) := by
  rw [step_eq_visit, h]
  rfl

theorem exists_visit_of_step (h : step s r t n a = (.ok t', b)) :
    ∃ o, visit s r t.value t.nextId n a = (.ok o, b) ∧ t' = o.apply s t.counted := by
  rw [step_eq_visit] at h
  obtain ⟨hok, hstate⟩ := Prod.mk.inj h
  cases hvisit : visit s r t.value t.nextId n a with
  | mk e c =>
    rw [hvisit] at hok hstate
    subst hstate
    cases e with
    | error e => cases hok
    | ok o => exact ⟨o, rfl, (Except.ok.inj hok).symm⟩

/-- A search that has a solution keeps one. -/
theorem hasBound_of_loop {k : Nat} (ht : t.queue.hasBound = true)
    (h : loop s r k t a = (.ok t', b)) : t'.queue.hasBound = true := by
  refine loop_preserves (P := fun t => t.queue.hasBound = true) ?_ ht h
  intro t n q a t' b ht hpop hstep
  obtain ⟨o, -, rfl⟩ := exists_visit_of_step hstep
  cases o with
  | solution x => exact NodeQueue.hasBound_nowHasBound _
  | children l =>
    exact (NodeQueue.hasBound_pushAll _ _).trans ((NodeQueue.hasBound_of_pop hpop).trans ht)

theorem taken?_of_hasBound (ht : t.queue.hasBound = true) (k : Nat) : taken? s r t a k = none := by
  unfold taken?
  cases h : loop s r k t a with
  | mk e b =>
    cases e with
    | error e => rfl
    | ok t' => exact if_pos (hasBound_of_loop ht h)

theorem taken?_of_pop_eq_none (h : t.queue.pop = none) (k : Nat) : taken? s r t a k = none := by
  unfold taken?
  rw [loop_of_pop_eq_none h]
  dsimp only
  rw [h]
  exact ite_self _

theorem dive_eq_nil {cap : Nat} (h : ∀ k, taken? s r t a k = none) : dive s r cap t a = [] :=
  List.filterMap_eq_nil_iff.2 fun k _ => h k

/-- A search that dives takes a node, and then those that it takes from there on. -/
theorem dive_succ {cap : Nat} (hdives : t.queue.hasBound = false)
    (hpop : t.queue.pop = some (n, q)) :
    dive s r (cap + 1) t a = n :: (List.range cap).filterMap fun k => taken? s r t a (k + 1) := by
  have hfirst : taken? s r t a 0 = some n := by
    rw [taken?, loop]
    dsimp only
    rw [hdives, hpop]
    rfl
  rw [dive, List.range_succ_eq_map, List.filterMap_cons, hfirst, List.filterMap_map]
  rfl

/-- The children of a node that was on top of the stack go on top in turn. -/
theorem isStack_openAll {l l' : List (OpenNode α)}
    (h : t.queue.IsStack t.nextId (n :: stack)) (hq : q.IsStack t.nextId stack)
    (hvisit : visit s r t.value t.nextId n a = (.ok (.children (l ++ l')), b)) :
    (q.pushAll l).IsStack (t.nextId + l.length) (l.reverse ++ stack) :=
  hq.pushAll (areNumbered_append.1 (areNumbered_of_visit hvisit)).1 fun m hm =>
    Nat.le_succ_of_le ((List.pairwise_cons.1 h.ordered).1 m hm).2

/-- If the queue is a stack, then nodes come in the order of the stack. -/
theorem dive_eq_trail {cap : Nat} (h : t.queue.IsStack t.nextId stack) :
    dive s r cap t a = trail s r t.value cap stack t.nextId a := by
  induction cap generalizing t stack a with
  | zero => cases stack <;> simp [dive, trail]
  | succ cap ih =>
    cases hpop : t.queue.pop with
    | none =>
      rw [h.eq_nil_of_pop hpop, dive_eq_nil (taken?_of_pop_eq_none hpop), trail]
    | some p =>
      obtain ⟨n, q⟩ := p
      obtain ⟨rest, rfl, hrest⟩ := h.pop hpop
      let u : Search α := { t with queue := q }
      rw [dive_succ h.dives hpop, trail]
      cases hvisit : visit s r t.value t.nextId n a with
      | mk e b =>
        cases e with
        | error e =>
          have hstep : step s r u n a = (.error e, b) := by
            rw [step_eq_visit, show visit s r u.value u.nextId n a = _ from hvisit]
            rfl
          refine congrArg (n :: ·) (List.filterMap_eq_nil_iff.2 fun k _ => ?_)
          rw [taken?, loop_succ_of_error hpop hstep]
        | ok o =>
          have hnext (k : Nat) : taken? s r t a (k + 1) = taken? s r (o.apply s u.counted) b k := by
            rw [taken?, loop_succ_of_ok hpop (step_of_visit hvisit)]
            rfl
          simp only [hnext]
          cases o with
          | solution x =>
            exact congrArg (n :: ·) (dive_eq_nil
              (taken?_of_hasBound (NodeQueue.hasBound_nowHasBound _)))
          | children l =>
            have hvisit' : visit s r t.value t.nextId n a = (.ok (.children (l ++ [])), b) := by
              rw [hvisit, List.append_nil]
            have hopened := isStack_openAll h hrest hvisit'
            exact congrArg (n :: ·) (ih (t := u.counted.openAll l) hopened)

theorem isStack_start (s : SubProblem α) (cutoff : α) :
    (start s cutoff).queue.IsStack (start s cutoff).nextId
      [⟨0, 0, -Scalar.infinity, s.box⟩] :=
  NodeQueue.isStack_empty.push rfl fun _ hm => by cases hm

/-- The open nodes are numbered, and those of a dive are a stack. -/
structure IsOrdered (t : Search α) : Prop where
  isNumbered : t.queue.IsNumbered t.nextId
  isStack : t.queue.hasBound = false → ∃ stack, t.queue.IsStack t.nextId stack

theorem isOrdered_start (s : SubProblem α) (cutoff : α) : (start s cutoff).IsOrdered :=
  ⟨(isStack_start s cutoff).isNumbered, fun _ => ⟨_, isStack_start s cutoff⟩⟩

/-- Taking a node and opening some of its children leaves the open nodes in order. -/
theorem IsOrdered.opened {l l' : List (OpenNode α)} (ht : t.IsOrdered)
    (hpop : t.queue.pop = some (n, q))
    (hvisit : visit s r t.value t.nextId n a = (.ok (.children (l ++ l')), b)) :
    ({ t with queue := q }.openAll l).IsOrdered where
  isNumbered :=
    (ht.isNumbered.pop hpop).pushAll (areNumbered_append.1 (areNumbered_of_visit hvisit)).1
  isStack hdives := by
    rw [openAll, NodeQueue.hasBound_pushAll, NodeQueue.hasBound_of_pop hpop] at hdives
    obtain ⟨stack, hstack⟩ := ht.isStack hdives
    obtain ⟨rest, rfl, hrest⟩ := hstack.pop hpop
    have hopened := isStack_openAll hstack hrest hvisit
    exact ⟨_, hopened⟩

theorem IsOrdered.step (ht : t.IsOrdered) (hpop : t.queue.pop = some (n, q))
    (hstep : Search.step s r { t with queue := q } n a = (.ok t', b)) : t'.IsOrdered := by
  obtain ⟨o, hvisit, rfl⟩ := exists_visit_of_step hstep
  cases o with
  | solution x =>
    refine ⟨(ht.isNumbered.pop hpop).of_perm (NodeQueue.toList_nowHasBound q), fun h => ?_⟩
    cases (NodeQueue.hasBound_nowHasBound q).symm.trans h
  | children l =>
    rw [← List.append_nil l] at hvisit
    have hopened := ht.opened hpop hvisit
    exact ⟨hopened.isNumbered, hopened.isStack⟩

theorem IsOrdered.loop {k : Nat} (ht : t.IsOrdered) (h : Search.loop s r k t a = (.ok t', b)) :
    t'.IsOrdered :=
  loop_preserves (P := IsOrdered) (fun _ _ _ _ _ _ ht hpop hstep => ht.step hpop hstep) ht h

/-- The open nodes are in order in the course of a whole search. -/
theorem Moment.exists_isOrdered {cutoff : α} (h : Moment s r cutoff a q) :
    ∃ t : Search α, t.queue = q ∧ t.IsOrdered := by
  have hstart := isOrdered_start s cutoff
  cases h with
  | between hloop => exact ⟨_, rfl, hstart.loop hloop⟩
  | @taken k t b n q hloop hpop =>
    have ht := hstart.loop hloop
    refine ⟨{ t with queue := q }, rfl, ht.isNumbered.pop hpop, fun hdives => ?_⟩
    obtain ⟨stack, hstack⟩ := ht.isStack ((NodeQueue.hasBound_of_pop hpop).symm.trans hdives)
    obtain ⟨rest, -, hrest⟩ := hstack.pop hpop
    exact ⟨rest, hrest⟩
  | opened hloop hpop hvisit => exact ⟨_, rfl, (hstart.loop hloop).opened hpop hvisit⟩

end

/-- Before its first solution a search takes its nodes in the order of a recursive depth-first
search, and of two open nodes the later one is at least as deep. All open nodes have numbers of
their own, also later on. -/
theorem isDive (s : SubProblem α) (r : Relaxation α σ) (cutoff : α) (state : σ) :
    (∀ cap, dive s r cap (start s cutoff) state =
      (explore s r cutoff cap [⟨0, 0, -Scalar.infinity, s.box⟩] 1 state).1) ∧
    ∀ q, Moment s r cutoff state q → (q.toList.map (·.id)).Nodup ∧
      (q.hasBound = false → ∀ m ∈ q.toList, ∀ m' ∈ q.toList, m.id ≤ m'.id → m.depth ≤ m'.depth) := by
  refine ⟨fun cap => ?_, fun q hq => ?_⟩
  · rw [dive_eq_trail (isStack_start s cutoff)]
    exact trail_eq_explore ..
  · obtain ⟨t, rfl, ht⟩ := hq.exists_isOrdered
    refine ⟨ht.isNumbered.nodup, fun hdives => ?_⟩
    obtain ⟨stack, hstack⟩ := ht.isStack hdives
    exact hstack.depth_le

end Search

end PrimalHeuristics
