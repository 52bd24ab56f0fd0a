import Mathlib.Data.Multiset.AddSub
import Mathlib.Order.Defs.LinearOrder
import PrimalHeuristics.Binary64.Arithmetic
import PrimalHeuristics.Proofs.Binary64.Order
import PrimalHeuristics.Proofs.Heap
import PrimalHeuristics.Proofs.Search.Branches
import PrimalHeuristics.Proofs.Search.Queue
import PrimalHeuristics.SubProblem.Queue

/-!
# The queue of open nodes is a multiset in order

Under any sequence of operations the queue of open nodes behaves as the multiset of the nodes that
were pushed and not yet popped: the node that is popped is a greatest one in the order in force, and
there is none only if no node is open. If the order in force tells all open nodes apart whenever one
is popped, then it does not matter in which order, or by which operations, they came to be open.

What the order tells apart are depth and number while the search dives, and the bound as well once
it has a solution. Two nodes that differ in nothing but their bounds are equal to a dive, and which
one comes first depends on the heap.

* `OpenNode.transCmp_dive`, `OpenNode.transCmp_compare`: both orders of open nodes are orders;
* `NodeQueue.compare_ne_gt_of_pop`: the node that is popped is a greatest one;
* `OpenNodes.Allows`: what an operation may answer;
* `NodeQueue.isSortedMultiset`: the queue answers so, and is settled by its nodes.
-/

namespace PrimalHeuristics

open Std (TransCmp OrientedCmp LawfulEqCmp)

/-! ### The order of all values -/

namespace Binary64

instance : TransCmp (Scalar.totalCompare : Binary64 → Binary64 → Ordering) :=
  inferInstanceAs (TransCmp (compareOn orderWord))

instance : LawfulEqCmp (Scalar.totalCompare : Binary64 → Binary64 → Ordering) where
  compare_self := Std.ReflCmp.compare_self
  eq_of_compare h := orderWord_injective (Std.compare_eq_iff_eq.1 h)

end Binary64

variable {α : Type} [Scalar α]

theorem Scalar.totalCompare_eq_gt_iff [TransCmp (Scalar.totalCompare : α → α → Ordering)] {x y : α} :
    Scalar.totalCompare x y = .gt ↔ Scalar.totalCompare y x = .lt :=
  OrientedCmp.gt_iff_lt

/-! ### The orders of open nodes -/

namespace OpenNode

theorem notBefore_iff {hasBound : Bool} {l r : OpenNode α} :
    notBefore hasBound l r = true ↔ l.compare hasBound r ≠ .gt :=
  bne_iff_ne

theorem compare_eq_gt_iff {hasBound : Bool}
    [TransCmp (compare hasBound : OpenNode α → OpenNode α → Ordering)] {l r : OpenNode α} :
    l.compare hasBound r = .gt ↔ r.compare hasBound l = .lt :=
  OrientedCmp.gt_iff_lt

/-- While a search dives, nodes are ordered whatever their bounds are. -/
instance transCmp_dive : TransCmp (compare false : OpenNode α → OpenNode α → Ordering) :=
  inferInstanceAs (TransCmp (compareLex (compareOn fun n : OpenNode α => n.depth)
    (compareOn fun n : OpenNode α => n.id)))

/-- Both orders of open nodes are orders, if that of all values is one. -/
instance transCmp_compare [TransCmp (Scalar.totalCompare : α → α → Ordering)] (hasBound : Bool) :
    TransCmp (compare hasBound : OpenNode α → OpenNode α → Ordering) := by
  have hbound : TransCmp fun l r : OpenNode α => Scalar.totalCompare r.bound l.bound :=
    { eq_swap := OrientedCmp.eq_swap
      isLE_trans := fun h k => TransCmp.isLE_trans k h }
  cases hasBound with
  | false => exact transCmp_dive
  | true =>
    exact inferInstanceAs (TransCmp
      (compareLex (fun l r : OpenNode α => Scalar.totalCompare r.bound l.bound) (compare false)))

theorem isOrder_notBefore (hasBound : Bool)
    [TransCmp (compare hasBound : OpenNode α → OpenNode α → Ordering)] :
    Heap.IsOrder (notBefore hasBound : OpenNode α → OpenNode α → Bool) where
  total l r := by
    rw [notBefore_iff, notBefore_iff, Ne, compare_eq_gt_iff]
    cases r.compare hasBound l <;> simp
  trans {l m r} h k := by
    simp only [notBefore_iff, ne_eq, Ordering.ne_gt_iff_isLE] at *
    exact TransCmp.isLE_trans h k

/-- The order in force tells two nodes apart. -/
def Differ (hasBound : Bool) (m n : OpenNode α) : Prop :=
  m.depth ≠ n.depth ∨ m.id ≠ n.id ∨ (hasBound = true ∧ m.bound ≠ n.bound)

instance (hasBound : Bool) : Std.Symm (Differ hasBound : OpenNode α → OpenNode α → Prop) where
  symm _ _ h := h.imp Ne.symm (Or.imp Ne.symm (And.imp_right Ne.symm))

theorem compare_eq_eq_iff [LawfulEqCmp (Scalar.totalCompare : α → α → Ordering)] {hasBound : Bool}
    {m n : OpenNode α} : m.compare hasBound n = .eq ↔ ¬ Differ hasBound m n := by
  have hbound : Scalar.totalCompare n.bound m.bound = .eq ↔ n.bound = m.bound :=
    Std.LawfulEqCmp.compare_eq_iff_eq
  cases hasBound <;>
    simp [compare, Differ, Ordering.then_eq_eq, hbound, eq_comm (a := m.bound), and_assoc, and_comm]

end OpenNode

/-! ### The queue as a heap -/

namespace NodeQueue

variable {q r : NodeQueue α} {n : OpenNode α}

/-- The nodes form a heap for the order in force. -/
def IsHeap (q : NodeQueue α) : Prop :=
  q.nodes.IsHeap (OpenNode.notBefore q.hasBound)

theorem isHeap_empty : (empty : NodeQueue α).IsHeap :=
  Heap.isHeap_empty _

theorem hasBound_of_pop (h : q.pop = some (n, r)) : r.hasBound = q.hasBound := by
  obtain ⟨p, -, he⟩ := Option.map_eq_some_iff.1 h
  cases he
  rfl

@[simp] theorem hasBound_nowHasBound (q : NodeQueue α) : q.nowHasBound.hasBound = true := by
  unfold nowHasBound
  split
  · assumption
  · rfl

theorem pop_eq_none_iff : q.pop = none ↔ q.toList = [] := by
  refine ⟨toList_of_pop_eq_none, fun h => ?_⟩
  cases hpop : q.pop with
  | none => rfl
  | some p =>
    have := (toList_pop (n := p.1) (r := p.2) hpop).length_eq
    rw [h] at this
    simp at this

theorem lowestBy_eq_none_iff {key : OpenNode α → α} : q.lowestBy key = none ↔ q.toList = [] := by
  unfold lowestBy
  rw [Scalar.firstLeast_eq_none, List.map_eq_nil_iff]
  rfl

section

variable [TransCmp (OpenNode.compare q.hasBound : OpenNode α → OpenNode α → Ordering)]

theorem IsHeap.push (hq : q.IsHeap) (n : OpenNode α) : (q.push n).IsHeap :=
  Heap.isHeap_push (OpenNode.isOrder_notBefore _) hq n

theorem IsHeap.pop (hq : q.IsHeap) (h : q.pop = some (n, r)) : r.IsHeap := by
  obtain ⟨p, hpop, he⟩ := Option.map_eq_some_iff.1 h
  cases he
  exact Heap.isHeap_of_pop (OpenNode.isOrder_notBefore _) hq hpop

/-- The node that is popped is a greatest one in the order in force. -/
theorem compare_ne_gt_of_pop (hq : q.IsHeap) (h : q.pop = some (n, r)) :
    ∀ m ∈ q.toList, m.compare q.hasBound n ≠ .gt := by
  obtain ⟨p, hpop, he⟩ := Option.map_eq_some_iff.1 h
  cases he
  intro m hm
  exact OpenNode.notBefore_iff.1 (Heap.le_of_pop (OpenNode.isOrder_notBefore _) hq hpop m hm)

end

variable [TransCmp (Scalar.totalCompare : α → α → Ordering)]

/-- The new order takes hold of all nodes at once. -/
theorem IsHeap.nowHasBound (hq : q.IsHeap) : q.nowHasBound.IsHeap := by
  unfold NodeQueue.nowHasBound
  split
  · exact hq
  · exact Heap.isHeap_ofList (OpenNode.isOrder_notBefore _) _

/-- The least value of a key is that of an open node, and no open node has a smaller one. -/
theorem of_lowestBy {key : OpenNode α → α} {x : α} (h : q.lowestBy key = some x) :
    (∃ n ∈ q.toList, key n = x) ∧ ∀ m ∈ q.toList, Scalar.totalCompare x (key m) ≠ .gt := by
  have hself (x : α) : Scalar.totalCompare x x ≠ .lt := by
    rw [show Scalar.totalCompare x x = .eq from Std.ReflCmp.compare_self]
    nofun
  have htrans (x c d : α) (hd : Scalar.totalCompare d c = .lt)
      (hx : Scalar.totalCompare x c ≠ .lt) : Scalar.totalCompare x d ≠ .lt :=
    fun hlt => hx (TransCmp.lt_trans hlt hd)
  refine ⟨List.mem_map.1 (Scalar.mem_of_firstLeast h), fun m hm => ?_⟩
  rw [Ne, Scalar.totalCompare_eq_gt_iff]
  exact Scalar.not_lt_firstLeast hself htrans h (List.mem_map_of_mem hm)

/-- If the order in force tells all open nodes apart, then which one is popped is settled. -/
theorem eq_of_pop [LawfulEqCmp (Scalar.totalCompare : α → α → Ordering)] {q' r' : NodeQueue α}
    {n' : OpenNode α} (hq : q.IsHeap) (hq' : q'.IsHeap) (hsame : q.hasBound = q'.hasBound)
    (hperm : q.toList.Perm q'.toList) (hapart : q.toList.Pairwise (OpenNode.Differ q.hasBound))
    (h : q.pop = some (n, r)) (h' : q'.pop = some (n', r')) : n = n' := by
  have hn : n ∈ q.toList := (mem_of_pop h).2 (.inl rfl)
  have hn' : n' ∈ q.toList := hperm.mem_iff.2 ((mem_of_pop h').2 (.inl rfl))
  have hle := compare_ne_gt_of_pop hq h n' hn'
  have hge := compare_ne_gt_of_pop hq' h' n (hperm.mem_iff.1 hn)
  rw [← hsame, Ne, OpenNode.compare_eq_gt_iff] at hge
  have heq : n'.compare q.hasBound n = .eq := by
    cases hc : n'.compare q.hasBound n with
    | lt => exact absurd hc hge
    | eq => rfl
    | gt => exact absurd hc hle
  by_contra hne
  exact OpenNode.compare_eq_eq_iff.1 heq (hapart.forall hn' hn (Ne.symm hne))

end NodeQueue

/-! ### Operations -/

/-- An operation on the queue of open nodes. -/
inductive QueueOp (α : Type) where
  | push (n : OpenNode α)
  | pop
  | nowHasBound
  | lowestBy (key : OpenNode α → α)

/-- What an operation answers. -/
inductive QueueReply (α : Type) where
  | done
  | node (n : Option (OpenNode α))
  | value (x : Option α)

namespace NodeQueue

/-- The answer of an operation, and the queue that it leaves. -/
def act (q : NodeQueue α) : QueueOp α → QueueReply α × NodeQueue α
  | .push n => (.done, q.push n)
  | .pop =>
    match q.pop with
    | none => (.node none, q)
    | some (n, r) => (.node (some n), r)
  | .nowHasBound => (.done, q.nowHasBound)
  | .lowestBy key => (.value (q.lowestBy key), q)

theorem fst_act_pop (q : NodeQueue α) : (q.act .pop).1 = .node (q.pop.map (·.1)) := by
  rw [act]
  cases q.pop <;> rfl

/-- The answers of operations one after another. -/
def replies (q : NodeQueue α) : List (QueueOp α) → List (QueueReply α)
  | [] => []
  | op :: ops => (q.act op).1 :: (q.act op).2.replies ops

/-- The queue that operations leave. -/
def after (q : NodeQueue α) (ops : List (QueueOp α)) : NodeQueue α :=
  ops.foldl (fun q op => (q.act op).2) q

end NodeQueue

/-- The open nodes, as a multiset, and whether the order in force is that of bounds. -/
structure OpenNodes (α : Type) where
  nodes : Multiset (OpenNode α)
  hasBound : Bool

namespace OpenNodes

/-- What an operation may answer, and what it leaves. -/
inductive Allows : OpenNodes α → QueueOp α → QueueReply α → OpenNodes α → Prop where
  | push (N : Multiset (OpenNode α)) (b : Bool) (n : OpenNode α) :
      Allows ⟨N, b⟩ (.push n) .done ⟨n ::ₘ N, b⟩
  | popNone (b : Bool) : Allows ⟨0, b⟩ .pop (.node none) ⟨0, b⟩
  /-- The node that is popped is a greatest one in the order in force. -/
  | popSome (N : Multiset (OpenNode α)) (b : Bool) (n : OpenNode α)
      (greatest : ∀ m ∈ N, m.compare b n ≠ .gt) :
      Allows ⟨n ::ₘ N, b⟩ .pop (.node (some n)) ⟨N, b⟩
  | nowHasBound (N : Multiset (OpenNode α)) (b : Bool) :
      Allows ⟨N, b⟩ .nowHasBound .done ⟨N, true⟩
  | lowestNone (b : Bool) (key : OpenNode α → α) :
      Allows ⟨0, b⟩ (.lowestBy key) (.value none) ⟨0, b⟩
  | lowestSome (N : Multiset (OpenNode α)) (b : Bool) (key : OpenNode α → α) (n : OpenNode α)
      (hn : n ∈ N) (least : ∀ m ∈ N, Scalar.totalCompare (key n) (key m) ≠ .gt) :
      Allows ⟨N, b⟩ (.lowestBy key) (.value (some (key n))) ⟨N, b⟩

/-- What operations one after another may answer, and what they leave. -/
inductive AllowsAll : OpenNodes α → List (QueueOp α) → List (QueueReply α) → OpenNodes α → Prop where
  | nil (S : OpenNodes α) : AllowsAll S [] [] S
  | cons {S T U : OpenNodes α} {op : QueueOp α} {ops : List (QueueOp α)} {a : QueueReply α}
      {l : List (QueueReply α)} (head : Allows S op a T) (tail : AllowsAll T ops l U) :
      AllowsAll S (op :: ops) (a :: l) U

end OpenNodes

namespace NodeQueue

/-- The open nodes of a queue. -/
def view (q : NodeQueue α) : OpenNodes α :=
  ⟨q.toList, q.hasBound⟩

@[simp] theorem view_push (q : NodeQueue α) (n : OpenNode α) :
    (q.push n).view = ⟨n ::ₘ q.toList, q.hasBound⟩ := by
  rw [view, Multiset.coe_eq_coe.2 (toList_push q n)]
  rfl

theorem view_push_swap (q : NodeQueue α) (m n : OpenNode α) :
    ((q.push m).push n).view = ((q.push n).push m).view := by
  have hm : ((q.push m).toList : Multiset (OpenNode α)) = m ::ₘ q.toList :=
    congrArg OpenNodes.nodes (view_push q m)
  have hn : ((q.push n).toList : Multiset (OpenNode α)) = n ::ₘ q.toList :=
    congrArg OpenNodes.nodes (view_push q n)
  rw [view_push, view_push, hm, hn, Multiset.cons_swap]
  rfl

@[simp] theorem view_nowHasBound (q : NodeQueue α) : q.nowHasBound.view = ⟨q.toList, true⟩ := by
  rw [view, Multiset.coe_eq_coe.2 (toList_nowHasBound q), hasBound_nowHasBound]

omit [Scalar α] in
theorem view_eq_iff {q q' : NodeQueue α} :
    q.view = q'.view ↔ q.toList.Perm q'.toList ∧ q.hasBound = q'.hasBound := by
  rw [view, view, OpenNodes.mk.injEq, Multiset.coe_eq_coe]

section

variable [TransCmp (Scalar.totalCompare : α → α → Ordering)] {q : NodeQueue α}

theorem IsHeap.act (hq : q.IsHeap) (op : QueueOp α) : (q.act op).2.IsHeap := by
  cases op with
  | push n => exact hq.push n
  | nowHasBound => exact hq.nowHasBound
  | lowestBy key => exact hq
  | pop =>
    cases hpop : q.pop with
    | none => simpa only [NodeQueue.act, hpop] using hq
    | some p => simpa only [NodeQueue.act, hpop] using hq.pop hpop

theorem IsHeap.after (hq : q.IsHeap) (ops : List (QueueOp α)) : (q.after ops).IsHeap := by
  unfold NodeQueue.after
  induction ops generalizing q with
  | nil => exact hq
  | cons op ops ih => exact ih (hq.act op)

/-- The answer to one operation is one that the open nodes allow. -/
theorem allows_act (hq : q.IsHeap) (op : QueueOp α) :
    q.view.Allows op (q.act op).1 (q.act op).2.view := by
  have hempty (h : q.toList = []) : q.view = ⟨0, q.hasBound⟩ := by
    rw [view, h]
    rfl
  cases op with
  | push n =>
    rw [NodeQueue.act, view_push]
    exact .push ..
  | nowHasBound =>
    rw [NodeQueue.act, view_nowHasBound]
    exact .nowHasBound ..
  | pop =>
    cases hpop : q.pop with
    | none =>
      simp only [NodeQueue.act, hpop]
      rw [hempty (pop_eq_none_iff.1 hpop)]
      exact .popNone _
    | some p =>
      obtain ⟨n, r⟩ := p
      simp only [NodeQueue.act, hpop]
      have hview : q.view = ⟨n ::ₘ r.toList, q.hasBound⟩ := by
        rw [view, ← Multiset.coe_eq_coe.2 (toList_pop hpop)]
        rfl
      rw [hview, show r.view = ⟨r.toList, q.hasBound⟩ by rw [view, hasBound_of_pop hpop]]
      exact .popSome _ _ _ fun m hm =>
        compare_ne_gt_of_pop hq hpop m ((mem_of_pop hpop).2 (.inr hm))
  | lowestBy key =>
    rw [NodeQueue.act]
    cases hlowest : q.lowestBy key with
    | none =>
      rw [hempty (lowestBy_eq_none_iff.1 hlowest)]
      exact .lowestNone ..
    | some x =>
      obtain ⟨⟨n, hn, rfl⟩, hleast⟩ := of_lowestBy hlowest
      exact .lowestSome _ _ key n hn hleast

/-- So are the answers to operations one after another. -/
theorem allowsAll_replies (hq : q.IsHeap) (ops : List (QueueOp α)) :
    q.view.AllowsAll ops (q.replies ops) (q.after ops).view := by
  induction ops generalizing q with
  | nil => exact .nil _
  | cons op ops ih => exact .cons (allows_act hq op) (ih (hq.act op))

end

/-! ### Queues with the same nodes -/

/-- Whenever a node is popped, any two open nodes are apart, in the sense for the order in force. -/
def KeepsApart (apart : Bool → OpenNode α → OpenNode α → Prop) :
    NodeQueue α → List (QueueOp α) → Prop
  | _, [] => True
  | q, .pop :: ops => q.toList.Pairwise (apart q.hasBound) ∧ KeepsApart apart (q.act .pop).2 ops
  | q, op :: ops => KeepsApart apart (q.act op).2 ops

/-- Queues that hold the same nodes, in whatever order and by whatever operations they came to be
open, answer alike as long as any two open nodes are apart whenever one is popped. -/
def IsSettledBy (apart : Bool → OpenNode α → OpenNode α → Prop) : Prop :=
  ∀ h h' ops : List (QueueOp α), (empty.after h).view = (empty.after h').view →
    KeepsApart apart (empty.after h) ops → (empty.after h).replies ops = (empty.after h').replies ops

section

variable [TransCmp (Scalar.totalCompare : α → α → Ordering)]
  [LawfulEqCmp (Scalar.totalCompare : α → α → Ordering)] {q q' : NodeQueue α}

/-- The least value of a key depends on the nodes alone. -/
theorem lowestBy_eq (hperm : q.toList.Perm q'.toList) (key : OpenNode α → α) :
    q.lowestBy key = q'.lowestBy key := by
  cases h : q.lowestBy key with
  | none =>
    rw [lowestBy_eq_none_iff] at h
    exact (lowestBy_eq_none_iff.2 (by simpa [h] using hperm)).symm
  | some x =>
    cases h' : q'.lowestBy key with
    | none =>
      rw [lowestBy_eq_none_iff] at h'
      rw [h', List.perm_nil] at hperm
      exact absurd (h.symm.trans (lowestBy_eq_none_iff.2 hperm)) (Option.some_ne_none x)
    | some x' =>
      obtain ⟨⟨n, hn, rfl⟩, hleast⟩ := of_lowestBy h
      obtain ⟨⟨n', hn', rfl⟩, hleast'⟩ := of_lowestBy h'
      have hle := hleast n' (hperm.mem_iff.2 hn')
      have hge := hleast' n (hperm.mem_iff.1 hn)
      rw [Ne, Scalar.totalCompare_eq_gt_iff] at hge
      have heq : Scalar.totalCompare (key n) (key n') = .eq := by
        cases hc : Scalar.totalCompare (key n) (key n') with
        | lt => exact absurd hc hge
        | eq => rfl
        | gt => exact absurd hc hle
      rw [show key n = key n' from LawfulEqCmp.eq_of_compare heq]

theorem replies_eq (ops : List (QueueOp α)) (hq : q.IsHeap) (hq' : q'.IsHeap)
    (hview : q.view = q'.view) (hapart : KeepsApart OpenNode.Differ q ops) :
    q.replies ops = q'.replies ops := by
  induction ops generalizing q q' with
  | nil => rfl
  | cons op ops ih =>
    obtain ⟨hperm, hsame⟩ := view_eq_iff.1 hview
    -- it is enough that the answers are the same, and the nodes that are left
    have next (ha : (q.act op).1 = (q'.act op).1)
        (hv : (q.act op).2.view = (q'.act op).2.view)
        (hk : KeepsApart OpenNode.Differ (q.act op).2 ops) :
        q.replies (op :: ops) = q'.replies (op :: ops) := by
      rw [replies, replies, ha, ih (hq.act op) (hq'.act op) hv hk]
    cases op with
    | push n =>
      refine next rfl ?_ hapart
      rw [act, act, view_push, view_push, Multiset.coe_eq_coe.2 hperm, hsame]
    | nowHasBound =>
      refine next rfl ?_ hapart
      rw [act, act, view_nowHasBound, view_nowHasBound, Multiset.coe_eq_coe.2 hperm]
    | lowestBy key =>
      exact next (congrArg QueueReply.value (lowestBy_eq hperm key)) hview hapart
    | pop =>
      obtain ⟨hdiffer, hrest⟩ := hapart
      cases hpop : q.pop with
      | none =>
        have hpop' : q'.pop = none := by
          rw [pop_eq_none_iff] at hpop ⊢
          simpa [hpop] using hperm
        exact next (by simp only [act, hpop, hpop']) (by simpa only [act, hpop, hpop']) hrest
      | some p =>
        obtain ⟨n, r⟩ := p
        cases hpop' : q'.pop with
        | none =>
          rw [pop_eq_none_iff] at hpop'
          rw [hpop', List.perm_nil, ← pop_eq_none_iff, hpop] at hperm
          contradiction
        | some p' =>
          obtain ⟨n', r'⟩ := p'
          obtain rfl := eq_of_pop hq hq' hsame hperm hdiffer hpop hpop'
          refine next (by simp only [act, hpop, hpop']) ?_ hrest
          simp only [act, hpop, hpop']
          rw [view_eq_iff, hasBound_of_pop hpop, hasBound_of_pop hpop']
          exact ⟨(List.perm_cons n).1
            ((toList_pop hpop).trans (hperm.trans (toList_pop hpop').symm)), hsame⟩

end

/-- The queue answers what the multiset of its open nodes allows, and is settled by that multiset as
long as the order in force tells all open nodes apart whenever one is popped. -/
theorem isSortedMultiset :
    (∀ ops : List (QueueOp Binary64),
      OpenNodes.AllowsAll ⟨0, false⟩ ops (empty.replies ops) (empty.after ops).view) ∧
    IsSettledBy (α := Binary64) OpenNode.Differ :=
  ⟨fun ops => allowsAll_replies isHeap_empty ops, fun h h' ops hview hapart =>
    replies_eq ops (isHeap_empty.after h) (isHeap_empty.after h') hview hapart⟩

/-- Two nodes with numbers of their own come in the same order, whichever was pushed first. -/
theorem isSortedMultiset_twoNodes :
    let m : OpenNode Binary64 := ⟨1, 1, 0, ⟨#[], #[]⟩⟩
    let n : OpenNode Binary64 := ⟨2, 1, 0, ⟨#[], #[]⟩⟩
    let q := (empty.push m).push n
    q.view = ((empty.push n).push m).view ∧ KeepsApart OpenNode.Differ q [.pop] ∧
      q.replies [.pop] = ((empty.push n).push m).replies [.pop] := by
  intro m n q
  have hview : q.view = ((empty.push n).push m).view := view_push_swap empty m n
  have hdiffer : [n, m].Pairwise (OpenNode.Differ false) := by
    simp [m, n, OpenNode.Differ]
  have hapart : KeepsApart OpenNode.Differ q [.pop] :=
    ⟨hdiffer.perm ((toList_push _ n).trans (.cons n (toList_push empty m))).symm
      fun h => Std.Symm.symm _ _ h, trivial⟩
  exact ⟨hview, hapart,
    isSortedMultiset.2 [.push m, .push n] [.push n, .push m] [.pop] hview hapart⟩

/-- Of two nodes that were pushed, a dive takes the first unless the second comes before it. -/
theorem fst_pop_push_push (m n : OpenNode α) :
    (((empty : NodeQueue α).push m).push n).pop.map (·.1) =
      some (if OpenNode.notBefore false n m then m else n) := by
  have hroot : Heap.turns 1 = [] := by simp [Heap.turns]
  have hleft : Heap.turns 2 = [false] := by simp [Heap.turns]
  cases h : OpenNode.notBefore false n m <;>
    simp [push, pop, empty, h, Heap.push, Heap.insertAt, Heap.raiseLeft, Heap.pop, Heap.takeAt,
      Heap.replaceRoot, Heap.root?, Heap.size, hroot, hleft]

/-- The order of pushes matters to nodes that differ in nothing but their bounds. -/
theorem replies_ne_of_equal_numbers :
    let m : OpenNode Binary64 := ⟨1, 1, 0, ⟨#[], #[]⟩⟩
    let n : OpenNode Binary64 := ⟨1, 1, 1, ⟨#[], #[]⟩⟩
    (m.bound, m.depth, m.id) ≠ (n.bound, n.depth, n.id) ∧
      ((empty.push m).push n).view = ((empty.push n).push m).view ∧
      ((empty.push m).push n).replies [.pop] ≠ ((empty.push n).push m).replies [.pop] := by
  intro m n
  have hbound : m.bound ≠ n.bound := by
    decide
  refine ⟨fun h => hbound (Prod.ext_iff.1 h).1, view_push_swap empty m n, fun h => ?_⟩
  have hfirst : OpenNode.notBefore false n m = true := by decide
  have hfirst' : OpenNode.notBefore false m n = true := by decide
  simp only [replies, fst_act_pop, fst_pop_push_push, if_pos hfirst, if_pos hfirst'] at h
  obtain ⟨h, -⟩ := List.cons.inj h
  exact hbound (congrArg OpenNode.bound (Option.some.inj (QueueReply.node.inj h)))

end NodeQueue

end PrimalHeuristics
