import PrimalHeuristics.SubProblem.Queue

/-!
# The entries of the queue of open nodes

Whatever the order in force, the queue holds the nodes that were pushed and not yet popped.

* `Heap.toList_ofList`, `Heap.toList_of_pop_eq_none`: what a heap holds;
* `NodeQueue.toList_push`, `NodeQueue.toList_pop`, `NodeQueue.toList_nowHasBound`: the open nodes
  after an operation.
-/

namespace PrimalHeuristics

namespace Heap

variable {β : Type}

theorem toList_ofList (le : β → β → Bool) (l : List β) : (ofList le l).toList.Perm l := by
  suffices ∀ h : Heap β, (l.foldl (push le) h).toList.Perm (l ++ h.toList) by
    simpa [ofList] using this empty
  induction l with
  | nil => exact fun h => .refl _
  | cons x l ih =>
    intro h
    calc
      (l.foldl (push le) (h.push le x)).toList
      _ |>.Perm (l ++ (h.push le x).toList) := ih _
      _ |>.Perm (l ++ x :: h.toList) := .append_left _ (toList_push ..)
      _ |>.Perm (x :: (l ++ h.toList)) := List.perm_middle

theorem toList_of_pop_eq_none {le : β → β → Bool} {h : Heap β} (e : h.pop le = none) :
    h.toList = [] := by
  unfold pop at e
  split at e
  · rename_i e'
    rw [eq_empty_of_takeAt e', toList_empty]
  · contradiction
  · contradiction

end Heap

namespace NodeQueue

variable {α : Type}

/-- The open nodes. -/
def toList (q : NodeQueue α) : List (OpenNode α) :=
  q.nodes.toList

@[simp] theorem toList_empty : (empty : NodeQueue α).toList = [] := rfl

variable [Scalar α] {q r : NodeQueue α} {n m : OpenNode α}

theorem toList_push (q : NodeQueue α) (n : OpenNode α) :
    (q.push n).toList.Perm (n :: q.toList) :=
  Heap.toList_push ..

theorem toList_pop (h : q.pop = some (n, r)) : (n :: r.toList).Perm q.toList := by
  obtain ⟨⟨v, rest⟩, hpop, he⟩ := Option.map_eq_some_iff.1 h
  cases he
  exact Heap.toList_pop hpop

theorem toList_of_pop_eq_none (h : q.pop = none) : q.toList = [] :=
  Heap.toList_of_pop_eq_none (Option.map_eq_none_iff.1 h)

theorem toList_nowHasBound (q : NodeQueue α) : q.nowHasBound.toList.Perm q.toList := by
  unfold nowHasBound
  split
  · exact .refl _
  · exact Heap.toList_ofList ..

@[simp] theorem mem_push : m ∈ (q.push n).toList ↔ m = n ∨ m ∈ q.toList := by
  rw [(toList_push q n).mem_iff, List.mem_cons]

theorem mem_of_pop (h : q.pop = some (n, r)) : m ∈ q.toList ↔ m = n ∨ m ∈ r.toList := by
  rw [← (toList_pop h).mem_iff, List.mem_cons]

@[simp] theorem mem_nowHasBound : m ∈ q.nowHasBound.toList ↔ m ∈ q.toList :=
  (toList_nowHasBound q).mem_iff

end NodeQueue

end PrimalHeuristics
