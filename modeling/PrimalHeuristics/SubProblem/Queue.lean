import PrimalHeuristics.Heap
import PrimalHeuristics.SubProblem

/-!
# The open nodes of a search

Until the search has a solution it dives: the deepest node comes first, and of those the latest.
From the first solution on the node with the lowest bound comes first, and of those the deepest, and
the latest. The order changes only once. Nodes that it does not tell apart come as the heap has
them.

* `OpenNode.compare`: `gt` if the first node is taken before the second;
* `NodeQueue.push`, `NodeQueue.pop`, `NodeQueue.nowHasBound`, `NodeQueue.lowestBy`.
-/

namespace PrimalHeuristics

variable {α : Type}

/-- A node that is still to be searched. -/
structure OpenNode (α : Type) where
  id : Nat
  depth : Nat
  /-- The bound that the parent passed on. -/
  bound : α
  box : Box α

/-- The open nodes, as a heap. -/
structure NodeQueue (α : Type) where
  nodes : Heap (OpenNode α)
  /-- The order is that of bounds. -/
  hasBound : Bool

variable [Scalar α]

namespace OpenNode

/-- The order in force: the greater node is taken first. -/
def compare (hasBound : Bool) (l r : OpenNode α) : Ordering :=
  let dive := (Ord.compare l.depth r.depth).then (Ord.compare l.id r.id)
  if hasBound then (Scalar.totalCompare r.bound l.bound).then dive else dive

/-- The first node is not taken before the second. -/
def notBefore (hasBound : Bool) (l r : OpenNode α) : Bool :=
  l.compare hasBound r != .gt

end OpenNode

namespace NodeQueue

/-- The queue of a search that has no solution and no open node. -/
def empty : NodeQueue α :=
  ⟨.empty, false⟩

/-- Adds a node. -/
def push (q : NodeQueue α) (n : OpenNode α) : NodeQueue α :=
  { q with nodes := q.nodes.push (OpenNode.notBefore q.hasBound) n }

/-- The node that is next, and the queue without it. -/
def pop (q : NodeQueue α) : Option (OpenNode α × NodeQueue α) :=
  (q.nodes.pop (OpenNode.notBefore q.hasBound)).map fun (n, nodes) => (n, { q with nodes })

/-- From now on the order is that of bounds. -/
def nowHasBound (q : NodeQueue α) : NodeQueue α :=
  if q.hasBound then q
  else ⟨.ofList (OpenNode.notBefore true) q.nodes.toList, true⟩

/-- The least value of a key over the open nodes. -/
def lowestBy (q : NodeQueue α) (key : OpenNode α → α) : Option α :=
  Scalar.firstLeast id (q.nodes.toList.map key)

def size (q : NodeQueue α) : Nat :=
  q.nodes.size

def isEmpty (q : NodeQueue α) : Bool :=
  q.nodes.isEmpty

end NodeQueue

end PrimalHeuristics
