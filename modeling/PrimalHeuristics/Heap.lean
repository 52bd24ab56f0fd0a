/-!
# Binary heaps

A heap is a binary tree that is filled level by level, from the left; no entry is greater than the
one above it, so the root is a greatest entry. The order is handed to every operation. Which of
several equal entries comes first is settled by the way entries move:

* a new entry takes the first free place, and rises as long as it is greater than the one above;
* for a root that is taken, the entry at the last place steps in: the greater child of every level
  moves up, of equal ones the right one, and the entry rises from the free place at the bottom.

`Heap.push` and `Heap.pop` do that. `Heap.toList_push` and `Heap.toList_pop` say that nothing else
comes or goes, whatever the order is.
-/

namespace PrimalHeuristics

/-- A binary tree. -/
inductive Heap (β : Type) where
  | empty
  | node (value : β) (left right : Heap β)

namespace Heap

variable {β : Type}

def root? : Heap β → Option β
  | empty => none
  | node v _ _ => some v

def isEmpty : Heap β → Bool
  | empty => true
  | node .. => false

def size : Heap β → Nat
  | empty => 0
  | node _ l r => l.size + r.size + 1

/-- The entries, each before those below it. -/
def toList : Heap β → List β
  | empty => []
  | node v l r => v :: (l.toList ++ r.toList)

@[simp] theorem toList_empty : (empty : Heap β).toList = [] := rfl

@[simp] theorem toList_node (v : β) (l r : Heap β) :
    (node v l r).toList = v :: (l.toList ++ r.toList) := rfl

@[simp] theorem length_toList (h : Heap β) : h.toList.length = h.size := by
  induction h with
  | empty => rfl
  | node v l r ihl ihr => simp [size, ihl, ihr]

/-- The turns from the root to a place, `true` for a turn to the right. Places are counted level by
level; the root has number one, and the children of `n` have `2 n` and `2 n + 1`. -/
def turns (n : Nat) : List Bool :=
  if n ≤ 1 then [] else turns (n / 2) ++ [n % 2 == 1]
termination_by n
decreasing_by omega

/-! ### Adding an entry -/

/-- An entry above two subtrees; the root of the left one changes places with it if it is
greater. -/
def raiseLeft (le : β → β → Bool) (v : β) (l r : Heap β) : Heap β :=
  match l with
  | empty => node v empty r
  | node w a b => if le w v then node v (node w a b) r else node w (node v a b) r

/-- An entry above two subtrees; the root of the right one changes places with it if it is
greater. -/
def raiseRight (le : β → β → Bool) (v : β) (l r : Heap β) : Heap β :=
  match r with
  | empty => node v l empty
  | node w a b => if le w v then node v l (node w a b) else node w l (node v a b)

theorem toList_raiseLeft (le : β → β → Bool) (v : β) (l r : Heap β) :
    (raiseLeft le v l r).toList.Perm (v :: (l.toList ++ r.toList)) := by
  unfold raiseLeft
  split
  · exact .refl _
  · split
    · exact .refl _
    · simpa using List.Perm.swap ..

theorem toList_raiseRight (le : β → β → Bool) (v : β) (l r : Heap β) :
    (raiseRight le v l r).toList.Perm (v :: (l.toList ++ r.toList)) := by
  unfold raiseRight
  split
  · exact .refl _
  · rename_i w a b
    split
    · exact .refl _
    · calc
        w :: (l.toList ++ v :: (a.toList ++ b.toList))
        _ |>.Perm (w :: v :: (l.toList ++ (a.toList ++ b.toList))) := .cons _ List.perm_middle
        _ |>.Perm (v :: w :: (l.toList ++ (a.toList ++ b.toList))) := .swap ..
        _ |>.Perm (v :: (l.toList ++ w :: (a.toList ++ b.toList))) := .cons _ List.perm_middle.symm

/-- Adds an entry at the end of a way, from where it rises. -/
def insertAt (le : β → β → Bool) (x : β) : List Bool → Heap β → Heap β
  | _, empty => node x empty empty
  | ws, node v l r =>
    if ws.headD false then raiseRight le v l (insertAt le x ws.tail r)
    else raiseLeft le v (insertAt le x ws.tail l) r

/-- Adds an entry at the first free place, from where it rises. -/
def push (le : β → β → Bool) (h : Heap β) (x : β) : Heap β :=
  insertAt le x (turns (h.size + 1)) h

theorem toList_insertAt (le : β → β → Bool) (x : β) (ws : List Bool) (h : Heap β) :
    (insertAt le x ws h).toList.Perm (x :: h.toList) := by
  induction h generalizing ws with
  | empty => simp [insertAt]
  | node v l r ihl ihr =>
    unfold insertAt
    split
    · calc
        (raiseRight le v l (insertAt le x ws.tail r)).toList
        _ |>.Perm (v :: (l.toList ++ (insertAt le x ws.tail r).toList)) := toList_raiseRight ..
        _ |>.Perm (v :: (l.toList ++ x :: r.toList)) := .cons _ (.append_left _ (ihr _))
        _ |>.Perm (v :: x :: (l.toList ++ r.toList)) := .cons _ List.perm_middle
        _ |>.Perm (x :: v :: (l.toList ++ r.toList)) := .swap ..
    · calc
        (raiseLeft le v (insertAt le x ws.tail l) r).toList
        _ |>.Perm (v :: ((insertAt le x ws.tail l).toList ++ r.toList)) := toList_raiseLeft ..
        _ |>.Perm (v :: (x :: l.toList ++ r.toList)) := .cons _ (.append_right _ (ihl _))
        _ |>.Perm (x :: v :: (l.toList ++ r.toList)) := .swap ..

theorem toList_push (le : β → β → Bool) (h : Heap β) (x : β) :
    (h.push le x).toList.Perm (x :: h.toList) :=
  toList_insertAt ..

/-! ### Taking the root -/

/-- The entry at the end of a way, and the tree without it. -/
def takeAt : List Bool → Heap β → Option (β × Heap β)
  | _, empty => none
  | ws, node v l r =>
    if ws.headD false then
      match takeAt ws.tail r with
      | some (x, r) => some (x, node v l r)
      | none => some (v, l)
    else
      match takeAt ws.tail l with
      | some (x, l) => some (x, node v l r)
      | none => some (v, r)

/-- An entry in the place of the root: the greater children move up, of equal ones the right one,
and the entry rises from the free place at the bottom. -/
def replaceRoot (le : β → β → Bool) (x : β) : Heap β → Heap β
  | empty => node x empty empty
  | node _ l r =>
    match l.root?, r.root? with
    | none, none => node x l r
    | some v, none => raiseLeft le v (replaceRoot le x l) r
    | none, some w => raiseRight le w l (replaceRoot le x r)
    | some v, some w =>
      if le v w then raiseRight le w l (replaceRoot le x r)
      else raiseLeft le v (replaceRoot le x l) r

theorem eq_empty_of_takeAt {ws : List Bool} {h : Heap β} (e : takeAt ws h = none) : h = empty := by
  cases h with
  | empty => rfl
  | node v l r =>
    unfold takeAt at e
    split at e <;> split at e <;> contradiction

theorem toList_takeAt {ws : List Bool} {h rest : Heap β} {x : β}
    (e : takeAt ws h = some (x, rest)) : (x :: rest.toList).Perm h.toList := by
  induction h generalizing ws rest with
  | empty => simp [takeAt] at e
  | node v l r ihl ihr =>
    unfold takeAt at e
    split at e
    · split at e
      · rename_i y r' e'
        cases e
        calc
          (x :: v :: (l.toList ++ r'.toList))
          _ |>.Perm (v :: x :: (l.toList ++ r'.toList)) := .swap ..
          _ |>.Perm (v :: (l.toList ++ x :: r'.toList)) := .cons _ List.perm_middle.symm
          _ |>.Perm (v :: (l.toList ++ r.toList)) := .cons _ (.append_left _ (ihr e'))
      · rename_i e'
        cases e
        simp [eq_empty_of_takeAt e']
    · split at e
      · rename_i y l' e'
        cases e
        calc
          (x :: v :: (l'.toList ++ r.toList))
          _ |>.Perm (v :: (x :: l'.toList ++ r.toList)) := .swap ..
          _ |>.Perm (v :: (l.toList ++ r.toList)) := .cons _ (.append_right _ (ihl e'))
      · rename_i e'
        cases e
        simp [eq_empty_of_takeAt e']

theorem toList_of_root? {h : Heap β} {v : β} (e : h.root? = some v) :
    h.toList = v :: h.toList.tail := by
  cases h with
  | empty => contradiction
  | node => cases e; rfl

theorem toList_replaceRoot (le : β → β → Bool) (x : β) (h : Heap β) :
    (replaceRoot le x h).toList.Perm (x :: h.toList.tail) := by
  induction h with
  | empty => exact .refl _
  | node u l r ihl ihr =>
    have left {v : β} (e : l.root? = some v) :
        (raiseLeft le v (replaceRoot le x l) r).toList.Perm (x :: (l.toList ++ r.toList)) := by
      refine (toList_raiseLeft ..).trans ((List.Perm.cons _ (.append_right _ ihl)).trans ?_)
      rw [toList_of_root? e]
      exact .swap ..
    have right {w : β} (e : r.root? = some w) :
        (raiseRight le w l (replaceRoot le x r)).toList.Perm (x :: (l.toList ++ r.toList)) := by
      refine (toList_raiseRight ..).trans ((List.Perm.cons _ (.append_left _ ihr)).trans ?_)
      rw [toList_of_root? e]
      calc
        (w :: (l.toList ++ x :: r.toList.tail))
        _ |>.Perm (w :: x :: (l.toList ++ r.toList.tail)) := .cons _ List.perm_middle
        _ |>.Perm (x :: w :: (l.toList ++ r.toList.tail)) := .swap ..
        _ |>.Perm (x :: (l.toList ++ w :: r.toList.tail)) := .cons _ List.perm_middle.symm
    unfold replaceRoot
    split
    · exact .refl _
    · exact left ‹_›
    · exact right ‹_›
    · split
      · exact right ‹_›
      · exact left ‹_›

/-- The root, and the heap without it. -/
def pop (le : β → β → Bool) (h : Heap β) : Option (β × Heap β) :=
  match takeAt (turns h.size) h with
  | none => none
  | some (x, empty) => some (x, empty)
  | some (x, node v l r) => some (v, replaceRoot le x (node v l r))

theorem toList_pop {le : β → β → Bool} {h rest : Heap β} {v : β} (e : h.pop le = some (v, rest)) :
    (v :: rest.toList).Perm h.toList := by
  unfold pop at e
  split at e
  · contradiction
  · rename_i e'
    cases e
    exact toList_takeAt e'
  · rename_i e'
    cases e
    exact ((toList_replaceRoot ..).cons _).trans ((List.Perm.swap ..).trans (toList_takeAt e'))

/-- The heap of the entries of a list, which are added one after another. -/
def ofList (le : β → β → Bool) (l : List β) : Heap β :=
  l.foldl (push le) empty

end Heap

end PrimalHeuristics
