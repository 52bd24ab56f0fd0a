import Mathlib.Data.List.Induction
import PrimalHeuristics.Heap

/-!
# Filled and ordered heaps

Whatever the order is, a heap stays filled level by level, from the left: the places that are taken
are those up to the number of its entries, and so the way to the last one ends at a leaf. If any two
entries can be compared, no entry is ever greater than the one above it, and the root is a greatest
entry.

* `Heap.place`: the number of the place at the end of a way, and `Heap.turns_place`,
  `Heap.place_turns`: ways and numbers stand for each other;
* `Heap.IsFilled`: the shape, and `Heap.IsOrdered`: the order;
* `Heap.isHeap_push`, `Heap.isHeap_ofList`, `Heap.isHeap_of_pop`: all operations keep both;
* `Heap.le_of_pop`: what is taken is a greatest entry.
-/

namespace PrimalHeuristics

namespace Heap

variable {β : Type}

/-! ### Places -/

/-- The number of the place at the end of a way. -/
def place (ws : List Bool) : Nat :=
  ws.foldl (fun n w => 2 * n + w.toNat) 1

@[simp] theorem place_nil : place [] = 1 := rfl

@[simp] theorem place_concat (ws : List Bool) (w : Bool) :
    place (ws ++ [w]) = 2 * place ws + w.toNat := by
  simp [place]

theorem place_pos (ws : List Bool) : 0 < place ws := by
  induction ws using List.reverseRecOn with
  | nil => simp
  | append_singleton ws w ih => rw [place_concat]; omega

/-- A longer way leads to a later place. -/
theorem place_lt_of_append (ws : List Bool) {us : List Bool} (h : us ≠ []) :
    place ws < place (ws ++ us) := by
  induction us using List.reverseRecOn with
  | nil => contradiction
  | append_singleton us u ih =>
    have hpos := place_pos ws
    rw [← List.append_assoc, place_concat]
    by_cases hus : us = []
    · rw [hus, List.append_nil]
      omega
    · have := ih hus
      omega

theorem turns_place (ws : List Bool) : turns (place ws) = ws := by
  induction ws using List.reverseRecOn with
  | nil => simp [turns]
  | append_singleton ws w ih =>
    have hpos := place_pos ws
    rw [place_concat, turns, if_neg (by omega)]
    cases w with
    | false =>
      rw [Bool.toNat_false, Nat.add_zero, Nat.mul_div_cancel_left _ (by omega), ih,
        Nat.mul_mod_right]
      rfl
    | true =>
      rw [Bool.toNat_true, show (2 * place ws + 1) / 2 = place ws by omega, ih,
        show (2 * place ws + 1) % 2 = 1 by omega]
      rfl

theorem place_turns {n : Nat} (h : 0 < n) : place (turns n) = n := by
  induction n using Nat.strongRecOn with
  | ind n ih =>
    rw [turns]
    split
    · rw [place_nil]
      omega
    · rw [place_concat, ih (n / 2) (by omega) (by omega)]
      rcases Nat.mod_two_eq_zero_or_one n with hn | hn <;> rw [hn]
      · show 2 * (n / 2) + 0 = n
        omega
      · show 2 * (n / 2) + 1 = n
        omega

theorem turns_ne_nil {n : Nat} (h : 1 < n) : turns n ≠ [] := by
  intro hn
  have := place_turns (Nat.zero_lt_of_lt h)
  rw [hn, place_nil] at this
  omega

/-! ### Shape -/

/-- There is an entry at the end of a way. -/
def IsTaken : Heap β → List Bool → Prop
  | empty, _ => False
  | node .., [] => True
  | node _ l r, w :: ws => if w then r.IsTaken ws else l.IsTaken ws

@[simp] theorem not_isTaken_empty (ws : List Bool) : ¬ (empty : Heap β).IsTaken ws := by
  simp [IsTaken]

@[simp] theorem isTaken_node_nil (v : β) (l r : Heap β) : (node v l r).IsTaken [] := by
  simp [IsTaken]

@[simp] theorem isTaken_node_cons (v : β) (l r : Heap β) (w : Bool) (ws : List Bool) :
    (node v l r).IsTaken (w :: ws) ↔ if w then r.IsTaken ws else l.IsTaken ws := by
  simp [IsTaken]

theorem isTaken_of_root? {h : Heap β} {v : β} (e : h.root? = some v) : h.IsTaken [] := by
  cases h with
  | empty => contradiction
  | node => exact isTaken_node_nil ..

theorem eq_empty_of_not_isTaken {h : Heap β} (e : ¬ h.IsTaken []) : h = empty := by
  cases h with
  | empty => rfl
  | node => exact absurd (isTaken_node_nil ..) e

section Shape

variable (le : β → β → Bool) (x v : β) (l r : Heap β)

@[simp] theorem isTaken_raiseLeft (us : List Bool) :
    (raiseLeft le v l r).IsTaken us ↔ (node v l r).IsTaken us := by
  unfold raiseLeft
  split
  · rfl
  · rcases us with _ | ⟨u, _ | ⟨u', us⟩⟩ <;> split <;> simp

@[simp] theorem isTaken_raiseRight (us : List Bool) :
    (raiseRight le v l r).IsTaken us ↔ (node v l r).IsTaken us := by
  unfold raiseRight
  split
  · rfl
  · rcases us with _ | ⟨u, _ | ⟨u', us⟩⟩ <;> split <;> simp

/-- A new entry takes the place at the end of its way, if that is the next one. -/
theorem isTaken_insertAt {h : Heap β} {ws us : List Bool} (hfree : ¬ h.IsTaken ws)
    (hnext : ∀ vs vs', vs' ≠ [] → ws = vs ++ vs' → h.IsTaken vs) :
    (insertAt le x ws h).IsTaken us ↔ h.IsTaken us ∨ us = ws := by
  induction h generalizing ws us with
  | empty =>
    obtain rfl : ws = [] := by
      by_contra hws
      exact not_isTaken_empty _ (hnext [] ws hws rfl)
    cases us <;> simp [insertAt]
  | node v l r ihl ihr =>
    cases ws with
    | nil => exact absurd (isTaken_node_nil ..) hfree
    | cons w ws =>
      have hnext : ∀ vs vs', vs' ≠ [] → ws = vs ++ vs' → (node v l r).IsTaken (w :: vs) :=
        fun vs vs' hvs hws => hnext (w :: vs) vs' hvs (by rw [hws, List.cons_append])
      rw [isTaken_node_cons] at hfree
      simp only [isTaken_node_cons] at hnext
      unfold insertAt
      cases w with
      | false =>
        have hleft := @ihl ws us.tail hfree hnext
        rcases us with _ | ⟨_ | _, us⟩
        · simp
        · simpa using hleft
        · simp
      | true =>
        have hright := @ihr ws us.tail hfree hnext
        rcases us with _ | ⟨_ | _, us⟩
        · simp
        · simp
        · simpa using hright

end Shape

/-- Taking a leaf frees its place, and no other one. -/
theorem isTaken_takeAt {h rest : Heap β} {x : β} {ws us : List Bool} (htaken : h.IsTaken ws)
    (hleaf : ∀ w, ¬ h.IsTaken (ws ++ [w])) (e : takeAt ws h = some (x, rest)) :
    rest.IsTaken us ↔ h.IsTaken us ∧ us ≠ ws := by
  induction h generalizing ws us rest with
  | empty => exact absurd htaken (not_isTaken_empty _)
  | node v l r ihl ihr =>
    cases ws with
    | nil =>
      obtain rfl : l = empty := eq_empty_of_not_isTaken (by simpa using hleaf false)
      obtain rfl : r = empty := eq_empty_of_not_isTaken (by simpa using hleaf true)
      cases e
      rcases us with _ | ⟨_ | _, us⟩ <;> simp
    | cons w ws =>
      rw [isTaken_node_cons] at htaken
      simp only [List.cons_append, isTaken_node_cons] at hleaf
      unfold takeAt at e
      cases w with
      | false =>
        cases hl : takeAt ws l with
        | none => simp [eq_empty_of_takeAt hl] at htaken
        | some p =>
          obtain ⟨y, l'⟩ := p
          obtain ⟨rfl, rfl⟩ : y = x ∧ node v l' r = rest := by simpa [hl] using e
          have hleft := @ihl l' ws us.tail htaken hleaf hl
          rcases us with _ | ⟨_ | _, us⟩
          · simp
          · simpa using hleft
          · simp
      | true =>
        cases hr : takeAt ws r with
        | none => simp [eq_empty_of_takeAt hr] at htaken
        | some p =>
          obtain ⟨y, r'⟩ := p
          obtain ⟨rfl, rfl⟩ : y = x ∧ node v l r' = rest := by simpa [hr] using e
          have hright := @ihr r' ws us.tail htaken hleaf hr
          rcases us with _ | ⟨_ | _, us⟩
          · simp
          · simp
          · simpa using hright

/-- The root stays where it is when another entry is taken. -/
theorem root?_takeAt {h rest : Heap β} {x : β} {ws : List Bool} (hws : ws ≠ [])
    (htaken : h.IsTaken ws) (e : takeAt ws h = some (x, rest)) : rest.root? = h.root? := by
  cases h with
  | empty => exact absurd htaken (not_isTaken_empty _)
  | node v l r =>
    cases ws with
    | nil => contradiction
    | cons w ws =>
      rw [isTaken_node_cons] at htaken
      unfold takeAt at e
      cases w with
      | false =>
        cases hl : takeAt ws l with
        | none => simp [eq_empty_of_takeAt hl] at htaken
        | some p =>
          obtain ⟨-, rfl⟩ : p.1 = x ∧ node v p.2 r = rest := by simpa [hl] using e
          rfl
      | true =>
        cases hr : takeAt ws r with
        | none => simp [eq_empty_of_takeAt hr] at htaken
        | some p =>
          obtain ⟨-, rfl⟩ : p.1 = x ∧ node v l p.2 = rest := by simpa [hr] using e
          rfl

theorem isTaken_replaceRoot (le : β → β → Bool) (x : β) {h : Heap β} {us : List Bool}
    (hroot : h.IsTaken []) : (replaceRoot le x h).IsTaken us ↔ h.IsTaken us := by
  induction h generalizing us with
  | empty => exact absurd hroot (not_isTaken_empty _)
  | node v l r ihl ihr =>
    have left {u : β} (e : l.root? = some u) :
        (raiseLeft le u (replaceRoot le x l) r).IsTaken us ↔ (node v l r).IsTaken us := by
      rw [isTaken_raiseLeft]
      rcases us with _ | ⟨_ | _, us⟩ <;> simp [ihl (isTaken_of_root? e)]
    have right {u : β} (e : r.root? = some u) :
        (raiseRight le u l (replaceRoot le x r)).IsTaken us ↔ (node v l r).IsTaken us := by
      rw [isTaken_raiseRight]
      rcases us with _ | ⟨_ | _, us⟩ <;> simp [ihr (isTaken_of_root? e)]
    unfold replaceRoot
    split
    · cases us <;> simp
    · exact left ‹_›
    · exact right ‹_›
    · split
      · exact right ‹_›
      · exact left ‹_›

/-- The heap is filled level by level, from the left. -/
def IsFilled (h : Heap β) : Prop :=
  ∀ ws, h.IsTaken ws ↔ place ws ≤ h.size

theorem isFilled_empty : (empty : Heap β).IsFilled := fun ws => by
  have := place_pos ws
  simp [size]
  omega

theorem size_push (le : β → β → Bool) (h : Heap β) (x : β) : (h.push le x).size = h.size + 1 := by
  rw [← length_toList, ← length_toList, (toList_push le h x).length_eq, List.length_cons]

theorem IsFilled.push {h : Heap β} (hh : h.IsFilled) (le : β → β → Bool) (x : β) :
    (h.push le x).IsFilled := by
  intro us
  have hplace : place (turns (h.size + 1)) = h.size + 1 := place_turns (by omega)
  have htaken : (h.push le x).IsTaken us ↔ h.IsTaken us ∨ us = turns (h.size + 1) := by
    refine isTaken_insertAt le x (fun hws => ?_) fun vs vs' hvs hws => (hh vs).2 ?_
    · have := (hh _).1 hws
      omega
    · have := place_lt_of_append vs hvs
      rw [← hws, hplace] at this
      omega
  rw [htaken, hh, size_push]
  constructor
  · rintro (hle | rfl)
    · omega
    · exact Nat.le_of_eq hplace
  · intro hle
    by_cases hus : place us ≤ h.size
    · exact .inl hus
    · right
      rw [← turns_place us, show place us = h.size + 1 by omega]

section Take

variable {h rest : Heap β} {x : β} (hh : h.IsFilled)

include hh

/-- The last place is taken. -/
theorem IsFilled.isTaken_turns (hpos : 0 < h.size) : h.IsTaken (turns h.size) :=
  (hh _).2 (Nat.le_of_eq (place_turns hpos))

theorem IsFilled.takeAt (e : takeAt (turns h.size) h = some (x, rest)) : rest.IsFilled := by
  have hsize : rest.size + 1 = h.size := by
    rw [← length_toList, ← length_toList, ← (toList_takeAt e).length_eq, List.length_cons]
  have hplace : place (turns h.size) = h.size := place_turns (by omega)
  intro us
  have htaken : rest.IsTaken us ↔ h.IsTaken us ∧ us ≠ turns h.size := by
    refine isTaken_takeAt (hh.isTaken_turns (by omega)) (fun w hw => ?_) e
    have := (hh _).1 hw
    rw [place_concat, hplace] at this
    omega
  rw [htaken, hh]
  constructor
  · rintro ⟨hle, hne⟩
    have hne : place us ≠ h.size := fun heq => hne (by rw [← heq, turns_place])
    omega
  · intro hle
    refine ⟨by omega, ?_⟩
    rintro rfl
    omega

end Take

theorem IsFilled.replaceRoot {v : β} {l r : Heap β} (hh : (node v l r).IsFilled)
    (le : β → β → Bool) (x : β) : (replaceRoot le x (node v l r)).IsFilled := by
  have hsize : (Heap.replaceRoot le x (node v l r)).size = (node v l r).size := by
    rw [← length_toList, ← length_toList, (toList_replaceRoot le x (node v l r)).length_eq]
    rfl
  intro us
  rw [isTaken_replaceRoot le x (isTaken_node_nil ..), hh, hsize]

theorem IsFilled.pop {le : β → β → Bool} {h rest : Heap β} {v : β} (hh : h.IsFilled)
    (e : h.pop le = some (v, rest)) : rest.IsFilled := by
  unfold Heap.pop at e
  split at e
  · contradiction
  · cases e
    exact isFilled_empty
  · rename_i e'
    cases e
    exact (hh.takeAt e').replaceRoot le _

/-! ### Order -/

/-- No entry is greater than the one above it. -/
def IsOrdered (le : β → β → Bool) : Heap β → Prop
  | empty => True
  | node v l r => (∀ w ∈ l.toList ++ r.toList, le w v = true) ∧ l.IsOrdered le ∧ r.IsOrdered le

/-- Any two entries can be compared, and comparisons go together. -/
structure IsOrder (le : β → β → Bool) : Prop where
  total : ∀ a b, le a b = true ∨ le b a = true
  trans : ∀ {a b c}, le a b = true → le b c = true → le a c = true

section Order

variable {le : β → β → Bool} (hle : IsOrder le)

include hle

theorem IsOrder.refl (a : β) : le a a = true :=
  (hle.total a a).elim id id

theorem IsOrder.le_of_not_le {a b : β} (h : ¬ le a b = true) : le b a = true :=
  (hle.total a b).resolve_left h

theorem IsOrdered.raiseLeft {v : β} {l r : Heap β} (hl : l.IsOrdered le) (hr : r.IsOrdered le)
    (hlv : ∀ w ∈ l.toList.tail, le w v = true) (hrv : ∀ w ∈ r.toList, le w v = true) :
    (raiseLeft le v l r).IsOrdered le := by
  unfold Heap.raiseLeft
  split
  · exact ⟨by simpa using hrv, trivial, hr⟩
  · rename_i w a b
    obtain ⟨hw, ha, hb⟩ := hl
    have hab : ∀ u ∈ a.toList ++ b.toList, le u v = true := hlv
    split
    · refine ⟨fun u hu => ?_, ⟨hw, ha, hb⟩, hr⟩
      rcases List.mem_append.1 hu with hu | hu
      · rcases List.mem_cons.1 hu with rfl | hu
        · assumption
        · exact hab u hu
      · exact hrv u hu
    · -- the entry that rises is above all that the other one was above
      have hvw := hle.le_of_not_le ‹_›
      refine ⟨fun u hu => ?_, ⟨hab, ha, hb⟩, hr⟩
      rcases List.mem_append.1 hu with hu | hu
      · rcases List.mem_cons.1 hu with rfl | hu
        · exact hvw
        · exact hw u hu
      · exact hle.trans (hrv u hu) hvw

theorem IsOrdered.raiseRight {v : β} {l r : Heap β} (hl : l.IsOrdered le) (hr : r.IsOrdered le)
    (hlv : ∀ w ∈ l.toList, le w v = true) (hrv : ∀ w ∈ r.toList.tail, le w v = true) :
    (raiseRight le v l r).IsOrdered le := by
  unfold Heap.raiseRight
  split
  · exact ⟨by simpa using hlv, hl, trivial⟩
  · rename_i w a b
    obtain ⟨hw, ha, hb⟩ := hr
    have hab : ∀ u ∈ a.toList ++ b.toList, le u v = true := hrv
    split
    · refine ⟨fun u hu => ?_, hl, hw, ha, hb⟩
      rcases List.mem_append.1 hu with hu | hu
      · exact hlv u hu
      · rcases List.mem_cons.1 hu with rfl | hu
        · assumption
        · exact hab u hu
    · have hvw := hle.le_of_not_le ‹_›
      refine ⟨fun u hu => ?_, hl, hab, ha, hb⟩
      rcases List.mem_append.1 hu with hu | hu
      · exact hle.trans (hlv u hu) hvw
      · rcases List.mem_cons.1 hu with rfl | hu
        · exact hvw
        · exact hw u hu

/-- If all entries but one stay below a value, then so do all that are not the root. -/
theorem le_of_mem_tail {h : Heap β} {x v : β} {l : List β} (hh : h.IsOrdered le)
    (hperm : h.toList.Perm (x :: l)) (hl : ∀ w ∈ l, le w v = true) :
    ∀ w ∈ h.toList.tail, le w v = true := by
  cases h with
  | empty => simp
  | node u a b =>
    have htail : (node u a b).toList.tail = a.toList ++ b.toList := rfl
    rw [htail]
    rcases List.mem_cons.1 (hperm.mem_iff.1 (List.mem_cons_self ..)) with rfl | hu
    · intro w hw
      exact hl w (((List.perm_cons _).1 hperm).mem_iff.1 hw)
    · exact fun w hw => hle.trans (hh.1 w hw) (hl u hu)

theorem IsOrdered.insertAt {h : Heap β} (hh : h.IsOrdered le) (x : β) (ws : List Bool) :
    (insertAt le x ws h).IsOrdered le := by
  induction h generalizing ws with
  | empty => exact ⟨by simp, trivial, trivial⟩
  | node v l r ihl ihr =>
    obtain ⟨hv, hl, hr⟩ := hh
    have hlv : ∀ w ∈ l.toList, le w v = true := fun w hw => hv w (List.mem_append_left _ hw)
    have hrv : ∀ w ∈ r.toList, le w v = true := fun w hw => hv w (List.mem_append_right _ hw)
    unfold Heap.insertAt
    split
    · have hr := ihr hr ws.tail
      exact hl.raiseRight hle hr hlv (le_of_mem_tail hle hr (toList_insertAt ..) hrv)
    · have hl := ihl hl ws.tail
      exact hl.raiseLeft hle hr (le_of_mem_tail hle hl (toList_insertAt ..) hlv) hrv

/-- The root of an ordered heap is a greatest entry. -/
theorem IsOrdered.le_root {h : Heap β} {v : β} (hh : h.IsOrdered le) (e : h.root? = some v) :
    ∀ w ∈ h.toList, le w v = true := by
  cases h with
  | empty => contradiction
  | node u l r =>
    cases e
    intro w hw
    rcases List.mem_cons.1 hw with rfl | hw
    · exact hle.refl w
    · exact hh.1 w hw

theorem IsOrdered.replaceRoot {h : Heap β} (hh : h.IsOrdered le) (x : β) :
    (replaceRoot le x h).IsOrdered le := by
  induction h with
  | empty => exact ⟨by simp, trivial, trivial⟩
  | node u l r ihl ihr =>
    obtain ⟨-, hl, hr⟩ := hh
    have below {h : Heap β} {v : β} (hh : h.IsOrdered le) (e : h.root? = some v) :
        ∀ w ∈ h.toList.tail, le w v = true :=
      fun w hw => hh.le_root hle e w (List.mem_of_mem_tail hw)
    have left {v : β} (e : l.root? = some v) (hrv : ∀ w ∈ r.toList, le w v = true) :
        (Heap.raiseLeft le v (Heap.replaceRoot le x l) r).IsOrdered le :=
      (ihl hl).raiseLeft hle hr
        (le_of_mem_tail hle (ihl hl) (toList_replaceRoot ..) (below hl e)) hrv
    have right {v : β} (e : r.root? = some v) (hlv : ∀ w ∈ l.toList, le w v = true) :
        (Heap.raiseRight le v l (Heap.replaceRoot le x r)).IsOrdered le :=
      hl.raiseRight hle (ihr hr) hlv
        (le_of_mem_tail hle (ihr hr) (toList_replaceRoot ..) (below hr e))
    have none {h : Heap β} (e : h.root? = none) (v : β) : ∀ w ∈ h.toList, le w v = true := by
      cases h with
      | empty => simp
      | node => contradiction
    unfold Heap.replaceRoot
    split
    · rename_i el er
      refine ⟨fun w hw => ?_, hl, hr⟩
      rcases List.mem_append.1 hw with hw | hw
      · exact none el x w hw
      · exact none er x w hw
    · exact left ‹_› (none ‹_› _)
    · exact right ‹_› (none ‹_› _)
    · rename_i v w el er
      split
      · exact right er fun u hu => hle.trans (hl.le_root hle el u hu) ‹_›
      · exact left el fun u hu => hle.trans (hr.le_root hle er u hu) (hle.le_of_not_le ‹_›)

end Order

theorem IsOrdered.takeAt {le : β → β → Bool} {h rest : Heap β} {x : β} {ws : List Bool}
    (hh : h.IsOrdered le) (e : takeAt ws h = some (x, rest)) : rest.IsOrdered le := by
  induction h generalizing ws rest with
  | empty => simp [Heap.takeAt] at e
  | node v l r ihl ihr =>
    obtain ⟨hv, hl, hr⟩ := hh
    unfold Heap.takeAt at e
    split at e <;> split at e <;> cases e
    · rename_i r' e'
      refine ⟨fun w hw => hv w ?_, hl, ihr hr e'⟩
      exact (List.mem_append.1 hw).elim (List.mem_append_left _) fun hw =>
        List.mem_append_right _ ((toList_takeAt e').mem_iff.1 (List.mem_cons_of_mem _ hw))
    · exact hl
    · rename_i l' e'
      refine ⟨fun w hw => hv w ?_, ihl hl e', hr⟩
      exact (List.mem_append.1 hw).elim (fun hw => List.mem_append_left _
        ((toList_takeAt e').mem_iff.1 (List.mem_cons_of_mem _ hw))) (List.mem_append_right _)
    · exact hr

/-! ### Heaps -/

/-- A tree that is filled level by level and in order. -/
structure IsHeap (le : β → β → Bool) (h : Heap β) : Prop where
  isFilled : h.IsFilled
  isOrdered : h.IsOrdered le

theorem isHeap_empty (le : β → β → Bool) : (empty : Heap β).IsHeap le :=
  ⟨isFilled_empty, trivial⟩

section Heap

variable {le : β → β → Bool} (hle : IsOrder le) {h rest : Heap β} {v : β}

include hle

theorem isHeap_push (hh : h.IsHeap le) (x : β) : (h.push le x).IsHeap le :=
  ⟨hh.isFilled.push le x, hh.isOrdered.insertAt hle x _⟩

theorem isHeap_ofList (l : List β) : (ofList le l).IsHeap le := by
  suffices ∀ h : Heap β, h.IsHeap le → (l.foldl (push le) h).IsHeap le from this _ (isHeap_empty le)
  induction l with
  | nil => exact fun h hh => hh
  | cons x l ih => exact fun h hh => ih _ (isHeap_push hle hh x)

theorem isHeap_of_pop (hh : h.IsHeap le) (e : h.pop le = some (v, rest)) : rest.IsHeap le := by
  refine ⟨hh.isFilled.pop e, ?_⟩
  unfold pop at e
  split at e
  · contradiction
  · cases e
    trivial
  · rename_i e'
    cases e
    exact (hh.isOrdered.takeAt e').replaceRoot hle _

/-- The entry that is taken is a greatest one. -/
theorem le_of_pop (hh : h.IsHeap le) (e : h.pop le = some (v, rest)) :
    ∀ w ∈ h.toList, le w v = true := by
  unfold pop at e
  split at e
  · contradiction
  · rename_i e'
    cases e
    intro w hw
    obtain rfl : w = v := by simpa using (toList_takeAt e').mem_iff.2 hw
    exact hle.refl w
  · rename_i x u l r e'
    cases e
    -- with two entries or more the last one is not the root
    have hsize : 1 < h.size := by
      rw [← length_toList, ← (toList_takeAt e').length_eq]
      simp
    have hroot := root?_takeAt (turns_ne_nil hsize) (hh.isFilled.isTaken_turns (by omega)) e'
    exact hh.isOrdered.le_root hle hroot.symm

end Heap

end Heap

end PrimalHeuristics
