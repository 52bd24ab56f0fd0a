/-!
# Computations with rules for the caller

A vector that is read past its end, and an interval without a point, are mistakes of the caller: no
answer of the library would be right. Such a computation stops with a `Fault`. Traversals are the
monadic ones of `Except Fault`, so the first broken rule decides.

* `Checked.read`: an entry of a vector;
* `Checked.read_of_lt`: reading inside a vector never stops;
* `Checked.foldlM_eq` and the like: a traversal none of whose steps stops is the plain one.
-/

namespace PrimalHeuristics

/-- A rule that the caller broke. -/
inductive Fault where
  /-- A vector is shorter than the rows or columns it is read for. -/
  | outOfRange
  /-- The nearest point of an interval was asked for, but its ends are crossed or are no numbers. -/
  | emptyInterval
  deriving DecidableEq, Repr

/-- A value, unless a rule was broken on the way to it. -/
abbrev Checked := Except Fault

namespace Checked

variable {α : Type}

/-- The entry of a vector at a position. -/
def read (x : Array α) (i : Nat) : Checked α :=
  match x[i]? with
  | some v => .ok v
  | none => .error .outOfRange

theorem read_of_lt {x : Array α} {i : Nat} (h : i < x.size) : read x i = .ok x[i] := by
  simp [read, h]

theorem read_of_le {x : Array α} {i : Nat} (h : x.size ≤ i) : read x i = .error .outOfRange := by
  simp [read, h]

theorem read_eq_getD {x : Array α} {i : Nat} (h : i < x.size) (d : α) :
    read x i = .ok (x.getD i d) := by
  rw [read_of_lt h]
  simp [Array.getD, h]

/-! ### Sequences of steps -/

variable {β γ ε : Type}

theorem bind_eq_ok {x : Except ε β} {f : β → Except ε γ} {c : γ} :
    (x >>= f) = .ok c ↔ ∃ b, x = .ok b ∧ f b = .ok c := by
  cases x <;> simp [bind, Except.bind]

/-- A last step that cannot fail adds no error. -/
theorem bind_ok_eq_error {x : Except ε β} {g : β → γ} {e : ε} :
    (x >>= fun b => .ok (g b)) = .error e ↔ x = .error e := by
  cases x <;> simp [bind, Except.bind]

@[simp] theorem ok_bind (b : β) (f : β → Except ε γ) : (Except.ok b >>= f) = f b := rfl

@[simp] theorem pure_eq (b : β) : (pure b : Except ε β) = .ok b := rfl

theorem exists_map_eq_ok {f : β → γ} {x : Except ε β} :
    (∃ c, x.map f = .ok c) ↔ ∃ b, x = .ok b := by
  cases x <;> simp [Except.map]

@[simp] theorem ok_map (f : β → γ) (b : β) : f <$> (Except.ok b : Except ε β) = .ok (f b) := rfl

theorem foldlM_eq {l : List β} {f : γ → β → Checked γ} {g : γ → β → γ}
    (h : ∀ s, ∀ b ∈ l, f s b = .ok (g s b)) (s : γ) : l.foldlM f s = .ok (l.foldl g s) := by
  induction l generalizing s with
  | nil => rfl
  | cons b l ih =>
    rw [List.foldlM_cons, h s b (by simp), ok_bind, List.foldl_cons]
    exact ih (fun s b hb => h s b (by simp [hb])) _

/-- What no step stops at and every step keeps, a traversal keeps. -/
theorem foldlM_rule {P : γ → Prop} {l : List β} {f : γ → β → Checked γ}
    (h : ∀ s, P s → ∀ b ∈ l, ∃ t, f s b = .ok t ∧ P t) {s : γ} (hs : P s) :
    ∃ t, l.foldlM f s = .ok t ∧ P t := by
  induction l generalizing s with
  | nil => exact ⟨s, rfl, hs⟩
  | cons b l ih =>
    obtain ⟨t, ht, hkept⟩ := h s hs b (by simp)
    rw [List.foldlM_cons, ht, ok_bind]
    exact ih (fun s hs b hb => h s hs b (by simp [hb])) hkept

theorem mapM_eq {l : List β} {f : β → Checked γ} {g : β → γ} (h : ∀ b ∈ l, f b = .ok (g b)) :
    l.mapM f = .ok (l.map g) := by
  induction l with
  | nil => rfl
  | cons b l ih =>
    rw [List.mapM_cons, h b (by simp), ok_bind, ih fun b hb => h b (by simp [hb])]
    rfl

theorem mapM_congr {l : List β} {f g : β → Checked γ} (h : ∀ b ∈ l, f b = g b) :
    l.mapM f = l.mapM g := by
  induction l with
  | nil => rfl
  | cons b l ih =>
    rw [List.mapM_cons, List.mapM_cons, h b (by simp), ih fun b hb => h b (by simp [hb])]

/-- Steps that can only stop with one fault, and one of them does. -/
theorem mapM_of_error {l : List β} {f : β → Checked γ} {e : Fault}
    (h : ∀ b ∈ l, (∃ c, f b = .ok c) ∨ f b = .error e) (hb : ∃ b ∈ l, f b = .error e) :
    l.mapM f = .error e := by
  induction l with
  | nil => simp at hb
  | cons b l ih =>
    rw [List.mapM_cons]
    rcases h b (by simp) with ⟨c, hc⟩ | he
    · have hlater : ∃ d ∈ l, f d = .error e := by
        obtain ⟨d, hd, he⟩ := hb
        rcases List.mem_cons.1 hd with rfl | hd
        · rw [hc] at he
          cases he
        · exact ⟨d, hd, he⟩
      rw [hc, ok_bind, ih (fun b hb => h b (by simp [hb])) hlater]
      rfl
    · rw [he]
      rfl

theorem findM?_eq {l : List β} {f : β → Checked Bool} {g : β → Bool}
    (h : ∀ b ∈ l, f b = .ok (g b)) : l.findM? f = .ok (l.find? g) := by
  induction l with
  | nil => rfl
  | cons b l ih =>
    rw [List.findM?, h b (by simp), ok_bind, ih fun b hb => h b (by simp [hb]), List.find?_cons]
    cases g b <;> rfl

theorem allM_eq {l : List β} {f : β → Checked Bool} {g : β → Bool}
    (h : ∀ b ∈ l, f b = .ok (g b)) : l.allM f = .ok (l.all g) := by
  induction l with
  | nil => rfl
  | cons b l ih =>
    rw [List.allM_cons, h b (by simp), ok_bind, ih fun b hb => h b (by simp [hb]), List.all_cons]
    cases g b <;> rfl

theorem filterMapM_eq {l : List β} {f : β → Checked (Option γ)} {g : β → Option γ}
    (h : ∀ b ∈ l, f b = .ok (g b)) : l.filterMapM f = .ok (l.filterMap g) := by
  induction l with
  | nil => rfl
  | cons b l ih =>
    rw [List.filterMapM_cons, h b (by simp), ok_bind, List.filterMap_cons]
    cases g b with
    | none => exact ih fun b hb => h b (by simp [hb])
    | some c =>
      simp only
      rw [ih fun b hb => h b (by simp [hb])]
      rfl

theorem filterM_eq {l : List β} {f : β → Checked Bool} {g : β → Bool}
    (h : ∀ b ∈ l, f b = .ok (g b)) : l.filterM f = .ok (l.filter g) := by
  suffices ∀ acc, List.filterAuxM f l acc = .ok ((l.filter g).reverse ++ acc) by
    simp [List.filterM, this]
  induction l with
  | nil => exact fun acc => rfl
  | cons b l ih =>
    intro acc
    rw [List.filterAuxM, h b (by simp), ok_bind, ih fun b hb => h b (by simp [hb]),
      List.filter_cons]
    cases g b <;> simp

end Checked

end PrimalHeuristics
