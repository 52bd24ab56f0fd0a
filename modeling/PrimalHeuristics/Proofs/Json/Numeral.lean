import Mathlib.Tactic
import PrimalHeuristics.Json.Reader

/-!
# Numerals read back

A whole number is written by its decimal digits, after a minus if it is negative. Read as a numeral,
they make the number again, and its value is exact as long as it fits into 64 bits.

* `Numeral.ofInt`: the numeral of a whole number;
* `Numeral.ofChars?_toString`: it is read where the number is written;
* `Numeral.value?_natural`, `Numeral.value?_negative`: its value;
* `Numeral.isNumeric_of_ofChars?`: a numeral holds no other characters than those of numerals.
-/

namespace PrimalHeuristics

namespace Numeral

/-! ### Whole numbers -/

/-- The number that a decimal digit stands for. -/
def digitValue (c : Char) : Nat :=
  c.toNat - 48

/-- The numeral of a whole number. -/
def ofInt (n : Int) : Numeral where
  negative := n < 0
  whole := (Nat.toDigits 10 n.natAbs).map digitValue
  fraction := []
  exponent := none

theorem isDigit_iff {c : Char} : c.isDigit = true ↔ '0' ≤ c ∧ c ≤ '9' := by
  simp only [Char.isDigit, Bool.and_eq_true, decide_eq_true_eq]
  rfl

/-- Nothing is left of a text of digits. -/
theorem digits_eq {l : List Char} (hl : ∀ c ∈ l, c.isDigit = true) :
    digits l = (l.map digitValue, []) := by
  induction l with
  | nil => rfl
  | cons c l ih =>
    rw [digits, if_pos (isDigit_iff.1 (hl c List.mem_cons_self)),
      ih fun d hd => hl d (List.mem_cons_of_mem _ hd)]
    rfl

theorem isDigit_of_mem {n : Nat} {c : Char} (h : c ∈ Nat.toDigits 10 n) : c.isDigit = true :=
  Nat.isDigit_of_mem_toDigits (by decide) le_rfl h

theorem ofDigits_toDigits (n : Nat) : ofDigits ((Nat.toDigits 10 n).map digitValue) = n := by
  have h := Nat.ofDigitChars_ten_toDigits (n := n)
  rw [Nat.ofDigitChars_eq_foldl] at h
  rw [ofDigits, List.foldl_map]
  exact h

/-- Only zero starts with a zero. -/
theorem head?_toDigits {n : Nat} (h : n ≠ 0) : (Nat.toDigits 10 n).head? ≠ some '0' := by
  induction n using Nat.strong_induction_on with
  | _ n ih =>
    rcases Nat.lt_or_ge n 10 with hn | hn
    · rw [Nat.toDigits_of_lt_base hn]
      interval_cases n
      · exact absurd rfl h
      all_goals decide
    · rw [Nat.toDigits_of_base_le (by decide) hn, List.head?_append_of_ne_nil _ Nat.toDigits_ne_nil]
      exact ih (n / 10) (by omega) (by omega)

/-- The digits of a number are a whole part: there is one, and no needless zero at the front. -/
theorem whole_toDigits (n : Nat) :
    ¬ ((Nat.toDigits 10 n).map digitValue = [] ∨
      (((Nat.toDigits 10 n).map digitValue).head? = some 0 ∧
        1 < ((Nat.toDigits 10 n).map digitValue).length)) := by
  rintro (h | ⟨hzero, hlength⟩)
  · exact Nat.toDigits_ne_nil (List.map_eq_nil_iff.1 h)
  · rcases eq_or_ne n 0 with rfl | hn
    · simp at hlength
    · rw [List.head?_map, Option.map_eq_some_iff] at hzero
      obtain ⟨c, hc, hvalue⟩ := hzero
      have hdigit := isDigit_iff.1 (isDigit_of_mem (List.mem_of_head? hc))
      have hle : '0'.toNat ≤ c.toNat := hdigit.1
      have hge : c.toNat ≤ '0'.toNat := Nat.sub_eq_zero_iff_le.1 hvalue
      rw [Char.toNat_inj.1 (hge.antisymm hle)] at hc
      exact head?_toDigits hn hc

theorem toList_toString (n : Int) : (toString n).toList =
    (if n < 0 then ['-'] else []) ++ Nat.toDigits 10 n.natAbs := by
  rw [Int.toString_eq_repr, Int.repr_eq_if]
  by_cases h : 0 ≤ n
  · have habs : n.toNat = n.natAbs := by omega
    rw [if_pos h, if_neg (not_lt.2 h), Nat.toList_repr, habs, List.nil_append]
  · have habs : (-n).toNat = n.natAbs := by omega
    rw [if_neg h, if_pos (not_le.1 h), String.toList_append, Nat.toList_repr, habs]
    rfl

/-- A numeral after its sign. -/
def unsigned? (negative : Bool) (s : List Char) : Option Numeral :=
  let (whole, s) := digits s
  if whole = [] ∨ (whole.head? = some 0 ∧ 1 < whole.length) then none
  else
    (fraction? s).bind fun (fraction, s) => (exponent? s).bind fun (exponent, s) =>
      if s = [] then some ⟨negative, whole, fraction, exponent⟩ else none

theorem ofChars?_minus (s : List Char) : ofChars? ('-' :: s) = unsigned? true s := rfl

theorem ofChars?_of_ne {s : List Char} (h : ∀ rest, s ≠ '-' :: rest) :
    ofChars? s = unsigned? false s := by
  unfold ofChars?
  split
  rename_i negative tail heq
  split at heq
  · exact absurd rfl (h _)
  · cases heq
    rfl

theorem unsigned?_toDigits (negative : Bool) (n : Nat) : unsigned? negative (Nat.toDigits 10 n) =
    some ⟨negative, (Nat.toDigits 10 n).map digitValue, [], none⟩ := by
  unfold unsigned?
  rw [digits_eq fun c hc => isDigit_of_mem hc]
  dsimp only
  rw [if_neg (whole_toDigits n)]
  rfl

/-- A whole number is read as its numeral. -/
theorem ofChars?_toString (n : Int) : ofChars? (toString n).toList = some (ofInt n) := by
  rw [toList_toString, ofInt]
  by_cases h : n < 0
  · rw [if_pos h, List.singleton_append, ofChars?_minus, unsigned?_toDigits, decide_eq_true h]
  · rw [if_neg h, List.nil_append, ofChars?_of_ne, unsigned?_toDigits, decide_eq_false h]
    intro rest heq
    have hminus : '-'.isDigit = true := isDigit_of_mem (n := n.natAbs) (by simp [heq])
    contradiction

/-! ### Values -/

theorem ofDigits_whole (n : Int) : ofDigits (ofInt n).whole = n.natAbs :=
  ofDigits_toDigits _

theorem isCount_ofInt {n : Int} (h : n.natAbs < UInt64.size) : (ofInt n).isCount = true := by
  rw [isCount, ofDigits_whole, decide_eq_true h]
  rfl

theorem value?_natural {n : Nat} (h : n < UInt64.size) :
    (ofInt n).value? = some (.natural n.toUInt64) := by
  have hcount : (ofInt n).isCount = true := isCount_ofInt h
  have hsign : (ofInt n).negative = false := decide_eq_false (Int.not_lt.2 (Int.natCast_nonneg n))
  unfold value?
  dsimp only
  rw [if_pos hcount, hsign, ofDigits_whole]
  rfl

theorem value?_negative {n : Int} (h : n < 0) (hmin : -2 ^ 63 ≤ n) :
    (ofInt n).value? = some (.negative (Int64.ofInt n)) := by
  have hcount : n.natAbs < UInt64.size := by
    simp only [UInt64.size]
    omega
  have habs : 0 < n.natAbs ∧ n.natAbs ≤ Nat.pow 2 63 := by
    have hpow : Nat.pow 2 63 = 2 ^ 63 := rfl
    omega
  have hneg : -(n.natAbs : Int) = n := by omega
  have hsign : (ofInt n).negative = true := decide_eq_true h
  unfold value?
  dsimp only
  rw [if_pos (isCount_ofInt hcount), hsign, ofDigits_whole, if_pos habs, hneg]
  rfl

/-! ### The characters of a numeral -/

/-- What is left of a text after characters of a numeral. -/
def Leaves (s rest : List Char) : Prop :=
  ∃ t, s = t ++ rest ∧ ∀ c ∈ t, Json.isNumeric c = true

namespace Leaves

theorem refl (s : List Char) : Leaves s s :=
  ⟨[], rfl, by simp⟩

theorem cons {c : Char} {s rest : List Char} (hc : Json.isNumeric c = true)
    (h : Leaves s rest) : Leaves (c :: s) rest := by
  obtain ⟨t, rfl, ht⟩ := h
  exact ⟨c :: t, rfl, List.forall_mem_cons.2 ⟨hc, ht⟩⟩

theorem trans {r s t : List Char} (h : Leaves r s) (h' : Leaves s t) : Leaves r t := by
  obtain ⟨a, rfl, ha⟩ := h
  obtain ⟨b, rfl, hb⟩ := h'
  exact ⟨a ++ b, (List.append_assoc ..).symm, fun c hc => (List.mem_append.1 hc).elim (ha c) (hb c)⟩

end Leaves

theorem leaves_digits (s : List Char) : Leaves s (digits s).2 := by
  induction s with
  | nil => exact .refl []
  | cons c s ih =>
    unfold digits
    split
    · rename_i h
      refine .cons ?_ ih
      simp [Json.isNumeric, h]
    · exact .refl _

theorem leaves_sign (s : List Char) : Leaves s (sign s).2 := by
  unfold sign
  split
  · exact .cons rfl (.refl _)
  · exact .cons rfl (.refl _)
  · exact .refl _

theorem leaves_fraction? {s rest : List Char} {l : List Nat} (h : fraction? s = some (l, rest)) :
    Leaves s rest := by
  unfold fraction? at h
  split at h
  · rename_i tail
    have hdigits := leaves_digits tail
    generalize digits tail = d at h hdigits
    obtain ⟨l, rest⟩ := d
    cases l with
    | nil => cases h
    | cons d l =>
      cases h
      exact .cons rfl hdigits
  · cases h
    exact .refl _

theorem leaves_exponent? {s rest : List Char} {e : Option Int}
    (h : exponent? s = some (e, rest)) : Leaves s rest := by
  unfold exponent? at h
  split at h
  · cases h
    exact .refl _
  · rename_i c tail
    split at h
    · rename_i hletter
      have hdigits := (leaves_sign tail).trans (leaves_digits (sign tail).2)
      generalize digits (sign tail).2 = d at h hdigits
      obtain ⟨l, rest⟩ := d
      cases l with
      | nil => cases h
      | cons d l =>
        cases h
        refine .cons ?_ hdigits
        rcases hletter with rfl | rfl <;> rfl
    · cases h
      exact .refl _

theorem leaves_unsigned? {negative : Bool} {s : List Char} {n : Numeral}
    (h : unsigned? negative s = some n) : s ≠ [] ∧ Leaves s [] := by
  constructor
  · rintro rfl
    cases h
  unfold unsigned? at h
  dsimp only at h
  split at h
  · cases h
  · obtain ⟨⟨f, s'⟩, hf, h⟩ := Option.bind_eq_some_iff.1 h
    obtain ⟨⟨e, s''⟩, he, h⟩ := Option.bind_eq_some_iff.1 h
    dsimp only at h
    split at h
    · rename_i hempty
      subst hempty
      exact (leaves_digits s).trans ((leaves_fraction? hf).trans (leaves_exponent? he))
    · cases h

/-- A numeral holds only characters of numerals. -/
theorem isNumeric_of_ofChars? {s : List Char} {n : Numeral} (h : ofChars? s = some n) :
    s ≠ [] ∧ ∀ c ∈ s, Json.isNumeric c = true := by
  have hleaves : s ≠ [] ∧ Leaves s [] := by
    by_cases hsign : ∃ rest, s = '-' :: rest
    · obtain ⟨rest, rfl⟩ := hsign
      exact ⟨List.cons_ne_nil _ _, .cons rfl (leaves_unsigned? h).2⟩
    · rw [ofChars?_of_ne fun rest hs => hsign ⟨rest, hs⟩] at h
      exact leaves_unsigned? h
  obtain ⟨hne, t, rfl, ht⟩ := hleaves
  rw [List.append_nil] at hne ⊢
  exact ⟨hne, ht⟩

end Numeral

end PrimalHeuristics
