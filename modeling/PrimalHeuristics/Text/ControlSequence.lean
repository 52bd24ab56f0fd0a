/-!
# Control sequences of terminals

A terminal does not show the sequences that set its colours or move its cursor. Such a sequence has
an escape character, then one of

* a parenthesis with one of the letters or digits that name a character set;
* opening signs, numbers with semicolons between them, and one more digit, letter or sign.

It is as long as it can be; an escape character that no sequence follows is a character like others.

* `Text.shown`: what remains of a text without its control sequences.
-/

namespace PrimalHeuristics

namespace Text

/-- How far a control sequence has been read. -/
inductive SequenceStage where
  /-- The escape character. -/
  | escape
  /-- A parenthesis right after it. -/
  | parenthesis
  /-- Opening signs. -/
  | opening
  /-- So many digits of a number, four at the most. -/
  | number (digits : Nat)
  /-- Semicolons after a number. -/
  | separator
  /-- The sequence cannot go on. -/
  | closed

namespace SequenceStage

/-- A letter or sign that closes a sequence. -/
def closes (c : Char) : Bool :=
  'A' ≤ c && c ≤ 'P' || c == 'R' || c == 'Z' || c == 'c' || 'f' ≤ c && c ≤ 'n' ||
    "qry=><".toList.contains c

/-- The stage after one more character, if it may follow. -/
def next (s : SequenceStage) (c : Char) : Option SequenceStage :=
  if c == '(' || c == ')' then
    match s with
    | escape => some parenthesis
    | parenthesis | opening => some opening
    | _ => none
  else if c == '[' || c == '#' || c == '?' then
    match s with
    | escape | parenthesis | opening => some opening
    | _ => none
  else if c == ';' then
    match s with
    | escape | parenthesis | opening => some opening
    | number _ | separator => some separator
    | closed => none
  else if c.isDigit then
    match s with
    | parenthesis => some (if c ≤ '2' then closed else number 1)
    | escape | opening | separator => some (number 1)
    | number n => some (if n < 4 then number (n + 1) else closed)
    | closed => none
  else if closes c then
    match s with
    | closed => none
    | _ => some closed
  else none

/-- A sequence may end here. -/
def isEnd : SequenceStage → Bool
  | number _ | closed => true
  | _ => false

/-- The greatest number of characters that bring a sequence to an end, if there is one. -/
def longest (s : SequenceStage) : List Char → Option Nat
  | [] => none
  | c :: l =>
    match s.next c with
    | none => none
    | some t => ((t.longest l).orElse fun _ => if t.isEnd then some 0 else none).map (· + 1)

/-- A sequence takes no more than there is. -/
theorem longest_le_length {s : SequenceStage} {l : List Char} {n : Nat}
    (h : s.longest l = some n) : n ≤ l.length := by
  induction l generalizing s n with
  | nil => simp [longest] at h
  | cons c l ih =>
    unfold longest at h
    split at h
    · contradiction
    · rename_i t _
      obtain ⟨m, hm, rfl⟩ := Option.map_eq_some_iff.1 h
      cases e : t.longest l with
      | some k =>
        rw [e] at hm
        cases hm
        exact Nat.succ_le_succ (ih e)
      | none =>
        rw [e] at hm
        simp only [Option.orElse_none] at hm
        split at hm <;> cases hm
        exact Nat.succ_le_succ (Nat.zero_le _)

end SequenceStage

/-- An escape character, or the one that stands for an escape and a bracket. -/
def isEscape (c : Char) : Bool :=
  c == '\x1b' || c == '\x9b'

/-- A text without its control sequences, where so many characters still belong to one. -/
def shown : Nat → List Char → List Char
  | _, [] => []
  | n + 1, _ :: l => shown n l
  | 0, c :: l =>
    match if isEscape c then SequenceStage.escape.longest l else none with
    | some n => shown n l
    | none => c :: shown 0 l

theorem shown_sublist (n : Nat) (l : List Char) : (shown n l).Sublist l := by
  induction l generalizing n with
  | nil => simp [shown]
  | cons c l ih =>
    cases n with
    | succ n => exact (ih n).cons c
    | zero =>
      unfold shown
      split
      · exact (ih _).cons c
      · exact (ih 0).cons_cons c

/-- A text without escape characters is shown as it is. -/
theorem shown_zero {l : List Char} (h : ∀ c ∈ l, isEscape c = false) : shown 0 l = l := by
  induction l with
  | nil => rfl
  | cons c l ih =>
    rw [List.forall_mem_cons] at h
    simp [shown, h.1, ih h.2]

end Text

end PrimalHeuristics
