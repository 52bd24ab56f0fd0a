import Mathlib.Tactic
import PrimalHeuristics.Json.Reader

/-!
# Quoted strings read back

What is written for a character is read as one piece, and the piece stands for the character. So a
quoted text is read up to its closing mark, and gives the text again.

* `Quoted.exists_piece`: a character;
* `Quoted.exists_pieces`: a text;
* `Json.readString_encode`: a string value.
-/

namespace PrimalHeuristics

namespace Quoted

/-- The piece is read where the characters stand, whatever follows. -/
def Reads (l : List Char) (q : Piece) : Prop :=
  ∀ rest, scan (l ++ rest) = (scan rest).map fun s => (q :: s.1, s.2)

theorem reads_escape {c d : Char} (h : unescape? c = some d) (hu : c ≠ 'u') :
    Reads ['\\', c] (.char d) := by
  intro rest
  show scan ('\\' :: c :: rest) = _
  rw [scan, h]
  · cases scan rest <;> rfl
  · simp [hu]

theorem reads_digits {a b c d : Char} {n : Nat} (h : hexWord? a b c d = some n) :
    Reads ['\\', 'u', a, b, c, d] (.digits n) := by
  intro rest
  show scan ('\\' :: 'u' :: a :: b :: c :: d :: rest) = _
  rw [scan, h]
  cases scan rest <;> rfl

theorem reads_plain {c : Char} (hmark : c ≠ '"') (hslash : c ≠ '\\') (h : ¬ c.toNat < 32) :
    Reads [c] (.char c) := by
  intro rest
  show scan (c :: rest) = _
  rw [scan, if_neg h]
  · cases scan rest <;> rfl
  all_goals simp [hmark, hslash]

theorem hexWord?_hexDigit : ∀ n < 32,
    hexWord? '0' '0' (hexDigit (n / 16)) (hexDigit (n % 16)) = some n := by
  decide

theorem join_char (c : Char) (l : List Piece) : join (.char c :: l) = (join l).map (c :: ·) := by
  rw [join]

/-- Digits for no half of a character stand for a character of their own. -/
theorem join_digits {n : Nat} (h : n < 32) (l : List Piece) :
    join (.digits n :: l) = (join l).map (Char.ofNat n :: ·) := by
  rw [join.eq_def (.digits n :: l)]
  exact if_pos (.inl (by omega))

/-- What is written for a character is read as a piece that stands for it. -/
theorem exists_piece (c : Char) : ∃ q, Reads (escape c) q ∧
    ∀ l, join (q :: l) = (join l).map (c :: ·) := by
  unfold escape
  split
  case h_8 hmark hslash _ _ _ _ _ =>
    split
    · rename_i h
      refine ⟨_, reads_digits (hexWord?_hexDigit _ h), fun l => ?_⟩
      rw [join_digits h, Char.ofNat_toNat]
    · rename_i h
      exact ⟨_, reads_plain hmark hslash h, join_char _⟩
  all_goals exact ⟨_, reads_escape rfl (by decide), join_char _⟩

/-- An escaped text is read up to the closing mark, and its pieces stand for it. -/
theorem exists_pieces (s rest : List Char) : ∃ l,
    scan (encode s ++ '"' :: rest) = some (l, rest) ∧ join l = some s := by
  induction s with
  | nil => exact ⟨[], by rw [encode, List.flatMap_nil, List.nil_append, scan], by rw [join]⟩
  | cons c s ih =>
    obtain ⟨l, hscan, hjoin⟩ := ih
    obtain ⟨q, hreads, hstands⟩ := exists_piece c
    refine ⟨q :: l, ?_, by rw [hstands, hjoin, Option.map_some]⟩
    rw [encode, List.flatMap_cons, List.append_assoc, hreads, ← encode, hscan, Option.map_some]

theorem toList_quote (s : String) : (quote s).toList = '"' :: (encode s.toList ++ ['"']) := by
  rw [quote, String.toList_ofList, List.cons_append]

end Quoted

/-- A quoted text is read as this text. -/
theorem Json.readString_encode (s : String) (rest : List Char) :
    readString (Quoted.encode s.toList ++ '"' :: rest) = some (some s, rest) := by
  obtain ⟨l, hscan, hjoin⟩ := Quoted.exists_pieces s.toList rest
  unfold readString
  rw [hscan]
  simp [hjoin]

end PrimalHeuristics
