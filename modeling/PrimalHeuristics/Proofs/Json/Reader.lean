import PrimalHeuristics.Proofs.Json.Numeral
import PrimalHeuristics.Proofs.Json.Quoted

/-!
# Objects read back

The text of a value is read from the front of a longer one if no more characters of a number follow.
An object that has one member a line is put together from such texts.

* `Json.Reads`: the texts of null, of truth values, of strings and of numbers;
* `Json.Entry.readMembers_lines`: the members of an object, line by line;
* `Json.Entry.parse?_eq`: the object.
-/

namespace PrimalHeuristics

namespace Json

/-! ### Values -/

/-- The text starts with a value: it is read as this value, and nothing of it is left, unless it goes
on with the characters of a number. -/
structure Reads (text : List Char) (j : Json) : Prop where
  skip_eq : ∀ rest, skip (text ++ rest) = text ++ rest
  readValue_eq : ∀ fuel rest, (∀ c ∈ rest.head?, isNumeric c = false) →
    readValue (fuel + 1) (text ++ rest) = some (j, rest)

theorem reads_null : Reads "null".toList .null :=
  ⟨fun _ => rfl, fun _ _ _ => by rfl⟩

theorem reads_bool (b : Bool) : Reads (if b then "true" else "false").toList (.bool b) := by
  cases b
  · exact ⟨fun _ => rfl, fun _ _ _ => by rfl⟩
  · exact ⟨fun _ => rfl, fun _ _ _ => by rfl⟩

theorem reads_quote (s : String) : Reads (Quoted.quote s).toList (.string (some s)) := by
  rw [Quoted.toList_quote]
  refine ⟨fun _ => rfl, fun fuel rest _ => ?_⟩
  show readValue (fuel + 1) ('"' :: (Quoted.encode s.toList ++ ['"'] ++ rest)) = _
  rw [List.append_assoc, List.singleton_append]
  simp [readValue, readString_encode]

theorem isBlank_of_isNumeric {c : Char} (h : isNumeric c = true) : isBlank c = false := by
  by_contra hnot
  simp only [Bool.not_eq_false, isBlank, Bool.or_eq_true, beq_iff_eq] at hnot
  rcases hnot with ((rfl | rfl) | rfl) | rfl <;> contradiction

/-- Texts that start with a character of a number are read as numbers. -/
theorem readValue_numeric {c : Char} (hc : isNumeric c = true) (fuel : Nat) (s : List Char) :
    readValue (fuel + 1) (c :: s) = readNumber (c :: s) := by
  rw [readValue]
  all_goals
    rintro _ ⟨⟩
    contradiction

/-- The characters of a number in front of a text, and the text. -/
theorem reads_number {text : List Char} {n : Numeral} (h : Numeral.ofChars? text = some n) :
    Reads text (.number n) := by
  obtain ⟨hne, htext⟩ := Numeral.isNumeric_of_ofChars? h
  obtain ⟨c, tail, rfl⟩ := List.exists_cons_of_ne_nil hne
  have hc := htext c List.mem_cons_self
  refine ⟨fun rest => ?_, fun fuel rest hrest => ?_⟩
  · rw [skip, List.cons_append, List.dropWhile_cons_of_neg (by simp [isBlank_of_isNumeric hc])]
  · have htake : rest.takeWhile isNumeric = [] := by
      cases rest with
      | nil => rfl
      | cons d rest => rw [List.takeWhile_cons_of_neg (by simp [hrest d rfl])]
    have hdrop : rest.dropWhile isNumeric = rest := by
      cases rest with
      | nil => rfl
      | cons d rest => rw [List.dropWhile_cons_of_neg (by simp [hrest d rfl])]
    rw [List.cons_append, readValue_numeric hc, ← List.cons_append, readNumber,
      List.takeWhile_append_of_pos htext, List.dropWhile_append_of_pos htext, htake, hdrop,
      List.append_nil, h]
    rfl

/-! ### Objects -/

/-- A member of an object as it is written: its key, the text of its value, and the value. -/
structure Entry where
  key : String
  text : List Char
  value : Json

namespace Entry

/-- The line of a member. -/
def line (e : Entry) : List Char :=
  ' ' :: ' ' :: ((Quoted.quote e.key).toList ++ ':' :: ' ' :: e.text)

/-- The member that is read. -/
def member (e : Entry) : Option String × Json :=
  (some e.key, e.value)

theorem skip_line (e : Entry) (rest : List Char) :
    skip ('\n' :: (e.line ++ rest)) = (Quoted.quote e.key).toList ++ ':' :: ' ' :: (e.text ++ rest) := by
  have hline : e.line ++ rest = ' ' :: ' ' :: ((Quoted.quote e.key).toList ++
      ':' :: ' ' :: (e.text ++ rest)) := by simp [line]
  rw [hline, Quoted.toList_quote]
  rfl

/-- A key is read up to the value of its member; what follows that tells whether the member is the
last one. -/
theorem readMembers_key (fuel : Nat) (key : String) (s : List Char) :
    readMembers (fuel + 1) ((Quoted.quote key).toList ++ ':' :: ' ' :: s) =
      (readValue fuel (skip (' ' :: s))).bind fun (value, rest) =>
        match skip rest with
        | '\x7d' :: rest => some ([(some key, value)], rest)
        | ',' :: rest => (readMembers fuel (skip rest)).bind fun (members, rest) =>
          some ((some key, value) :: members, rest)
        | _ => none := by
  have hcolon : skip (':' :: ' ' :: s) = ':' :: ' ' :: s := rfl
  rw [Quoted.toList_quote, List.cons_append, List.append_assoc, List.singleton_append, readMembers,
    readString_encode, Option.bind_eq_bind, Option.bind_some]
  dsimp only
  rw [hcolon]
  rfl

variable {e : Entry} (he : Reads e.text e.value)
include he

theorem skip_text (rest : List Char) : skip (' ' :: (e.text ++ rest)) = e.text ++ rest :=
  (List.dropWhile_cons_of_pos rfl).trans (he.skip_eq rest)

/-- The last member, and the end of the object. -/
theorem readMembers_last (fuel : Nat) (rest : List Char) :
    readMembers (fuel + 2) ((Quoted.quote e.key).toList ++ ':' :: ' ' ::
      (e.text ++ '\n' :: '\x7d' :: rest)) = some ([e.member], rest) := by
  rw [readMembers_key, skip_text he, he.readValue_eq fuel _ (by rintro _ ⟨⟩; rfl), Option.bind_some]
  rfl

/-- A member that is followed by others. -/
theorem readMembers_next (fuel : Nat) (rest : List Char) :
    readMembers (fuel + 2) ((Quoted.quote e.key).toList ++ ':' :: ' ' :: (e.text ++ ',' :: rest)) =
      (readMembers (fuel + 1) (skip rest)).bind fun (members, rest) =>
        some (e.member :: members, rest) := by
  rw [readMembers_key, skip_text he, he.readValue_eq fuel _ (by rintro _ ⟨⟩; rfl), Option.bind_some]
  rfl

omit he

/-- The members of an object, each on a line of its own, up to its end. -/
theorem readMembers_lines {l : List Entry} (hne : l ≠ [])
    (hl : ∀ e ∈ l, Reads e.text e.value) {fuel : Nat} (hfuel : l.length < fuel)
    (rest : List Char) :
    readMembers fuel (skip ('\n' :: ([',', '\n'].intercalate (l.map line) ++
      '\n' :: '\x7d' :: rest))) = some (l.map member, rest) := by
  induction l generalizing fuel with
  | nil => exact absurd rfl hne
  | cons e l ih =>
    obtain ⟨he, hl⟩ := List.forall_mem_cons.1 hl
    obtain ⟨fuel, rfl⟩ := Nat.exists_eq_add_of_le' (show 2 ≤ fuel by simp at hfuel; omega)
    cases l with
    | nil =>
      rw [List.map_singleton, List.intercalate_singleton, skip_line, readMembers_last he]
      rfl
    | cons d l =>
      have hlength : (d :: l).length < fuel + 1 := by simpa using hfuel
      have hrest := ih (List.cons_ne_nil d l) hl hlength
      rw [List.map_cons, List.map_cons, List.intercalate_cons_cons, List.append_assoc,
        List.append_assoc, skip_line, List.cons_append, List.cons_append, List.nil_append,
        readMembers_next he, ← List.map_cons, hrest]
      rfl

theorem length_le_intercalate (l : List Entry) :
    l.length ≤ ([',', '\n'].intercalate (l.map line)).length := by
  induction l with
  | nil => exact Nat.zero_le _
  | cons e l ih =>
    have hline : 1 ≤ e.line.length := by simp [line]
    cases l with
    | nil => simpa using hline
    | cons d l =>
      rw [List.map_cons, List.map_cons, List.intercalate_cons_cons, ← List.map_cons,
        List.length_append, List.length_append, List.length_cons]
      omega

theorem readValue_lines {l : List Entry} (hne : l ≠ [])
    (hl : ∀ e ∈ l, Reads e.text e.value) {fuel : Nat} (hfuel : l.length < fuel)
    (rest : List Char) :
    readValue (fuel + 1) ('\x7b' :: '\n' :: ([',', '\n'].intercalate (l.map line) ++
      '\n' :: '\x7d' :: rest)) = some (.object (l.map member), rest) := by
  have hmembers := readMembers_lines hne hl hfuel rest
  -- after the blanks comes the mark of a key, not the end of the object
  obtain ⟨tail, htail⟩ : ∃ tail, skip ('\n' :: ([',', '\n'].intercalate (l.map line) ++
      '\n' :: '\x7d' :: rest)) = '"' :: tail := by
    obtain ⟨e, l, rfl⟩ := List.exists_cons_of_ne_nil hne
    cases l with
    | nil =>
      rw [List.map_singleton, List.intercalate_singleton, skip_line, Quoted.toList_quote]
      exact ⟨_, rfl⟩
    | cons d l =>
      rw [List.map_cons, List.map_cons, List.intercalate_cons_cons, List.append_assoc,
        List.append_assoc, skip_line, Quoted.toList_quote]
      exact ⟨_, rfl⟩
  rw [htail] at hmembers
  rw [readValue, htail]
  show (readMembers fuel ('"' :: tail)).bind (fun s => some (object s.1, s.2)) = _
  rw [hmembers]
  rfl

/-- The text of an object with a line for each member. -/
theorem parse?_eq {l : List Entry} (hne : l ≠ []) (hl : ∀ e ∈ l, Reads e.text e.value)
    {s : String} (hs : s.toList = '\x7b' :: '\n' :: ([',', '\n'].intercalate (l.map line) ++
      ['\n', '\x7d'])) : parse? s = some (.object (l.map member)) := by
  have hfuel : l.length < 2 * s.length := by
    have := length_le_intercalate l
    rw [← String.length_toList, hs]
    simp only [List.length_cons, List.length_append, List.length_nil]
    omega
  have hskip : skip s.toList = s.toList := by
    rw [hs]
    rfl
  unfold parse?
  rw [hskip, hs, readValue_lines hne hl hfuel []]
  rfl

end Entry

end Json

end PrimalHeuristics
