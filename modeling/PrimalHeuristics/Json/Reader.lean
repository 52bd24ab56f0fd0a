import PrimalHeuristics.Json.Numeral
import PrimalHeuristics.Json.Quoted

/-!
# JSON values

`Json.parse?` reads a text that holds one value, with nothing but blanks around it. Members of an
object are kept in their order, repeated ones included. Numbers are kept by their parts, so that no
digit is lost and no range is asked for.

A string whose escapes leave half of a character alone is well formed, but has no text.
-/

namespace PrimalHeuristics

/-- A JSON value. -/
inductive Json where
  | null
  | bool (b : Bool)
  | number (n : Numeral)
  | string (text : Option String)
  | array (items : List Json)
  | object (members : List (Option String × Json))

namespace Json

/-- A blank between values. -/
def isBlank (c : Char) : Bool :=
  c == ' ' || c == '\n' || c == '\t' || c == '\r'

/-- A character that may stand in a numeral. -/
def isNumeric (c : Char) : Bool :=
  ('0' ≤ c && c ≤ '9') || c == '-' || c == '+' || c == '.' || c == 'e' || c == 'E'

/-- The text without the blanks at its front. -/
def skip (s : List Char) : List Char :=
  s.dropWhile isBlank

/-- A string, after its opening mark. -/
def readString (s : List Char) : Option (Option String × List Char) := do
  let (pieces, rest) ← Quoted.scan s
  return ((Quoted.join pieces).map String.ofList, rest)

/-- A number: all characters that may belong to it have to. -/
def readNumber (s : List Char) : Option (Json × List Char) := do
  let n ← Numeral.ofChars? (s.takeWhile isNumeric)
  return (.number n, s.dropWhile isNumeric)

mutual

/-- A value, without blanks at its front. Each value and each member takes one from the fuel. -/
def readValue : Nat → List Char → Option (Json × List Char)
  | 0, _ => none
  | fuel + 1, s =>
    match s with
    | 'n' :: 'u' :: 'l' :: 'l' :: rest => some (.null, rest)
    | 't' :: 'r' :: 'u' :: 'e' :: rest => some (.bool true, rest)
    | 'f' :: 'a' :: 'l' :: 's' :: 'e' :: rest => some (.bool false, rest)
    | '"' :: rest => do
      let (text, rest) ← readString rest
      return (.string text, rest)
    | '[' :: rest =>
      match skip rest with
      | ']' :: rest => some (.array [], rest)
      | rest => do
        let (items, rest) ← readItems fuel rest
        return (.array items, rest)
    | '\x7b' :: rest =>
      match skip rest with
      | '\x7d' :: rest => some (.object [], rest)
      | rest => do
        let (members, rest) ← readMembers fuel rest
        return (.object members, rest)
    | s => readNumber s

/-- The items of an array up to its end, of which there is at least one. -/
def readItems : Nat → List Char → Option (List Json × List Char)
  | 0, _ => none
  | fuel + 1, s => do
    let (item, rest) ← readValue fuel s
    match skip rest with
    | ']' :: rest => return ([item], rest)
    | ',' :: rest => do
      let (items, rest) ← readItems fuel (skip rest)
      return (item :: items, rest)
    | _ => none

/-- The members of an object up to its end, of which there is at least one. -/
def readMembers : Nat → List Char → Option (List (Option String × Json) × List Char)
  | 0, _ => none
  | fuel + 1, s =>
    match s with
    | '"' :: rest => do
      let (key, rest) ← readString rest
      match skip rest with
      | ':' :: rest => do
        let (value, rest) ← readValue fuel (skip rest)
        match skip rest with
        | '\x7d' :: rest => return ([(key, value)], rest)
        | ',' :: rest => do
          let (members, rest) ← readMembers fuel (skip rest)
          return ((key, value) :: members, rest)
        | _ => none
      | _ => none
    | _ => none

end

/-- The value that a text holds. Values and members start with a character of their own, so twice
the length is fuel enough. -/
def parse? (s : String) : Option Json :=
  match readValue (2 * s.length + 1) (skip s.toList) with
  | some (value, rest) => if skip rest = [] then some value else none
  | none => none

end Json

end PrimalHeuristics
