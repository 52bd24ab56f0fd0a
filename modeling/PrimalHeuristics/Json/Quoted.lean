/-!
# Quoted strings

A text is quoted by marks at both ends; inside, a mark, a backslash and the control characters below
the blank are escaped. Readers know more escapes: any character, and both halves of a character
outside of the first plane, may be given by four hexadecimal digits.

* `Quoted.encode`: what stands between the marks;
* `Quoted.scan`: the pieces up to the closing mark, and what follows it;
* `Quoted.join`: the text of pieces, if their halves pair up.
-/

namespace PrimalHeuristics

namespace Quoted

/-! ### Writing -/

/-- A digit below sixteen. -/
def hexDigit (n : Nat) : Char :=
  if n < 10 then Char.ofNat (48 + n) else Char.ofNat (87 + n)

/-- What stands for a character. -/
def escape (c : Char) : List Char :=
  match c with
  | '"' => ['\\', '"']
  | '\\' => ['\\', '\\']
  | '\x08' => ['\\', 'b']
  | '\x0C' => ['\\', 'f']
  | '\n' => ['\\', 'n']
  | '\r' => ['\\', 'r']
  | '\t' => ['\\', 't']
  | c =>
    if c.toNat < 32 then ['\\', 'u', '0', '0', hexDigit (c.toNat / 16), hexDigit (c.toNat % 16)]
    else [c]

/-- What stands between the marks. -/
def encode (s : List Char) : List Char :=
  s.flatMap escape

/-- The text with its marks. -/
def quote (s : String) : String :=
  String.ofList ('"' :: encode s.toList ++ ['"'])

/-! ### Reading -/

/-- A character, or what four hexadecimal digits stand for. -/
inductive Piece where
  | char (c : Char)
  | digits (n : Nat)
  deriving DecidableEq, Repr

/-- The character that a backslash and a letter stand for. -/
def unescape? : Char → Option Char
  | '"' => some '"'
  | '\\' => some '\\'
  | '/' => some '/'
  | 'b' => some '\x08'
  | 'f' => some '\x0C'
  | 'n' => some '\n'
  | 'r' => some '\r'
  | 't' => some '\t'
  | _ => none

/-- The value of a hexadecimal digit, in either case. -/
def hexValue? (c : Char) : Option Nat :=
  if '0' ≤ c ∧ c ≤ '9' then some (c.toNat - 48)
  else if 'a' ≤ c ∧ c ≤ 'f' then some (c.toNat - 87)
  else if 'A' ≤ c ∧ c ≤ 'F' then some (c.toNat - 55)
  else none

/-- The value of four hexadecimal digits. -/
def hexWord? (a b c d : Char) : Option Nat := do
  return ((← hexValue? a) * 16 + (← hexValue? b)) * 256 + (← hexValue? c) * 16 + (← hexValue? d)

/-- The pieces up to the closing mark, and what follows it. -/
def scan : List Char → Option (List Piece × List Char)
  | [] => none
  | '"' :: rest => some ([], rest)
  | '\\' :: 'u' :: a :: b :: c :: d :: rest =>
    match hexWord? a b c d, scan rest with
    | some n, some (l, rest) => some (.digits n :: l, rest)
    | _, _ => none
  | '\\' :: c :: rest =>
    match unescape? c, scan rest with
    | some c, some (l, rest) => some (.char c :: l, rest)
    | _, _ => none
  | c :: rest =>
    if c.toNat < 32 then none
    else
      match scan rest with
      | some (l, rest) => some (.char c :: l, rest)
      | none => none

/-- The text of pieces; a half of a character has to be followed by its other half. -/
def join : List Piece → Option (List Char)
  | [] => some []
  | .char c :: l => (join l).map (c :: ·)
  | .digits n :: l =>
    if n < 0xD800 ∨ 0xE000 ≤ n then (join l).map (Char.ofNat n :: ·)
    else
      match l with
      | .digits m :: l =>
        if n < 0xDC00 ∧ 0xDC00 ≤ m ∧ m < 0xE000 then
          (join l).map (Char.ofNat (0x10000 + (n - 0xD800) * 0x400 + (m - 0xDC00)) :: ·)
        else none
      | _ => none

end Quoted

end PrimalHeuristics
