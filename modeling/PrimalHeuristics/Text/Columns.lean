import PrimalHeuristics.Text.CharClass
import PrimalHeuristics.Text.ControlSequence

/-!
# Columns of a text

Most characters take the columns that their class says. Some combine with those that follow: flags,
pictures with a skin tone or joined to one picture, and the ligatures of several scripts; a selector
decides whether the character before it is a picture or a text. So a text is read from its end. What
a character may combine with is the context that its right neighbours leave; a character takes the
columns by which the text grows, which are less than none where the combination is narrower than
what follows.

* `Text.step`: the columns of one character, and the context that it leaves;
* `Text.columns`: the columns of a text, control sequences apart.
-/

namespace PrimalHeuristics

namespace Text

/-! ### What stands to the right -/

/-- The last part of a ligature. -/
inductive Ligature where
  /-- Lamed, which an alef joins. -/
  | lamed
  /-- The Buginese letter ya. -/
  | ya
  /-- The Buginese vowel i on ya. -/
  | vowelOnYa
  | tifinagh
  /-- A Tifinagh letter and the joiner of that script before it. -/
  | tifinaghJoined
  /-- A low tone of Lisu. -/
  | lisuTone
  /-- The Old Turkic letter i. -/
  | turkicI
  /-- A Khmer letter that may become a subscript. -/
  | khmer

/-- What the characters to the right leave to combine with. -/
inductive Context where
  /-- Nothing. -/
  | plain
  | lineFeed
  /-- A skin tone. -/
  | modifier
  /-- One letter of a flag, or several. -/
  | flagLetter
  | flagLetters
  | picture
  /-- A joiner before a picture. -/
  | joinedPicture
  /-- A key cap before such a joiner. -/
  | joinedKeycap
  /-- Letters of a flag before such a joiner: one, an even number, or a greater odd number. -/
  | joinedFlagLetter
  | joinedFlagEven
  | joinedFlagOdd
  /-- The end of a region tag before such a joiner, with letters and digits that have been read. -/
  | tag (letters digits : Nat)
  /-- An Arabic alef. -/
  | alef
  /-- Part of a ligature, with a joiner before it or without. -/
  | ligature (part : Ligature) (joined : Bool)
  /-- Vowels e and ai of Kirat Rai. -/
  | vowelE
  | vowelAi

namespace Context

/-- Ligatures reach over selectors, and selectors over each other to what is before a ligature. -/
def isLigature : Context → Bool
  | alef => true
  | ligature .. => true
  | _ => false

/-- The context, if it is part of a ligature. -/
def ligatureOnly (x : Context) : Context :=
  if x.isLigature then x else plain

/-- The picture before it takes no columns of its own. -/
def isJoined : Context → Bool
  | joinedPicture | joinedKeycap => true
  | _ => false

end Context

/-- A selector decides on the form of a character before it. -/
inductive Selector where
  | picture
  | text
  | wide
  deriving DecidableEq

/-- All that a character sees of what stands to the right. -/
structure Right where
  context : Context
  /-- The selectors that follow. -/
  selectors : List Selector

/-! ### Single characters -/

/-- The selector that a character is. -/
def selector? (c : Nat) : Option Selector :=
  if c == 0xFE0F then some .picture
  else if c == 0xFE0E then some .text
  else if c == 0xFE01 then some .wide
  else none

/-- The joiner of pictures and letters. -/
def isJoiner (c : Nat) : Bool :=
  c == 0x200D

def isFlagLetter (c : Nat) : Bool :=
  0x1F1E6 ≤ c && c ≤ 0x1F1FF

def isModifier (c : Nat) : Bool :=
  0x1F3FB ≤ c && c ≤ 0x1F3FF

/-- Opening and closing quotes, which are wide in texts of East Asia. -/
def isQuote (c : Nat) : Bool :=
  [0x2018, 0x2019, 0x201C, 0x201D].contains c

/-- A character that combines with nothing to its right. -/
def alone (c : Nat) : Int × Context :=
  if c == 0x5DC then (1, .ligature .lamed false)
  else if isIn alefs c then (1, .alef)
  else if isIn khmerLetters c then (1, .ligature .khmer false)
  else if c == 0x17A4 then (2, .plain)
  else if c == 0x17D8 then (3, .plain)
  else if c == 0x1A10 then (1, .ligature .ya false)
  else if isIn tifinaghLetters c then (1, .ligature .tifinagh false)
  else if c == 0xA4FC || c == 0xA4FD then (1, .ligature .lisuTone false)
  else if c == 0x10C03 then (1, .ligature .turkicI false)
  else if c == 0x16D67 then (1, .vowelE)
  else if c == 0x16D68 then (1, .vowelAi)
  else if isFlagLetter c then (1, .flagLetter)
  else if isModifier c then (2, .modifier)
  else if isIn pictures c then (2, .picture)
  else if isIn invisible c then (0, .plain)
  else if isIn wide c then (2, .plain)
  else (1, .plain)

/-- A control character, or another one of the first characters. The two characters that end a line
are one. -/
def early (c : Nat) (x : Context) : Int × Context :=
  match x with
  | .lineFeed => if c == 0x0D then (0, .plain) else if c == 0x0A then (1, x) else (1, .plain)
  | _ => if c == 0x0A then (1, .lineFeed) else (1, .plain)

/-! ### Combinations -/

/-- A character before part of a ligature, if they combine. -/
def ligated (c : Nat) (joined : Bool) : Ligature → Option (Int × Context)
  | .lamed => if joined && c == 0x5D0 then some (0, .plain) else none
  | .ya => if joined && c == 0x1A17 then some (0, .ligature .vowelOnYa false) else none
  | .vowelOnYa => if c == 0x1A15 then some (0, .plain) else none
  | .tifinagh =>
    if c == 0x2D7F then some (1, .ligature .tifinaghJoined false)
    else if joined && isIn tifinaghLetters c then some (0, .plain)
    else none
  | .tifinaghJoined => if isIn tifinaghLetters c then some (-1, .plain) else none
  | .lisuTone => if 0xA4F8 ≤ c && c ≤ 0xA4FB then some (0, .plain) else none
  | .turkicI => if joined && c == 0x10C32 then some (0, .plain) else none
  | .khmer => if c == 0x17D2 then some (-1, .plain) else none

/-- A joiner before a picture. -/
def joiner (c : Nat) : Option (Int × Context) :=
  if isJoiner c then some (0, .joinedPicture) else none

/-- A character before a region tag, if it belongs to it. The tag has a black flag, then three to
six letters, or up to four letters and three digits, then the end. -/
def tagged (c letters digits : Nat) : Option (Int × Context) :=
  if 0xE0061 ≤ c && c ≤ 0xE007A && digits == 0 && letters < 6 then
    some (0, .tag (letters + 1) 0)
  else if 0xE0030 ≤ c && c ≤ 0xE0039 && letters ≤ 4 && digits < 3 then
    some (0, .tag letters (digits + 1))
  else if c == 0x1F3F4 && (digits == 3 || digits == 0 && 3 ≤ letters) then some (0, .picture)
  else none

/-- A character before a context, if they combine. -/
def combined (c : Nat) : Context → Option (Int × Context)
  | .plain | .lineFeed => none
  | .modifier => if isIn modifierBases c then some (0, .picture) else joiner c
  | .flagLetter => if isFlagLetter c then some (1, .flagLetters) else none
  | .flagLetters => if isFlagLetter c then some (1, .flagLetters) else joiner c
  | .picture => joiner c
  | .joinedPicture =>
    if c == 0x20E3 then some (0, .joinedKeycap)
    else if isFlagLetter c then some (1, .joinedFlagLetter)
    else if isModifier c then some (0, .modifier)
    else if c == 0xE007F then some (0, .tag 0 0)
    else if isIn pictures c then some (0, .picture)
    else none
  | .joinedKeycap => none
  | .joinedFlagLetter => if isFlagLetter c then some (-1, .joinedFlagEven) else none
  | .joinedFlagEven => if isFlagLetter c then some (3, .joinedFlagOdd) else joiner c
  | .joinedFlagOdd => if isFlagLetter c then some (-1, .joinedFlagEven) else joiner c
  | .tag letters digits => tagged c letters digits
  | .alef =>
    if isIn lams c then some (0, .plain)
    else if isIn invisible c && !isIn parting c then some (0, .alef)
    else none
  | .ligature part joined =>
    if isJoiner c then some (0, .ligature part true)
    else if isIn ligatureMarks c then some (0, .ligature part joined)
    else ligated c joined part
  | .vowelE =>
    if c == 0x16D63 || c == 0x16D69 then some (0, .plain)
    else if c == 0x16D67 then some (0, .vowelAi)
    else if c == 0x16D68 then some (1, .vowelE)
    else none
  | .vowelAi => if c == 0x16D63 then some (0, .plain) else none

/-- A character before selectors, if it has a form that is asked for. -/
def selected (c : Nat) (s : Right) : Option (Int × Context) :=
  if s.selectors.contains .picture && isIn pictureBases c then
    some (if s.context.isJoined then 0 else 2, .picture)
  else if s.selectors.contains .text && isIn textBases c then some (1, .plain)
  else if s.selectors.contains .wide && isQuote c then some (2, .plain)
  else none

/-- The context without the selectors that follow; only part of a ligature remains. -/
def Right.unselected (s : Right) : Context :=
  if s.selectors.isEmpty then s.context else s.context.ligatureOnly

/-- One more selector. Before part of a ligature others stay with it, unless they ask for a
picture. -/
def Right.select (s : Right) (v : Selector) : Right :=
  let x := s.unselected
  if x.isLigature then ⟨x, v :: s.selectors.filter (· ≠ .picture)⟩
  else if v = .picture ∧ x.isJoined then ⟨x, [v]⟩
  else ⟨.plain, [v]⟩

/-! ### Texts -/

/-- The columns that a character adds to what stands to its right. -/
def step (c : Nat) (s : Right) : Int × Right :=
  match selected c s, selector? c with
  | some (n, x), _ => (n, ⟨x, []⟩)
  | none, some v => (0, s.select v)
  | none, none =>
    let (n, x) :=
      if c ≤ 0xA0 then early c s.unselected else (combined c s.unselected).getD (alone c)
    (n, ⟨x, []⟩)

/-- The columns of a text without control sequences, and the context that it leaves. -/
def measure (l : List Char) : Int × Right :=
  l.foldr (fun c m => let (n, s) := step c.toNat m.2; (m.1 + n, s)) (0, ⟨.plain, []⟩)

/-- The number of columns that a text takes. -/
def columns (s : String) : Nat :=
  (measure (shown 0 s.toList)).1.toNat

end Text

end PrimalHeuristics
