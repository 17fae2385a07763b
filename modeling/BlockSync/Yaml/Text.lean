/-
  BlockSync.Yaml.Text
  ───────────────────
  **THE CHARACTERS OF A YAML TEXT, EACH WITH ITS PLACE.**

  What a character means depends on where it stands, so every character is
  kept together with its place.  All common line breaks are read as one, the
  pair of carriage return and line feed included; the two separators of lines
  and paragraphs keep their character.
-/
import BlockSync.Bytes.Endian

namespace BlockSync.Yaml

/-! ## §1. Classes of characters. -/

/-- A blank inside a line. -/
def isBlank (c : Char) : Bool :=
  c = ' ' || c = '\t'

/-- The end of a line. -/
def isBreak (c : Char) : Bool :=
  c = '\n' || c = '\u2028' || c = '\u2029'

/-- A decimal digit. -/
def isDigit (c : Char) : Bool :=
  '0' ≤ c && c ≤ '9'

/-- A character of names: an ASCII letter, a digit, an underscore or a hyphen. -/
def isWordChar (c : Char) : Bool :=
  isDigit c || ('a' ≤ c && c ≤ 'z') || ('A' ≤ c && c ≤ 'Z') || c = '_' || c = '-'

/-- A character that may stand in a text at all: no control but the tab and
the ends of lines, and neither of the two codes that denote no character. -/
def isAllowed (c : Char) : Bool :=
  c = '\t' || c = '\n' || c = '\r' || c = '\u0085'
    || (' ' ≤ c && c ≤ '~') || ('\u00a0' ≤ c && c ≤ '\ufffd') || 0x10000 ≤ c.toNat

/-- The mark of byte order. -/
def byteOrderMark : Char := '\ufeff'

/-! ## §2. Characters with their places. -/

/-- A character of a text: how many characters stand before it, how many lines
end before it, and how many characters of its own line stand before it. -/
structure Placed where
  char : Char
  index : Nat
  line : Nat
  column : Nat
deriving Repr, DecidableEq

/-- What is left of a text. -/
abbrev Text := List Placed

/-- A character that is read as the common end of a line. -/
def endsLine (c : Char) : Bool :=
  c = '\n' || c = '\r' || c = '\u0085'

/-- The characters of a text with their places, the first one's place being given. -/
def place : (index line column : Nat) → List Char → Text
  | i, l, col, '\r' :: '\n' :: rest => ⟨'\n', i, l, col⟩ :: place (i + 2) (l + 1) 0 rest
  | i, l, col, c :: rest =>
    if endsLine c then ⟨'\n', i, l, col⟩ :: place (i + 1) (l + 1) 0 rest
    else if isBreak c then ⟨c, i, l, col⟩ :: place (i + 1) (l + 1) 0 rest
    else ⟨c, i, l, col⟩ :: place (i + 1) l (col + 1) rest
  | _, _, _, [] => []

namespace Text

/-- The text that bytes stand for, if they are UTF-8 and hold nothing that is
not allowed. -/
def ofBytes? (bytes : Bytes) : Option Text := do
  let s ← String.fromUTF8? ⟨bytes.toArray⟩
  if s.toList.all isAllowed then some (place 0 0 0 s.toList) else none

/-- Whether the text goes on with a given class of characters. -/
def startsWith (t : Text) (p : Char → Bool) : Bool :=
  (t.head?.map fun c => p c.char).getD false

/-- Whether a word that reaches up to here is over: a blank, the end of the
line or the end of the text follows. -/
def endsWord (t : Text) : Bool :=
  t.isEmpty || t.startsWith fun c => isBlank c || isBreak c

/-- The longest beginning of a class of characters, and what follows it. -/
def span (t : Text) (p : Char → Bool) : List Char × Text :=
  ((t.takeWhile fun c => p c.char).map Placed.char, t.dropWhile fun c => p c.char)

/-- What follows a comment that begins here, up to the end of its line. -/
def dropComment (t : Text) : Text :=
  if t.startsWith (· = '#') then (t.span fun c => !isBreak c).2 else t

/-- What follows the blanks, the comment and the end of the line that must be
all that is left of a line. -/
def dropLineEnd? (t : Text) : Option Text :=
  match (t.span isBlank).2.dropComment with
  | [] => some []
  | c :: rest => if isBreak c.char then some rest else none

/-- Three equal characters at the beginning of a line that no word goes on
from, and what follows them: the form of the marks around a document. -/
def takeMark? (t : Text) (mark : Char) : Option Text :=
  match t with
  | a :: b :: c :: rest =>
    if a.column = 0 && [a, b, c].all (·.char = mark) && Text.endsWord rest then some rest
    else none
  | _ => none

/-- Whether the mark before or after a document stands here. -/
def startsMark (t : Text) : Bool :=
  (t.takeMark? '-').isSome || (t.takeMark? '.').isSome

end Text
end BlockSync.Yaml
