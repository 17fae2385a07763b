/-
  BlockSync.Yaml.Scalar.Folding
  ─────────────────────────────
  **LINES THAT ARE JOINED TO ONE TEXT.**

  Between two words of a scalar stands a gap.  Blanks inside a line are kept;
  around the end of a line they are dropped.  A single end of a line becomes a
  space, and of several the first is dropped.
-/
import BlockSync.Yaml.Text

namespace BlockSync.Yaml

/-! ## §1. Gaps. -/

/-- The text that the ends of lines between two words stand for. -/
def foldBreaks : List Char → List Char
  | ['\n'] => [' ']
  | '\n' :: more => more
  | breaks => breaks

/-- What was met since the last word. -/
inductive Gap where
  | blanks (cs : List Char)
  | breaks (cs : List Char)
  /-- A first end of a line was taken back; the further ones are kept. -/
  | joined (cs : List Char)

namespace Gap

/-- The text that a gap stands for. -/
def text : Gap → List Char
  | blanks cs => cs
  | breaks cs => foldBreaks cs
  | joined cs => cs

/-- A gap and one more blank. -/
def addBlank (c : Char) : Gap → Gap
  | blanks cs => .blanks (cs ++ [c])
  | g => g

/-- A gap and one more end of a line. -/
def addBreak (c : Char) : Gap → Gap
  | blanks _ => .breaks [c]
  | breaks cs => .breaks (cs ++ [c])
  | joined cs => .joined (cs ++ [c])

end Gap

/-! ## §2. Words and gaps. -/

/-- A piece of a scalar as it is written. -/
inductive Piece where
  /-- A character of a word. -/
  | solid (c : Char)
  | blank (c : Char)
  | lineBreak (c : Char)
  /-- An end of a line that was taken back. -/
  | joint
deriving Repr, DecidableEq

namespace Piece

/-- The piece that a character is where nothing gives it another meaning. -/
def ofChar (c : Char) : Piece :=
  if isBlank c then .blank c else if isBreak c then .lineBreak c else .solid c

/-- Whether a piece belongs to a word. -/
def isSolid : Piece → Bool
  | .solid _ => true
  | _ => false

/-- The text of pieces after a gap. -/
def textAfter : Gap → List Piece → List Char
  | gap, [] => gap.text
  | gap, .solid c :: rest => gap.text ++ c :: textAfter (.blanks []) rest
  | gap, .joint :: rest => gap.text ++ textAfter (.joined []) rest
  | gap, .blank c :: rest => textAfter (gap.addBlank c) rest
  | gap, .lineBreak c :: rest => textAfter (gap.addBreak c) rest

/-- **The text that pieces stand for.** -/
def text (pieces : List Piece) : List Char :=
  textAfter (.blanks []) pieces

/-- Pieces without the gap at their end. -/
def dropLastGap (pieces : List Piece) : List Piece :=
  (pieces.reverse.dropWhile fun p => !p.isSolid).reverse

end Piece
end BlockSync.Yaml
