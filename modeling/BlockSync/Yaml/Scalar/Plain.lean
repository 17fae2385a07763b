/-
  BlockSync.Yaml.Scalar.Plain
  ───────────────────────────
  **SCALARS WITHOUT QUOTES.**

  A plain scalar ends before a colon that no word goes on from, before a
  comment, before a mark around a document, in a block before a line that is
  not indented far enough, and in brackets before whatever structures them.
-/
import BlockSync.Yaml.Scalar.Folding

namespace BlockSync.Yaml.Plain

/-- A character that has a meaning of its own where a scalar may begin. -/
def isIndicator (c : Char) : Bool :=
  ['-', '?', ':', ',', '[', ']', '\x7b', '\x7d', '#', '&', '*', '!', '|', '>', '\x27', '"', '%', '@',
    '\x60'].contains c

/-- A character that structures what stands in brackets. -/
def isFlowIndicator (c : Char) : Bool :=
  [',', '[', ']', '\x7b', '\x7d'].contains c

/-- Whether a plain scalar may begin with a character, given what follows it. -/
def begins (inFlow : Bool) (c : Char) (rest : Text) : Bool :=
  !(isBlank c || isBreak c || isIndicator c)
    || (c = '-' && !rest.startsWith isBlank)
    || (!inFlow && (c = '?' || c = ':') && !rest.endsWord)

/-- What precedes a character of a plain scalar. -/
inductive Lead where
  | word
  | blank
  | lineBreak
deriving DecidableEq

/-- The pieces of a plain scalar, whether its last gap reaches into another
line, and what follows that gap.  In blocks no line may begin before the
margin. -/
def takePieces? (inFlow : Bool) (margin : Nat) : Lead → Text → Option (List Piece × Bool × Text)
  | lead, [] => some ([], lead = .lineBreak, [])
  | lead, c :: rest =>
    let ended := some ([], decide (lead = .lineBreak), c :: rest)
    let more (lead : Lead) := (takePieces? inFlow margin lead rest).map fun (pieces, out) =>
      (Piece.ofChar c.char :: pieces, out)
    if isBlank c.char then
      if lead = .lineBreak && c.char = '\t' && c.column < margin then none
      else more (if lead = .lineBreak then .lineBreak else .blank)
    else if isBreak c.char then more .lineBreak
    else if lead ≠ .word && (c.char = '#' || Text.startsMark (c :: rest)
        || (!inFlow && c.column < margin)) then ended
    else if inFlow && c.char = ':'
        && Text.startsWith rest (fun d => d = '?' || isFlowIndicator d) then none
    else if c.char = ':' && Text.endsWord rest || inFlow && isFlowIndicator c.char then ended
    else more .word

/-- **A plain scalar**: its text, whether the gap after it reaches into another
line, and what follows the gap. -/
def take? (inFlow : Bool) (margin : Nat) (t : Text) : Option (List Char × Bool × Text) :=
  (takePieces? inFlow margin .word t).map fun (pieces, out) =>
    (Piece.text (Piece.dropLastGap pieces), out)

end BlockSync.Yaml.Plain
