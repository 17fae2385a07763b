/-
  BlockSync.Yaml.Scalar.Block
  ───────────────────────────
  **SCALARS OF INDENTED LINES.**

  A block of lines follows a line with its indicators.  The margin in front of
  the lines is dropped; where it is not given, the first line shows it.  The
  lines are kept as they are or joined, and what becomes of the ends of lines
  behind the last of them is chosen by an indicator.
-/
import BlockSync.Yaml.Scalar.Folding

namespace BlockSync.Yaml.Block

/-! ## §1. The indicators. -/

/-- What becomes of the ends of lines at the end of a block. -/
inductive Chomping where
  /-- All are dropped. -/
  | strip
  /-- One is kept. -/
  | clip
  /-- All are kept. -/
  | keep
deriving Repr, DecidableEq

/-- An indicator of chomping. -/
def takeChomping (t : Text) : Option Chomping × Text :=
  match t with
  | c :: rest =>
    if c.char = '+' then (some .keep, rest)
    else if c.char = '-' then (some .strip, rest)
    else (none, t)
  | [] => (none, [])

/-- An indicator of indentation, which is not zero. -/
def takeIndentation? (t : Text) : Option (Option Nat × Text) :=
  match t with
  | c :: rest =>
    if c.char = '0' then none
    else if isDigit c.char then some (some (c.char.toNat - '0'.toNat), rest)
    else some (none, t)
  | [] => some (none, [])

/-- The indicators in either order, and what follows their line. -/
def takeHeader? (t : Text) : Option (Chomping × Option Nat × Text) := do
  let (early, t) := takeChomping t
  let (indentation, t) ← takeIndentation? t
  let (late, t) := if early.isSome then (early, t) else takeChomping t
  let t ← t.dropLineEnd?
  some (late.getD .clip, indentation, t)

/-! ## §2. The margin. -/

/-- The least margin inside a block that begins at a column. -/
def leastMargin (parent : Option Nat) : Nat :=
  max 1 ((parent.map (· + 1)).getD 0)

/-- The margin that the lines show: the first line that is not empty begins
there, unless an empty one before it reaches farther.  No tab may stand in it. -/
def shownMargin? (parent : Option Nat) (t : Text) : Option Nat :=
  let isLead (c : Placed) : Bool := c.char = ' ' || isBreak c.char
  let next : Text := t.dropWhile isLead
  if next.startsWith (· = '\t') then none
  else
    let ends : Text := (t.takeWhile isLead).filter (fun c => isBreak c.char) ++ next.take 1
    some (ends.foldl (fun m c => max m c.column) (leastMargin parent))

/-- The margin of a block, by its indicator or by its lines. -/
def margin? (parent : Option Nat) (indentation : Option Nat) (t : Text) : Option Nat :=
  match indentation with
  | some n => some (parent.getD 0 + n)
  | none => shownMargin? parent t

/-! ## §3. The lines. -/

/-- The lines of a block without their margin, and what follows the block. -/
def takeLines? (margin : Nat) : (inLine : Bool) → Text → Option (List Char × Text)
  | _, [] => some ([], [])
  | true, c :: rest =>
    (takeLines? margin (!isBreak c.char) rest).map fun (cs, rest) => (c.char :: cs, rest)
  | false, c :: rest =>
    if c.char = ' ' && c.column < margin then takeLines? margin false rest
    else if c.char = '\t' && c.column < margin then none
    else if isBreak c.char then
      (takeLines? margin false rest).map fun (cs, rest) => (c.char :: cs, rest)
    else if c.column = margin then
      (takeLines? margin true rest).map fun (cs, rest) => (c.char :: cs, rest)
    else some ([], c :: rest)

/-- Whether a line is set off by a blank. -/
def isSetOff (line : List Char) : Bool :=
  line.head?.any isBlank

/-- Lines that are joined, given whether the line before was set off: gaps and
lines take turns.  A gap beside a line that is set off is kept. -/
def joinLines (setOff : Bool) : List (List Char) → List Char
  | gap :: line :: rest =>
    (if setOff || isSetOff line then gap else foldBreaks gap)
      ++ line ++ joinLines (isSetOff line) rest
  | rest => rest.flatten

/-- The text of lines, the ends of lines in front of the first being kept. -/
def join (cs : List Char) : List Char :=
  let before := cs.takeWhile isBreak
  match (cs.dropWhile isBreak).splitBy (fun a b => isBreak a == isBreak b) with
  | [] => before
  | line :: rest => before ++ line ++ joinLines (isSetOff line) rest

/-- The ends of lines that are kept behind a text. -/
def chomp (chomping : Chomping) (body ends : List Char) : List Char :=
  match chomping with
  | .strip => []
  | .clip => if body.isEmpty then [] else ends.take 1
  | .keep => ends

/-- **The text of a block**, its first indicator being taken, and what follows.
The block stands inside a block that begins at the column `parent`. -/
def take? (folded : Bool) (parent : Option Nat) (t : Text) : Option (List Char × Text) := do
  let (chomping, indentation, t) ← takeHeader? t
  let margin ← margin? parent indentation t
  let (cs, rest) ← takeLines? margin false t
  let ends := (cs.reverse.takeWhile isBreak).reverse
  let body := cs.take (cs.length - ends.length)
  some ((if folded then join body else body) ++ chomp chomping body ends, rest)

end BlockSync.Yaml.Block
