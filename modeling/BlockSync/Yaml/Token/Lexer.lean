/-
  BlockSync.Yaml.Token.Lexer
  ──────────────────────────
  **FROM A TEXT TO ITS TOKENS.**

  A key is known as such only when its colon is met, so a place where a key
  may have begun is kept as a candidate: one for the block and one for each
  open bracket.  When the colon follows on the same line and not too far
  behind, the token of the key is put in front of what was read since.  A
  candidate at the column of its block must turn out to be a key.
-/
import BlockSync.Yaml.Scalar.Block
import BlockSync.Yaml.Scalar.Plain
import BlockSync.Yaml.Scalar.Quoted
import BlockSync.Yaml.Tag

namespace BlockSync.Yaml

/-! ## §1. The state. -/

/-- A place where a key may have begun. -/
structure Candidate where
  required : Bool
  /-- How many tokens were read before it. -/
  tokensBefore : Nat
  place : Placed
deriving Repr, DecidableEq

/-- Whether a candidate is too far back: on a line before, or more than 1024
characters away. -/
def Candidate.isStale (here : Placed) (k : Candidate) : Bool :=
  k.place.line < here.line || k.place.index + 1024 < here.index

/-- A candidate that may still be a key; nothing at all if it must be one. -/
def Candidate.renew? (here : Placed) : Option Candidate → Option (Option Candidate)
  | none => some none
  | some k =>
    if k.isStale here then if k.required then none else some none
    else some (some k)

/-- How far a text is read. -/
structure Lexer where
  rest : Text
  /-- The tokens so far, the last one first. -/
  tokens : List Token
  /-- The columns of the open blocks, the innermost first. -/
  blocks : List Nat
  /-- Whether a key or an item may begin here. -/
  keyAllowed : Bool
  candidate : Option Candidate
  /-- The candidates outside of each open bracket, the innermost first. -/
  outer : List (Option Candidate)

namespace Lexer

/-- A text of which nothing is read. -/
def start (t : Text) : Lexer := ⟨t, [], [], true, none, []⟩

/-- Whether a bracket is open. -/
def inFlow (l : Lexer) : Bool := !l.outer.isEmpty

/-- One more token, and what follows it. -/
def push (l : Lexer) (token : Token) (rest : Text) : Lexer :=
  { l with tokens := token :: l.tokens, rest := rest }

/-- Allow or forbid that a key begins. -/
def allow (l : Lexer) (keyAllowed : Bool) : Lexer := { l with keyAllowed := keyAllowed }

/-! ## §2. Blocks. -/

/-- Put a token, and others before it, behind the first `n` tokens. -/
def insertAt (n : Nat) (inserted tokens : List Token) : List Token :=
  let later := tokens.length - n
  tokens.take later ++ inserted ++ tokens.drop later

/-- Open a block at a column that is deeper than the innermost one, its first
token standing behind `n` tokens. -/
def openBlock (l : Lexer) (column n : Nat) (first : Token) : Lexer :=
  if l.inFlow || l.blocks.head?.any (column ≤ ·) then l
  else { l with blocks := column :: l.blocks, tokens := insertAt n [first] l.tokens }

/-- Open a block here. -/
def openBlockHere (l : Lexer) (column : Nat) (first : Token) : Lexer :=
  l.openBlock column l.tokens.length first

/-- Close the blocks whose column is given by a class. -/
def closeBlocks (l : Lexer) (deeper : Nat → Bool) : Lexer :=
  if l.inFlow then l
  else
    { l with
      tokens := (l.blocks.takeWhile deeper).map (fun _ => .blockEnd) ++ l.tokens
      blocks := l.blocks.dropWhile deeper }

/-- Close all blocks. -/
def closeAllBlocks (l : Lexer) : Lexer := l.closeBlocks fun _ => true

/-! ## §3. Candidates for keys. -/

/-- Give up the candidate, unless it must be a key. -/
def giveUp? (l : Lexer) : Option Lexer :=
  if l.candidate.any (·.required) then none else some { l with candidate := none }

/-- Give up the candidates that are too far back. -/
def renewCandidates? (l : Lexer) (here : Placed) : Option Lexer := do
  let candidate ← Candidate.renew? here l.candidate
  let outer ← l.outer.mapM (Candidate.renew? here)
  some { l with candidate := candidate, outer := outer }

/-- Note that a key may begin here. -/
def note? (l : Lexer) (here : Placed) : Option Lexer :=
  if l.keyAllowed then do
    let l ← l.giveUp?
    let required := !l.inFlow && l.blocks.head? == some here.column
    some { l with candidate := some ⟨required, l.tokens.length, here⟩ }
  else some l

/-! ## §4. Tokens of structure. -/

/-- An opening bracket. -/
def openFlow? (l : Lexer) (here : Placed) (token : Token) (rest : Text) : Option Lexer := do
  let l ← l.note? here
  some ({ l with outer := l.candidate :: l.outer, candidate := none }.allow true |>.push token rest)

/-- A closing bracket. -/
def closeFlow? (l : Lexer) (token : Token) (rest : Text) : Option Lexer := do
  let l ← l.giveUp?
  let l := match l.outer with
    | candidate :: outer => { l with candidate := candidate, outer := outer }
    | [] => l
  some (l.allow false |>.push token rest)

/-- A comma in brackets. -/
def flowEntry? (l : Lexer) (rest : Text) : Option Lexer := do
  let l ← l.giveUp?
  some (l.allow true |>.push .flowEntry rest)

/-- Outside of brackets, open a block here if a key or an item may begin. -/
def openIfBlock? (l : Lexer) (here : Placed) (first : Token) : Option Lexer :=
  if l.inFlow then some l
  else if l.keyAllowed then some (l.openBlockHere here.column first)
  else none

/-- The dash of an item. -/
def blockEntry? (l : Lexer) (here : Placed) (rest : Text) : Option Lexer := do
  let l ← l.openIfBlock? here .blockSequenceStart
  let l ← l.giveUp?
  some (l.allow true |>.push .blockEntry rest)

/-- The question mark of a key. -/
def key? (l : Lexer) (here : Placed) (rest : Text) : Option Lexer := do
  let l ← l.openIfBlock? here .blockMappingStart
  let l ← l.giveUp?
  some (l.allow (!l.inFlow) |>.push .key rest)

/-- The colon of a value: behind a candidate, which thereby is a key, or alone. -/
def value? (l : Lexer) (here : Placed) (rest : Text) : Option Lexer :=
  match l.candidate with
  | some k =>
    let l := { l with tokens := insertAt k.tokensBefore [.key] l.tokens, candidate := none }
    some (l.openBlock k.place.column k.tokensBefore .blockMappingStart
      |>.allow false |>.push .value rest)
  | none => do
    let l ← l.openIfBlock? here .blockMappingStart
    some (l.allow (!l.inFlow) |>.push .value rest)

/-- A mark before or after a document, or a directive: all blocks end here. -/
def atMargin? (l : Lexer) (token : Token) (rest : Text) : Option Lexer := do
  let l ← l.closeAllBlocks.giveUp?
  some (l.allow false |>.push token rest)

/-! ## §5. Tokens of content. -/

/-- Content that may be a key. -/
def content? (l : Lexer) (here : Placed) (found : Option (Token × Text)) : Option Lexer := do
  let l ← l.note? here
  let (token, rest) ← found
  some (l.allow false |>.push token rest)

/-- A name behind its sign, and what follows it. -/
def takeName? (t : Text) : Option (List Char × Text) :=
  let (name, rest) := t.span isWordChar
  let closes (c : Char) : Bool := ['?', ':', ',', ']', '\x7d', '%', '@', '\x60'].contains c
  if !name.isEmpty && (rest.endsWord || rest.startsWith closes) then some (name, rest) else none

/-- A block of lines. -/
def block? (l : Lexer) (folded : Bool) (rest : Text) : Option Lexer := do
  let l ← l.giveUp?
  let (text, rest) ← Block.take? folded l.blocks.head? rest
  some (l.allow true |>.push (.scalar (if folded then .folded else .literal) text) rest)

/-- A scalar without quotes; a key may begin behind it on a new line. -/
def plain? (l : Lexer) (here : Placed) : Option Lexer := do
  let l ← l.note? here
  let margin := (l.blocks.head?.map (· + 1)).getD 0
  let (text, newLine, rest) ← Plain.take? l.inFlow margin l.rest
  some (l.allow newLine |>.push (.scalar .plain text) rest)

/-- What stands between quotes, as a token. -/
def quoted (style : Style) (found : Option (List Char × Text)) : Option (Token × Text) :=
  found.map fun (text, rest) => (.scalar style text, rest)

/-- The token that begins here. -/
def token? (l : Lexer) (here : Placed) (rest : Text) : Option Lexer :=
  let lone := l.inFlow || rest.endsWord
  match here.char with
  | '[' => l.openFlow? here .flowSequenceStart rest
  | '\x7b' => l.openFlow? here .flowMappingStart rest
  | ']' => l.closeFlow? .flowSequenceEnd rest
  | '\x7d' => l.closeFlow? .flowMappingEnd rest
  | ',' => l.flowEntry? rest
  | '*' => l.content? here ((takeName? rest).map fun (name, rest) => (.alias name, rest))
  | '&' => l.content? here ((takeName? rest).map fun (name, rest) => (.anchor name, rest))
  | '!' => l.content? here (Tag.take? l.inFlow l.rest)
  | '\x27' => l.content? here (quoted .singleQuoted (Quoted.takeSingle? rest))
  | '"' => l.content? here (quoted .doubleQuoted (Quoted.takeDouble? rest))
  | c =>
    if c = '-' && rest.endsWord then l.blockEntry? here rest
    else if c = '?' && lone then l.key? here rest
    else if c = ':' && lone then l.value? here rest
    else if c = '|' && !l.inFlow then l.block? false rest
    else if c = '>' && !l.inFlow then l.block? true rest
    else if Plain.begins l.inFlow c rest then l.plain? here
    else none

/-! ## §6. The whole text. -/

/-- What follows the blanks, comments and ends of lines in front of a token,
and whether a key may begin there.  A tab is no blank where a key may begin. -/
def skip (inFlow : Bool) : (comment keyAllowed : Bool) → Text → Bool × Text
  | _, keyAllowed, [] => (keyAllowed, [])
  | comment, keyAllowed, c :: rest =>
    if isBreak c.char then skip inFlow false (keyAllowed || !inFlow) rest
    else if comment || c.char = ' ' || (c.char = '\t' && (inFlow || !keyAllowed))
        || (c.char = byteOrderMark && c.index = 0) then
      skip inFlow comment keyAllowed rest
    else if c.char = '#' then skip inFlow true keyAllowed rest
    else (keyAllowed, c :: rest)

/-- The next token of a text that goes on. -/
def next? (l : Lexer) (here : Placed) (rest : Text) : Option Lexer := do
  let l ← l.renewCandidates? here
  let l := l.closeBlocks (here.column < ·)
  if here.column = 0 && here.char = '%' then
    let (token, rest) ← Tag.takeDirective? rest
    l.atMargin? token rest
  else
    match l.rest.takeMark? '-', l.rest.takeMark? '.' with
    | some rest, _ => l.atMargin? .documentStart rest
    | none, some rest => l.atMargin? .documentEnd rest
    | none, none => l.token? here rest

/-- The tokens up to the end of the text, which takes fewer than `bound` tokens. -/
def run? : (bound : Nat) → Lexer → Option (List Token)
  | 0, _ => none
  | bound + 1, l =>
    let (keyAllowed, rest) := skip l.inFlow false l.keyAllowed l.rest
    let l := { l with keyAllowed := keyAllowed, rest := rest }
    match rest with
    | [] => l.closeAllBlocks.giveUp?.map (·.tokens.reverse)
    | here :: after => do
      let l ← l.next? here after
      run? bound l

end Lexer

/-- **The tokens of a text.** -/
def Token.ofText? (t : Text) : Option (List Token) :=
  Lexer.run? (t.length + 1) (.start t)

end BlockSync.Yaml
