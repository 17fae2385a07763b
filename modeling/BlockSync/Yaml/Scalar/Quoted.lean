/-
  BlockSync.Yaml.Scalar.Quoted
  ────────────────────────────
  **SCALARS BETWEEN QUOTES.**

  Between single quotes a quote is written twice.  Between double quotes a
  backslash begins an escape, and one at the end of a line takes that end
  back.  No mark around a document may stand inside.
-/
import BlockSync.Bytes.Hex
import BlockSync.Yaml.Scalar.Folding

namespace BlockSync.Yaml.Quoted

/-! ## §1. Single quotes. -/

/-- The pieces up to the closing quote, and what follows the quote. -/
def takeSinglePieces? : Text → Option (List Piece × Text)
  | [] => none
  | c :: rest =>
    if Text.startsMark (c :: rest) then none
    else if c.char = '\x27' then
      match rest with
      | [] => some ([], [])
      | d :: rest =>
        if d.char = '\x27' then
          (takeSinglePieces? rest).map fun (pieces, rest) => (.solid '\x27' :: pieces, rest)
        else some ([], d :: rest)
    else (takeSinglePieces? rest).map fun (pieces, rest) => (.ofChar c.char :: pieces, rest)

/-- **The text between single quotes**, the first of which was taken, and what follows. -/
def takeSingle? (t : Text) : Option (List Char × Text) :=
  (takeSinglePieces? t).map fun (pieces, rest) => (Piece.text pieces, rest)

/-! ## §2. Double quotes. -/

/-- The character that an escape of a single character stands for. -/
def escaped? : Char → Option Char
  | '0' => some '\x00'
  | 'a' => some '\x07'
  | 'b' => some '\x08'
  | 't' | '\t' => some '\t'
  | 'n' => some '\n'
  | 'v' => some '\x0b'
  | 'f' => some '\x0c'
  | 'r' => some '\r'
  | 'e' => some '\x1b'
  | ' ' => some ' '
  | '"' => some '"'
  | '/' => some '/'
  | '\\' => some '\\'
  | 'N' => some '\u0085'
  | '_' => some '\u00a0'
  | 'L' => some '\u2028'
  | 'P' => some '\u2029'
  | _ => none

/-- How many digits of a code follow an escape. -/
def codeLength? : Char → Option Nat
  | 'x' => some 2
  | 'u' => some 4
  | 'U' => some 8
  | _ => none

/-- The character of a code. -/
def ofCode? (n : Nat) : Option Char :=
  if n.isValidChar then some (Char.ofNat n) else none

/-- The pieces up to the closing quote, and what follows the quote.  While an
escape is being read, `due` digits of its code are missing behind `code`. -/
def takeDoublePieces? : (due code : Nat) → Text → Option (List Piece × Text)
  | _, _, [] => none
  | due + 1, code, c :: rest => do
    let digit ← Hex.ofChar? c.char
    let code := 16 * code + digit
    if due = 0 then
      let d ← ofCode? code
      let (pieces, rest) ← takeDoublePieces? 0 0 rest
      some (.solid d :: pieces, rest)
    else takeDoublePieces? due code rest
  | 0, _, c :: rest =>
    if Text.startsMark (c :: rest) then none
    else if c.char = '"' then some ([], rest)
    else if c.char = '\\' then
      match rest with
      | [] => none
      | d :: rest =>
        if isBreak d.char then
          (takeDoublePieces? 0 0 rest).map fun (pieces, rest) => (.joint :: pieces, rest)
        else
          match codeLength? d.char, escaped? d.char with
          | some due, _ => takeDoublePieces? due 0 rest
          | none, some e =>
            (takeDoublePieces? 0 0 rest).map fun (pieces, rest) => (.solid e :: pieces, rest)
          | none, none => none
    else (takeDoublePieces? 0 0 rest).map fun (pieces, rest) => (.ofChar c.char :: pieces, rest)

/-- **The text between double quotes**, the first of which was taken, and what follows. -/
def takeDouble? (t : Text) : Option (List Char × Text) :=
  (takeDoublePieces? 0 0 t).map fun (pieces, rest) => (Piece.text pieces, rest)

end BlockSync.Yaml.Quoted
