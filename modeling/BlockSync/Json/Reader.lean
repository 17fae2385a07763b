/-
  BlockSync.Json.Reader
  ─────────────────────
  **READING A JSON TEXT.**

  Each reader takes one construct from the front of a text and hands back what
  follows it.  `parse?` reads one value with blanks around it and nothing else.
  Whether a string or a name denotes characters is for the consumer to ask: what
  is only carried along need not.

  The readers of values recurse on a bound for the depth of their calls.  Every
  second call at least takes one character, so twice the length is enough.
-/
import BlockSync.Json.Value
import BlockSync.Bytes.Hex

namespace BlockSync.Json

/-! ## §1. Blanks and literals. -/

/-- The four blanks that may stand between two tokens. -/
def isBlank (c : Char) : Bool :=
  c = ' ' || c = '\t' || c = '\n' || c = '\r'

/-- A text without its leading blanks. -/
def dropBlanks (s : List Char) : List Char :=
  s.dropWhile isBlank

/-- What follows a given beginning. -/
def dropLiteral? (literal s : List Char) : Option (List Char) :=
  if literal.isPrefixOf s then some (s.drop literal.length) else none

/-! ## §2. Numbers. -/

/-- A decimal digit. -/
def isDigit (c : Char) : Bool :=
  '0' ≤ c && c ≤ '9'

/-- The value of decimal digits. -/
def decimalValue (digits : List Char) : Nat :=
  digits.foldl (fun n c => 10 * n + (c.toNat - '0'.toNat)) 0

/-- The whole part: a single zero, or digits that begin with another one. -/
def takeWhole? : List Char → Option (List Char × List Char)
  | '0' :: rest => some (['0'], rest)
  | s =>
    match s.takeWhile isDigit with
    | [] => none
    | digits => some (digits, s.dropWhile isDigit)

/-- At least one digit. -/
def dropDigits? (s : List Char) : Option (List Char) :=
  match s.takeWhile isDigit with
  | [] => none
  | _ => some (s.dropWhile isDigit)

/-- An optional fraction: whether there is one, and what follows it. -/
def takeFraction? : List Char → Option (Bool × List Char)
  | '.' :: rest => (dropDigits? rest).map (true, ·)
  | s => some (false, s)

/-- An optional exponent: whether there is one, and what follows it. -/
def takeExponent? : List Char → Option (Bool × List Char)
  | 'e' :: rest | 'E' :: rest =>
    match rest with
    | '+' :: digits | '-' :: digits => (dropDigits? digits).map (true, ·)
    | digits => (dropDigits? digits).map (true, ·)
  | s => some (false, s)

/-- A number, with its value if it has no sign, fraction or exponent. -/
def takeNumber? (s : List Char) : Option (Json × List Char) := do
  let (negative, s) := match s with
    | '-' :: rest => (true, rest)
    | _ => (false, s)
  let (whole, s) ← takeWhole? s
  let (fraction, s) ← takeFraction? s
  let (exponent, s) ← takeExponent? s
  let plain := !negative && !fraction && !exponent
  some (.number (if plain then some (decimalValue whole) else none), s)

/-! ## §3. Strings. -/

/-- One unit of a string: a character, or a code of four digits that may be
half of a pair. -/
inductive StringUnit where
  | char (c : Char)
  | code (n : Nat)

/-- The character behind a backslash that stands for a single character. -/
def escaped? : Char → Option Char
  | '"' => some '"'
  | '\\' => some '\\'
  | '/' => some '/'
  | 'b' => some '\x08'
  | 'f' => some '\x0c'
  | 'n' => some '\n'
  | 'r' => some '\r'
  | 't' => some '\t'
  | _ => none

/-- The number written by four hexadecimal digits. -/
def fourDigits? (a b c d : Char) : Option Nat := do
  let a ← Hex.ofChar? a
  let b ← Hex.ofChar? b
  let c ← Hex.ofChar? c
  let d ← Hex.ofChar? d
  some (((a * 16 + b) * 16 + c) * 16 + d)

/-- The units of a string up to its closing quote, and what follows the quote. -/
def takeUnits? : List Char → Option (List StringUnit × List Char)
  | '"' :: rest => some ([], rest)
  | '\\' :: 'u' :: a :: b :: c :: d :: rest => do
    let n ← fourDigits? a b c d
    let (units, rest) ← takeUnits? rest
    some (.code n :: units, rest)
  | '\\' :: c :: rest => do
    let c ← escaped? c
    let (units, rest) ← takeUnits? rest
    some (.char c :: units, rest)
  | c :: rest =>
    if c.toNat < 0x20 then none
    else (takeUnits? rest).map fun (units, rest) => (.char c :: units, rest)
  | [] => none

/-- The first half of a surrogate pair. -/
def isHighHalf (n : Nat) : Bool := 0xd800 ≤ n && n < 0xdc00

/-- The second half of a surrogate pair. -/
def isLowHalf (n : Nat) : Bool := 0xdc00 ≤ n && n < 0xe000

/-- The characters that units denote; nothing if a half stands alone. -/
def joinUnits? : List StringUnit → Option (List Char)
  | [] => some []
  | .char c :: rest => (joinUnits? rest).map (c :: ·)
  | .code high :: .code low :: rest =>
    if isHighHalf high then
      if isLowHalf low then
        (joinUnits? rest).map
          (Char.ofNat (0x10000 + (high - 0xd800) * 0x400 + (low - 0xdc00)) :: ·)
      else none
    else if isLowHalf high then none
    else (joinUnits? (.code low :: rest)).map (Char.ofNat high :: ·)
  | .code n :: rest =>
    if isHighHalf n || isLowHalf n then none
    else (joinUnits? rest).map (Char.ofNat n :: ·)

/-! ## §4. Values. -/

mutual

/-- One value, blanks in front of it being skipped. -/
def takeValue? : (depth : Nat) → List Char → Option (Json × List Char)
  | 0, _ => none
  | depth + 1, s =>
    match dropBlanks s with
    | 'n' :: rest => (dropLiteral? ['u', 'l', 'l'] rest).map (.null, ·)
    | 't' :: rest => (dropLiteral? ['r', 'u', 'e'] rest).map (.bool true, ·)
    | 'f' :: rest => (dropLiteral? ['a', 'l', 's', 'e'] rest).map (.bool false, ·)
    | '"' :: rest => (takeUnits? rest).map fun (units, rest) =>
        (.string (joinUnits? units), rest)
    | '[' :: rest =>
      match dropBlanks rest with
      | ']' :: rest => some (.array [], rest)
      | rest => (takeItems? depth rest).map fun (items, rest) => (.array items, rest)
    | '\x7b' :: rest =>
      match dropBlanks rest with
      | '\x7d' :: rest => some (.object [], rest)
      | rest => (takeMembers? depth rest).map fun (members, rest) => (.object members, rest)
    | s => takeNumber? s

/-- The items of an array up to its closing bracket. -/
def takeItems? : (depth : Nat) → List Char → Option (List Json × List Char)
  | 0, _ => none
  | depth + 1, s => do
    let (item, s) ← takeValue? depth s
    match dropBlanks s with
    | ',' :: rest => (takeItems? depth rest).map fun (items, rest) => (item :: items, rest)
    | ']' :: rest => some ([item], rest)
    | _ => none

/-- The members of an object up to its closing brace. -/
def takeMembers? : (depth : Nat) → List Char →
    Option (List (Option (List Char) × Json) × List Char)
  | 0, _ => none
  | depth + 1, s =>
    match dropBlanks s with
    | '"' :: s => do
      let (units, s) ← takeUnits? s
      let name := joinUnits? units
      match dropBlanks s with
      | ':' :: s =>
        let (value, s) ← takeValue? depth s
        match dropBlanks s with
        | ',' :: rest =>
          (takeMembers? depth rest).map fun (members, rest) => ((name, value) :: members, rest)
        | '\x7d' :: rest => some ([(name, value)], rest)
        | _ => none
      | _ => none
    | _ => none

end

/-- **The value a text stands for**, blanks around it being skipped. -/
def parse? (s : List Char) : Option Json := do
  let (value, rest) ← takeValue? (2 * s.length + 2) s
  match dropBlanks rest with
  | [] => some value
  | _ => none

end BlockSync.Json
