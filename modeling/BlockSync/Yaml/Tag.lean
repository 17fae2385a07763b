/-
  BlockSync.Yaml.Tag
  ──────────────────
  **TAGS AND THE DIRECTIVES ABOUT THEM.**

  A tag is a handle and a suffix, or a whole address between angle brackets.
  What a handle stands for is told by a directive; the address of the tag is
  that followed by the suffix.
-/
import BlockSync.Bytes.Hex
import BlockSync.Yaml.Token
import BlockSync.Yaml.Text

namespace BlockSync.Yaml.Tag

/-! ## §1. Addresses. -/

/-- A character of an address; brackets and commas only where nothing else may
follow the address. -/
def isAddressChar (wide : Bool) (c : Char) : Bool :=
  isWordChar c
    || [';', '/', '?', ':', '@', '&', '=', '+', '$', '.', '!', '~', '*', '\x27', '(', ')'].contains c
    || (wide && [',', '[', ']'].contains c)

/-- How many bytes follow a first byte of an encoded character. -/
def following? (b : UInt8) : Option Nat :=
  if b < 0x80 then some 0
  else if b < 0xc0 then none
  else if b < 0xe0 then some 1
  else if b < 0xf0 then some 2
  else if b < 0xf8 then some 3
  else none

/-- Whether a byte continues an encoded character. -/
def continues (b : UInt8) : Bool :=
  0x80 ≤ b && b < 0xc0

/-- The longest address, and what follows it.  An escape gives a byte by two
digits; `due` escapes are missing to an encoded character. -/
def takeAddress? (wide : Bool) : (due : Nat) → Text → Option (Bytes × Text)
  | due, [] => if due = 0 then some ([], []) else none
  | due, c :: rest =>
    if c.char = '%' then
      match rest with
      | high :: low :: rest => do
        let h ← Hex.ofChar? high.char
        let l ← Hex.ofChar? low.char
        let b := UInt8.ofNat (16 * h + l)
        let due ← match due with
          | 0 => following? b
          | due + 1 => if continues b then some due else none
        let (bytes, rest) ← takeAddress? wide due rest
        some (b :: bytes, rest)
      | _ => none
    else if due ≠ 0 then none
    else if isAddressChar wide c.char then
      (takeAddress? wide 0 rest).map fun (bytes, rest) => (c.char.toUInt8 :: bytes, rest)
    else some ([], c :: rest)

/-- An address that is not empty. -/
def takeSomeAddress? (wide : Bool) (t : Text) : Option (Bytes × Text) := do
  let (bytes, rest) ← takeAddress? wide 0 t
  if bytes.isEmpty then none else some (bytes, rest)

/-! ## §2. Tags. -/

/-- The handle of tags that have no other. -/
def primary : List Char := ['!']

/-- The handle of the tags of the format itself. -/
def secondary : List Char := ['!', '!']

/-- A named handle: an exclamation mark, a name that may be empty, and another
exclamation mark; and what follows it. -/
def takeHandle? (t : Text) : Option (List Char × Text) :=
  match t with
  | c :: rest =>
    let (name, after) := Text.span rest isWordChar
    if c.char = '!' && after.startsWith (· = '!') then
      some ('!' :: name ++ ['!'], after.drop 1)
    else none
  | [] => none

/-- A tag whose first exclamation mark stands at the beginning of the text, and
what follows it. -/
def takeBody? (t : Text) : Option (Token × Text) :=
  match t with
  | _ :: rest =>
    if Text.startsWith rest (· = '<') then do
      let (address, rest) ← takeSomeAddress? true (rest.drop 1)
      if Text.startsWith rest (· = '>') then some (.tag [] address, rest.drop 1) else none
    else
      match takeHandle? t with
      | some (handle, rest) => do
        let (suffix, rest) ← takeSomeAddress? false rest
        some (.tag handle suffix, rest)
      | none => do
        let (suffix, rest) ← takeAddress? false 0 rest
        if suffix.isEmpty then some (.tag [] ['!'.toUInt8], rest)
        else some (.tag primary suffix, rest)
  | [] => none

/-- **A tag**, after which a word must be over or, in brackets, a comma follow. -/
def take? (inFlow : Bool) (t : Text) : Option (Token × Text) := do
  let (tag, rest) ← takeBody? t
  if rest.endsWord || inFlow && rest.startsWith (· = ',') then some (tag, rest) else none

/-! ## §3. Directives. -/

/-- A number of at most nine digits. -/
def takeNumber? (t : Text) : Option (Nat × Text) :=
  let (digits, rest) := t.span isDigit
  if digits.isEmpty || 9 < digits.length then none
  else some (digits.foldl (fun n c => 10 * n + (c.toNat - '0'.toNat)) 0, rest)

/-- The two numbers of a version, with a point between. -/
def takeVersion? (t : Text) : Option (Token × Text) := do
  let (major, t) ← takeNumber? t
  if t.startsWith (· = '.') then
    let (minor, t) ← takeNumber? (t.drop 1)
    some (.version major minor, t)
  else none

/-- A handle and what it stands for, with blanks between. -/
def takeExpansion? (t : Text) : Option (Token × Text) := do
  let (handle, t) ← (takeHandle? t).or
    (if t.startsWith (· = '!') then some (primary, t.drop 1) else none)
  if t.startsWith isBlank then
    let (address, t) ← takeSomeAddress? true (t.span isBlank).2
    if t.endsWord then some (.tagDirective handle address, t) else none
  else none

/-- **A directive**, its percent sign being taken, and what follows its line. -/
def takeDirective? (t : Text) : Option (Token × Text) := do
  let (name, t) := t.span isWordChar
  if t.endsWord then
    let body := (t.span isBlank).2
    let (token, t) ←
      if name = ['Y', 'A', 'M', 'L'] then takeVersion? body
      else if name = ['T', 'A', 'G'] then takeExpansion? body
      else none
    let t ← t.dropLineEnd?
    some (token, t)
  else none

end BlockSync.Yaml.Tag
