/-
  BlockSync.Bytes.Hex
  ───────────────────
  **BYTES AS HEXADECIMAL DIGITS.**

  Every byte is written as two lower-case digits, the high half first.  A
  reader takes digits of either case; `readPairs` reports the first byte of
  the text that is no digit, together with its offset.
-/
import BlockSync.Bytes.Endian

namespace BlockSync.Hex

/-! ## §1. One digit. -/

/-- The lower-case digit of a number below sixteen. -/
def digit (n : Nat) : Char :=
  if n < 10 then Char.ofNat ('0'.toNat + n) else Char.ofNat ('a'.toNat + (n - 10))

/-- The value of a digit of either case, given as a byte of text. -/
def value? (b : UInt8) : Option UInt8 :=
  if '0'.toUInt8 ≤ b ∧ b ≤ '9'.toUInt8 then some (b - '0'.toUInt8)
  else if 'a'.toUInt8 ≤ b ∧ b ≤ 'f'.toUInt8 then some (b - 'a'.toUInt8 + 10)
  else if 'A'.toUInt8 ≤ b ∧ b ≤ 'F'.toUInt8 then some (b - 'A'.toUInt8 + 10)
  else none

/-- The value of a digit of either case. -/
def ofChar? (c : Char) : Option Nat :=
  if c.toNat < 128 then (value? c.toUInt8).map UInt8.toNat else none

/-! ## §2. Writing. -/

/-- The two digits of one byte, high half first. -/
def encodeByte (b : UInt8) : List Char :=
  [digit (b.toNat / 16), digit (b.toNat % 16)]

/-- Two lower-case digits for each byte, in order. -/
def encode (bs : Bytes) : List Char :=
  bs.flatMap encodeByte

/-- The digits of a byte string as text. -/
def text (bs : Bytes) : String :=
  String.ofList (encode bs)

/-! ## §3. Reading. -/

/-- A byte of text that is no hexadecimal digit, and where it stands. -/
structure BadDigit where
  byte : UInt8
  offset : Nat
deriving Repr, DecidableEq

/-- The bytes written by pairs of digits, the first pair standing at `offset`.
An odd digit at the end is left over and not read. -/
def readPairs : (offset : Nat) → Bytes → Except BadDigit Bytes
  | offset, high :: low :: rest =>
    match value? high, value? low with
    | none, _ => .error ⟨high, offset⟩
    | some _, none => .error ⟨low, offset + 1⟩
    | some h, some l => (readPairs (offset + 2) rest).map ((16 * h + l) :: ·)
  | _, _ => .ok []

/-- The bytes written by a text of pairs of digits; nothing if the text has an
odd length or holds anything else. -/
def decode? (s : Bytes) : Option Bytes :=
  if s.length % 2 = 0 then (readPairs 0 s).toOption else none

end BlockSync.Hex
