/-
  BlockSync.Text.Quoted
  ─────────────────────
  **ONE BYTE OF TEXT, QUOTED FOR A MESSAGE.**

  A byte is shown as the character of the same code point between single
  quotes.  What would not show, or would end the quotation, is written by an
  escape: the four common controls, the quote and the backslash by a letter,
  every other character without a visible form by its code point in braces.
-/
import BlockSync.Bytes.Hex

namespace BlockSync.Quoted

/-- A byte whose character shows: not a control, not one of the two blanks
and breaks above ASCII that have no visible form. -/
def isVisible (b : UInt8) : Bool :=
  0x20 ≤ b && b < 0x7f || 0xa0 < b && b != 0xad

/-- The hexadecimal digits of a byte, without a leading zero. -/
def codePoint (b : UInt8) : List Char :=
  if b < 16 then [Hex.digit b.toNat] else Hex.encodeByte b

/-- A byte as it stands between the quotes. -/
def escape (b : UInt8) : List Char :=
  if b = 0 then ['\\', '0']
  else if b = '\t'.toUInt8 then ['\\', 't']
  else if b = '\n'.toUInt8 then ['\\', 'n']
  else if b = '\r'.toUInt8 then ['\\', 'r']
  else if b = '\x27'.toUInt8 then ['\\', '\x27']
  else if b = '\\'.toUInt8 then ['\\', '\\']
  else if isVisible b then [Char.ofNat b.toNat]
  else ['\\', 'u', '\x7b'] ++ codePoint b ++ ['\x7d']

/-- A byte between single quotes. -/
def byte (b : UInt8) : String :=
  String.ofList ('\x27' :: escape b ++ ['\x27'])

end BlockSync.Quoted
