/-
  BlockSync.BlockHash
  ───────────────────
  **BLOCK HASHES AND THEIR TEXT.**

  A block hash is a string of exactly 32 bytes.  Its text is 64 lower-case
  hexadecimal digits; a reader takes digits of either case behind at most one
  marker `0x`.  A text that is no hash is refused for the first reason that
  holds, tested on the bytes of the text behind the marker:

      an odd count of bytes  →  oddLength
      not 64 bytes           →  wrongLength
      a byte is no digit     →  badDigit, the first such byte and its offset
-/
import BlockSync.Bytes.Hex
import BlockSync.Text.Quoted

namespace BlockSync

/-! ## §1. The type. -/

/-- The identifier of a block: 32 bytes. -/
structure BlockHash where
  bytes : Bytes
  length_eq : bytes.length = 32
deriving DecidableEq

namespace BlockHash

/-- The count of bytes in a hash. -/
def width : Nat := 32

/-- The hash with these bytes, if there are 32 of them. -/
def ofBytes? (bs : Bytes) : Option BlockHash :=
  if h : bs.length = 32 then some ⟨bs, h⟩ else none

/-- The hash whose bytes are all `b`. -/
def replicate (b : UInt8) : BlockHash :=
  ⟨List.replicate 32 b, List.length_replicate⟩

/-- The hash of 32 zero bytes. -/
def zero : BlockHash := replicate 0

instance : Inhabited BlockHash := ⟨zero⟩

/-- The hash with the bytes of a number below `2 ^ 256`, most significant first. -/
def ofNat (n : Nat) : BlockHash :=
  ⟨Bytes.bigEndian 32 n, Bytes.length_bigEndian 32 n⟩

/-- Hashes are ordered by their bytes, the first difference deciding. -/
def compare (a b : BlockHash) : Ordering :=
  List.compareLex Ord.compare a.bytes b.bytes

instance : Ord BlockHash := ⟨compare⟩

/-! ## §2. Writing. -/

/-- The 64 lower-case digits of a hash. -/
def digits (h : BlockHash) : List Char :=
  Hex.encode h.bytes

/-- The text of a hash: 64 lower-case digits. -/
def text (h : BlockHash) : String :=
  String.ofList h.digits

/-- The text of a hash behind the marker `0x`. -/
def markedText (h : BlockHash) : String :=
  String.ofList ('0' :: 'x' :: h.digits)

/-- The first three bytes in hexadecimal, which keep a log line short. -/
def short (h : BlockHash) : String :=
  Hex.text (h.bytes.take 3)

instance : ToString BlockHash := ⟨text⟩

/-! ## §3. Reading. -/

/-- Why a text is no hash. -/
inductive ParseError where
  /-- The digits cannot be paired. -/
  | oddLength
  /-- There are not 64 digits. -/
  | wrongLength
  /-- A byte of the text is no digit. -/
  | badDigit (bad : Hex.BadDigit)
deriving Repr, DecidableEq

/-- The wording of a refusal. -/
def ParseError.message : ParseError → String
  | .oddLength => "Odd number of digits"
  | .wrongLength => "Invalid string length"
  | .badDigit bad =>
    "Invalid character " ++ Quoted.byte bad.byte ++ " at position " ++ toString bad.offset

/-- The text behind at most one leading `0x`. -/
def dropMarker : List Char → List Char
  | '0' :: 'x' :: rest => rest
  | s => s

/-- The bytes in which a text is stored. -/
def textBytes (s : List Char) : Bytes :=
  s.flatMap String.utf8EncodeChar

/-- The hash written by the bytes of a text, with no marker in front. -/
def parseBytes (bs : Bytes) : Except ParseError BlockHash :=
  if bs.length % 2 = 1 then .error .oddLength
  else if bs.length ≠ 64 then .error .wrongLength
  else match Hex.readPairs 0 bs with
    | .error bad => .error (.badDigit bad)
    | .ok value =>
      match ofBytes? value with
      | some h => .ok h
      | none => .error .wrongLength

/-- **The hash a text stands for**, with or without the marker `0x`. -/
def parse (s : String) : Except ParseError BlockHash :=
  parseBytes (textBytes (dropMarker s.toList))

end BlockHash
end BlockSync
