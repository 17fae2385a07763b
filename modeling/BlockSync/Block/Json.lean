/-
  BlockSync.Block.Json
  ────────────────────
  **THE JSON FORM OF A BLOCK.**

  A block is written compactly as an object of five members in this order:

      number           a number
      hash             a string, the digits behind 0x
      parentHash       a string, the digits behind 0x
      totalDifficulty  a string, hexadecimal digits behind 0x, no leading zero
      payload          an array of the byte values

  A reader takes the members in any order among members of other names, refuses
  a name that denotes no characters and a repeated name of the five, and takes a
  missing payload for an empty one.  It
  also takes an array of the five values in this order, the last being optional.
  A hash may also be an array of its 32 bytes, its marker may be 0X or missing;
  a difficulty may also be a number, or a numeral in another base.
-/
import BlockSync.Block
import BlockSync.Json.Reader

namespace BlockSync

/-! ## §1. Hashes and difficulties. -/

namespace BlockHash

/-- The text behind at most one marker of either case. -/
def dropAnyMarker : List Char → List Char
  | '0' :: 'x' :: rest | '0' :: 'X' :: rest => rest
  | s => s

/-- The hash written by 64 digits, behind at most one marker. -/
def ofDigits? (s : List Char) : Option BlockHash :=
  (Hex.decode? (textBytes (dropAnyMarker s))).bind ofBytes?

/-- The hash a JSON value stands for. -/
def ofJson? : Json → Option BlockHash
  | .string (some s) => ofDigits? s
  | .array items => (Json.bytes? (.array items)).bind ofBytes?
  | _ => none

end BlockHash

namespace Difficulty

/-- The difficulty a JSON value stands for: a number of at most 64 bits, or a
numeral. -/
def ofJson? : Json → Option Difficulty
  | .string (some s) => parse? s
  | .number n => (Json.word? (.number n)).bind fun w => ofNat? w.toNat
  | _ => none

end Difficulty

/-! ## §2. Blocks. -/

namespace Block

/-- The value of the only member with a name. -/
def onlyMember? (name : String) (members : List (List Char × Json)) : Option Json :=
  match Json.valuesOf name.toList members with
  | [value] => some value
  | _ => none

/-- The bytes of the payload; a payload that is not given is empty. -/
def payloadOf? : List Json → Option Bytes
  | [] => some []
  | [value] => Json.bytes? value
  | _ => none

/-- The block with these five values. -/
def ofValues? (number hash parent difficulty : Json) (payload : List Json) : Option Block := do
  let number ← number.word?
  let hash ← BlockHash.ofJson? hash
  let parent ← BlockHash.ofJson? parent
  let difficulty ← Difficulty.ofJson? difficulty
  let payload ← payloadOf? payload
  some ⟨number, hash, parent, difficulty, payload⟩

/-- The block a JSON value stands for. -/
def ofJson? : Json → Option Block
  | .object members => do
    let members ← Json.named? members
    let number ← onlyMember? "number" members
    let hash ← onlyMember? "hash" members
    let parent ← onlyMember? "parentHash" members
    let difficulty ← onlyMember? "totalDifficulty" members
    ofValues? number hash parent difficulty (Json.valuesOf "payload".toList members)
  | .array (number :: hash :: parent :: difficulty :: payload) =>
    ofValues? number hash parent difficulty payload
  | _ => none

/-- **The block a JSON text stands for.** -/
def ofJsonText? (s : String) : Option Block :=
  (Json.parse? s.toList).bind ofJson?

/-- A string of characters that need no escape. -/
def quoted (s : List Char) : List Char :=
  '"' :: s ++ ['"']

/-- The decimal digits of a number. -/
def decimalDigits (n : Nat) : List Char :=
  Nat.toDigits 10 n

/-- **The JSON form of a block.** -/
def toJsonChars (b : Block) : List Char :=
  "\x7b\"number\":".toList ++ decimalDigits b.number.toNat
    ++ ",\"hash\":".toList ++ quoted ('0' :: 'x' :: b.hash.digits)
    ++ ",\"parentHash\":".toList ++ quoted ('0' :: 'x' :: b.parent.digits)
    ++ ",\"totalDifficulty\":".toList ++ quoted b.difficulty.hexadecimal
    ++ ",\"payload\":[".toList
    ++ List.intercalate [','] (b.payload.map fun v => decimalDigits v.toNat)
    ++ "]\x7d".toList

/-- The JSON form of a block as text. -/
def toJsonText (b : Block) : String :=
  String.ofList b.toJsonChars

end Block
end BlockSync
