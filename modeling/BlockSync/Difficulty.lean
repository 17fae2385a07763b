/-
  BlockSync.Difficulty
  ────────────────────
  **TOTAL DIFFICULTY: 256-BIT NUMBERS AND THEIR NUMERALS.**

  A total difficulty is a number below `2 ^ 256`.  It is written in decimal, or
  in hexadecimal behind `0x` with no leading zero.  A reader takes a numeral in
  base 16, 8, 2 or 10, chosen by its first two characters, ignores every `_`,
  and refuses a digit outside the base and a value of `2 ^ 256` or more.
-/
import BlockSync.Bytes.Hex

namespace BlockSync

/-- The cumulative weight of a chain: a number below `2 ^ 256`. -/
structure Difficulty where
  value : Nat
  lt : value < Nat.pow 2 256
deriving DecidableEq

namespace Difficulty

/-! ## §1. Numbers and bytes. -/

/-- A number as a difficulty, if it is small enough. -/
def ofNat? (n : Nat) : Option Difficulty :=
  if h : n < Nat.pow 2 256 then some ⟨n, h⟩ else none

/-- No difficulty at all. -/
def zero : Difficulty := ⟨0, by decide⟩

instance : Inhabited Difficulty := ⟨zero⟩

/-- The 32 bytes of a difficulty, most significant first. -/
def toBytes (d : Difficulty) : Bytes :=
  Bytes.bigEndian 32 d.value

/-- The difficulty whose 32 bytes, most significant first, are given. -/
def ofBytes? (bs : Bytes) : Option Difficulty :=
  if h : bs.length = 32 then
    some ⟨Bytes.ofBigEndian bs, by
      have := Bytes.ofBigEndian_lt bs
      rw [h] at this
      exact Nat.lt_of_lt_of_le this (by decide)⟩
  else none

/-! ## §2. Writing. -/

/-- The decimal digits of a difficulty. -/
def decimal (d : Difficulty) : String :=
  String.ofList (Nat.toDigits 10 d.value)

/-- The hexadecimal digits of a difficulty behind `0x`, without leading zeros. -/
def hexadecimal (d : Difficulty) : List Char :=
  '0' :: 'x' :: Nat.toDigits 16 d.value

/-! ## §3. Reading. -/

/-- The value of a digit or of a letter of either case, counting on from ten. -/
def digitValue? (c : Char) : Option Nat :=
  if '0' ≤ c ∧ c ≤ '9' then some (c.toNat - '0'.toNat)
  else if 'a' ≤ c ∧ c ≤ 'z' then some (c.toNat - 'a'.toNat + 10)
  else if 'A' ≤ c ∧ c ≤ 'Z' then some (c.toNat - 'A'.toNat + 10)
  else none

/-- The value of the digits of a numeral in a base, added to what stands in
front of them.  The mark `_` separates digits and has no value. -/
def readDigits (base : Nat) : (soFar : Nat) → List Char → Option Nat
  | soFar, [] => some soFar
  | soFar, c :: rest =>
    if c = '_' then readDigits base soFar rest
    else match digitValue? c with
      | some d => if d < base then readDigits base (base * soFar + d) rest else none
      | none => none

/-- The base a numeral announces, and the digits behind the announcement. -/
def splitBase : List Char → Nat × List Char
  | '0' :: 'x' :: rest | '0' :: 'X' :: rest => (16, rest)
  | '0' :: 'o' :: rest | '0' :: 'O' :: rest => (8, rest)
  | '0' :: 'b' :: rest | '0' :: 'B' :: rest => (2, rest)
  | s => (10, s)

/-- **The difficulty a numeral stands for**; a numeral without digits is zero. -/
def parse? (s : List Char) : Option Difficulty :=
  (readDigits (splitBase s).1 0 (splitBase s).2).bind ofNat?

end Difficulty
end BlockSync
