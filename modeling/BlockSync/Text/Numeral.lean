/-
  BlockSync.Text.Numeral
  ──────────────────────
  **NUMBERS WRITTEN AS DIGITS.**

  The digits of a base stand for a number of 64 bits; there must be at least
  one, and what does not fit is no number.
-/
import BlockSync.Bytes.Hex

namespace BlockSync.Numeral

/-- The number that digits of a base up to sixteen stand for. -/
def ofDigits? (base : Nat) (digits : List Char) : Option Nat := do
  let ds ← digits.mapM Hex.ofChar?
  let n := ds.foldl (fun n d => base * n + d) 0
  if !ds.isEmpty && ds.all (· < base) && n < UInt64.size then some n else none

/-- What follows a plus sign, if there is one. -/
def dropPlus : List Char → List Char
  | '+' :: rest => rest
  | cs => cs

/-- The number that decimal digits stand for, with or without a plus sign. -/
def ofDecimal? (cs : List Char) : Option Nat :=
  ofDigits? 10 (dropPlus cs)

end BlockSync.Numeral
