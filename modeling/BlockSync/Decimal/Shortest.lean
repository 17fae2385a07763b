/-
  BlockSync.Decimal.Shortest
  ──────────────────────────
  **THE FEWEST DIGITS THAT READ BACK.**

  A finite 64-bit float is a number m · 2 ^ q.  The reals that round to it form
  an interval around it, whose ends belong to it exactly if m is even.  For 1,
  2, … 17 digits the two neighbours of the value on that decimal grid are tried:
  the first grid with a neighbour in the interval decides, of two such
  neighbours the nearer one, and the upper one of two equally near.

  All comparisons are made in natural numbers, after scaling by a power of two
  and a power of ten.
-/
namespace BlockSync.Decimal

/-! ## §1. The value and its interval. -/

/-- A positive finite float: `mantissa * 2 ^ exponent`.  At a power of two the
float below is half as far away as the float above. -/
structure Binary where
  mantissa : Nat
  exponent : Int
  atPower : Bool

/-- A positive decimal number: `digits * 10 ^ exponent`. -/
structure Scientific where
  digits : Nat
  exponent : Int

/-- A power of two. -/
def pow2 (exponent : Nat) : Nat := Nat.pow 2 exponent

/-- A power of ten. -/
def pow10 (exponent : Nat) : Nat := Nat.pow 10 exponent

/-- The positive number with the given 63 bits of a float, if it is finite and
not zero. -/
def Binary.ofBits? (bits : Nat) : Option Binary :=
  let field : Nat := bits / pow2 52 % pow2 11
  let fraction : Nat := bits % pow2 52
  if field = pow2 11 - 1 then none
  else if field = 0 then
    if fraction = 0 then none else some ⟨fraction, -1074, false⟩
  else some ⟨pow2 52 + fraction, (field : Int) - 1075, fraction = 0 && 1 < field⟩

/-- A value and the ends of its interval, all on one scale of natural numbers. -/
structure Scaled where
  low : Nat
  value : Nat
  high : Nat
  /-- Whether the ends belong to the interval. -/
  closed : Bool

/-- The power of two that makes quarters of the value's last place whole. -/
def Binary.wholeBy (x : Binary) : Nat := (2 - x.exponent).toNat

/-- The value and its interval, times `2 ^ wholeBy * 10 ^ tens`. -/
def Binary.scaled (x : Binary) (tens : Nat) : Scaled :=
  let quarter := pow2 (x.exponent - 2 + x.wholeBy).toNat * pow10 tens
  ⟨(4 * x.mantissa - if x.atPower then 1 else 2) * quarter,
    4 * x.mantissa * quarter,
    (4 * x.mantissa + 2) * quarter,
    x.mantissa % 2 = 0⟩

/-- Whether a number on the same scale rounds to the value. -/
def Scaled.readsBack (s : Scaled) (n : Nat) : Bool :=
  if s.closed then s.low ≤ n && n ≤ s.high else s.low < n && n < s.high

/-! ## §2. The search. -/

/-- The exponent of the leading decimal digit.  No float is below `10 ^ -350`. -/
def Binary.leading (x : Binary) : Int :=
  let whole := x.mantissa * pow2 x.exponent.toNat * pow10 350 / pow2 (-x.exponent).toNat
  ((Nat.toDigits 10 whole).length : Int) - 351

/-- The neighbour of the value on a decimal grid, if it reads back. -/
def Binary.onGrid? (x : Binary) (grid : Int) : Option Scientific :=
  let s := x.scaled (-grid).toNat
  let step := pow2 x.wholeBy * pow10 (grid + ((-grid).toNat : Int)).toNat
  let below := s.value / step
  let above := below + 1
  match s.readsBack (below * step), s.readsBack (above * step) with
  | true, true =>
    if s.value - below * step < above * step - s.value then some ⟨below, grid⟩
    else some ⟨above, grid⟩
  | true, false => some ⟨below, grid⟩
  | false, true => some ⟨above, grid⟩
  | false, false => none

/-- **The shortest decimal that reads back**, as near to the value as one of
that length can be. -/
def Binary.shortest (x : Binary) : Scientific :=
  let lead := x.leading
  let found := (List.range 17).findSome? fun (n : Nat) => x.onGrid? (lead - n)
  found.getD ⟨x.mantissa * pow2 x.exponent.toNat, 0⟩

/-! ## §3. Positional notation. -/

/-- A list without the zeros at its end. -/
def dropFinalZeros (digits : List Char) : List Char :=
  (digits.reverse.dropWhile (· = '0')).reverse

/-- A decimal number in positional notation: no exponent, a point only before a
digit that is no final zero. -/
def Scientific.positional (d : Scientific) : List Char :=
  let digits := Nat.toDigits 10 d.digits
  if 0 ≤ d.exponent then digits ++ List.replicate d.exponent.toNat '0'
  else
    let places := (-d.exponent).toNat
    let padded := List.replicate (places + 1 - digits.length) '0' ++ digits
    let whole := padded.take (padded.length - places)
    match dropFinalZeros (padded.drop (padded.length - places)) with
    | [] => whole
    | fraction => whole ++ '.' :: fraction

/-- The text of a float: its shortest decimal in positional notation. -/
def text (x : Float) : String :=
  let bits := x.toBits.toNat
  let sign := if bits < pow2 63 then "" else "-"
  if x.isNaN then "NaN"
  else if x.isInf then sign ++ "inf"
  else match Binary.ofBits? (bits % pow2 63) with
    | none => sign ++ "0"
    | some b => sign ++ String.ofList b.shortest.positional

end BlockSync.Decimal
