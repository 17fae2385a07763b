/-
  BlockSync.Json.Value
  ────────────────────
  **JSON TEXTS AS VALUES.**

  A value keeps what a consumer may ask for.  The members of an object stay in
  the order of the text, repeated names included, so that a repetition can be
  refused.  A number keeps its value only where it is written as a plain natural
  number.  A string, and so the name of a member, keeps its characters only where
  its escapes denote characters: a lone half of a surrogate pair is well-formed
  text that denotes none.
-/
namespace BlockSync

/-- A JSON value. -/
inductive Json where
  | null
  | bool (b : Bool)
  /-- A number, with its value if its text has no sign, fraction or exponent. -/
  | number (natural : Option Nat)
  /-- A string, with its characters if every escape in it denotes one. -/
  | string (text : Option (List Char))
  | array (items : List Json)
  /-- An object, its members in the order of the text. -/
  | object (members : List (Option (List Char) × Json))

namespace Json

/-- The value of a plain natural number. -/
def natural? : Json → Option Nat
  | .number n => n
  | _ => none

/-- A plain natural number of at most 64 bits. -/
def word? (j : Json) : Option UInt64 :=
  j.natural?.bind fun n => if n < UInt64.size then some (UInt64.ofNat n) else none

/-- A plain natural number of at most 8 bits. -/
def byte? (j : Json) : Option UInt8 :=
  j.natural?.bind fun n => if n < UInt8.size then some (UInt8.ofNat n) else none

/-- The bytes of an array of small natural numbers. -/
def bytes? : Json → Option (List UInt8)
  | .array items => items.mapM byte?
  | _ => none

/-- The members of an object whose names all denote characters. -/
def named? (members : List (Option (List Char) × Json)) : Option (List (List Char × Json)) :=
  members.mapM fun m => m.1.map fun name => (name, m.2)

/-- The values of the members with a given name. -/
def valuesOf (name : List Char) (members : List (List Char × Json)) : List Json :=
  (members.filter fun m => m.1 = name).map Prod.snd

end Json
end BlockSync
