/-
  BlockSync.Settings.Document
  ───────────────────────────
  **SETTINGS FROM A YAML DOCUMENT.**

  The document is a mapping from names to whole numbers.  A name that is left
  out has its standard value, a name that is not known is passed over with
  whatever stands under it, and no known name may come twice.  An empty
  document leaves out all names.
-/
import BlockSync.Settings.Basic
import BlockSync.Text.Numeral
import BlockSync.Yaml.Node.Reader

namespace BlockSync.Settings

open Yaml (Node)

/-! ## §1. Whole numbers. -/

/-- The number written without a sign: decimal digits that do not begin with a
needless zero, or digits of another base behind its mark. -/
def ofUnsigned? : List Char → Option Nat
  | '0' :: 'x' :: digits => Numeral.ofDigits? 16 digits
  | '0' :: 'o' :: digits => Numeral.ofDigits? 8 digits
  | '0' :: 'b' :: digits => Numeral.ofDigits? 2 digits
  | '0' :: _ :: _ => none
  | digits => Numeral.ofDigits? 10 digits

/-- The number that a text stands for. -/
def ofNumeral? (cs : List Char) : Option Nat :=
  ofUnsigned? (Numeral.dropPlus cs)

/-! ## §2. The document. -/

/-- The address of the tag of whole numbers. -/
def numberTag : Bytes := "tag:yaml.org,2002:int".toUTF8.toList

/-- The number that a node is: a plain scalar, or lines that are tagged as a number. -/
def ofScalar? : Node → Option Nat
  | .scalar _ .plain _ text => ofNumeral? text
  | .scalar _ .literal tag text => if tag = some numberTag then ofNumeral? text else none
  | _ => none

/-- The name that a node is. -/
def nameOf? : Node → Option String
  | .scalar _ _ _ text => some (String.ofList text)
  | _ => none

/-- What is found in a mapping: the values of the known names met so far. -/
abbrev Found := List (Key × Nat)

/-- One more entry of the mapping `root`. -/
def Found.add? (root : Node) (found : Found) (entry : Node × Node) : Option Found := do
  let name ← (root.target? entry.1).bind nameOf?
  match Key.ofName? name with
  | none => some found
  | some key =>
    if (found.lookup key).isSome then none
    else
      let n ← (root.target? entry.2).bind ofScalar?
      some ((key, n) :: found)

/-- The settings with the values that were found. -/
def ofFound (found : Found) : Settings :=
  found.foldr (fun (key, n) s => s.set key n) standard

/-- The settings of the document with a given tree, if there is one. -/
def ofDocument? : Option Node → Option Settings
  | none | some (.scalar _ .plain _ []) => some standard
  | some (.mapping anchor entries) =>
    (entries.foldlM (Found.add? (.mapping anchor entries)) []).map ofFound
  | some _ => none

/-- **The settings that a text stands for**, given by its bytes. -/
def ofBytes? (bytes : Bytes) : Option Settings :=
  (Node.ofBytes? bytes).bind ofDocument?

/-! ## §3. The file. -/

/-- What is found under a path. -/
inductive File where
  /-- It cannot be opened, and why. -/
  | missing (reason : String)
  /-- It is there but holds no text, as a directory does not. -/
  | unreadable
  | content (bytes : Bytes)
deriving Repr, DecidableEq

/-- Why a file is not opened that does not exist. -/
def noSuchFile : String := "No such file or directory (os error 2)"

/-- **The settings of a file**, checked, or what is wrong with them. -/
def load (path : String) (file : File) : Except SettingsFault Settings := do
  match file with
  | .missing reason => .error (.notOpened path reason)
  | .unreadable => .error (.notParsed path)
  | .content bytes =>
    match ofBytes? bytes with
    | none => .error (.notParsed path)
    | some s =>
      s.check
      return s

end BlockSync.Settings
