/-
  BlockSync.Store.Listing
  ───────────────────────
  **A DATABASE AS LINES OF TEXT.**

  Every entry is a line: the name of its tree, its key and its value, both as
  hexadecimal digits, with a space between.
-/
import BlockSync.Bytes.Hex
import BlockSync.Store.Database

namespace BlockSync.Database

/-! ## §1. Writing. -/

/-- The lines of a tree. -/
def treeLines (name : String) (t : Tree) : List String :=
  t.toList.map fun (key, value) => name ++ " " ++ Hex.text key ++ " " ++ Hex.text value ++ "\n"

/-- The lines of a database. -/
def listing (d : Database) : String :=
  String.join (treeLines "hashes" d.hashes ++ treeLines "blocks" d.blocks)

/-! ## §2. Reading. -/

/-- A database with the entry of one more line. -/
def addLine? (d : Database) (line : String) : Option Database :=
  match line.splitOn " " with
  | [name, key, value] => do
    let key ← Hex.decode? key.toUTF8.toList
    let value ← Hex.decode? value.toUTF8.toList
    if name = "hashes" then some { d with hashes := d.hashes.insert key value }
    else if name = "blocks" then some { d with blocks := d.blocks.insert key value }
    else none
  | _ => none

/-- The database that lines stand for. -/
def ofListing? (text : String) : Option Database :=
  ((text.splitOn "\n").filter (· ≠ "")).foldlM addLine? .empty

end BlockSync.Database
