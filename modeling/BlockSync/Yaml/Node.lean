/-
  BlockSync.Yaml.Node
  ───────────────────
  **THE TREE OF A YAML DOCUMENT.**

  Anchors are numbered by how many different names were met before, and a name
  that is met again is numbered anew; so two anchors may share a number.  A
  number then stands for the last node that carries it.
-/
import BlockSync.Yaml.Token

namespace BlockSync.Yaml

/-- A node, with the number of its anchor. -/
inductive Node where
  | scalar (anchor : Option Nat) (style : Style) (tag : Option Bytes) (text : List Char)
  | sequence (anchor : Option Nat) (items : List Node)
  | mapping (anchor : Option Nat) (entries : List (Node × Node))
  /-- Another mention of the node with a number. -/
  | alias (number : Nat)

instance : Inhabited Node := ⟨.scalar none .plain none []⟩

namespace Node

/-- What stands where a node is left out. -/
def omitted : Node := .scalar none .plain none []

/-- The number of a node's anchor. -/
def anchor? : Node → Option Nat
  | .scalar a _ _ _ | .sequence a _ | .mapping a _ => a
  | .alias _ => none

mutual

/-- A node and the nodes below it, in the order in which they begin. -/
def all : Node → List Node
  | .sequence a items => .sequence a items :: allItems items
  | .mapping a entries => .mapping a entries :: allEntries entries
  | n => [n]

/-- The nodes of items. -/
def allItems : List Node → List Node
  | [] => []
  | item :: rest => all item ++ allItems rest

/-- The nodes of keys and values. -/
def allEntries : List (Node × Node) → List Node
  | [] => []
  | (key, value) :: rest => all key ++ all value ++ allEntries rest

end

/-- The node that a number stands for. -/
def anchored? (root : Node) (number : Nat) : Option Node :=
  root.all.reverse.find? fun n => n.anchor? == some number

/-- What a node of a document is or mentions. -/
def target? (root : Node) : Node → Option Node
  | .alias number => root.anchored? number
  | n => some n

end Node
end BlockSync.Yaml
