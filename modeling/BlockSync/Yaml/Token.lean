/-
  BlockSync.Yaml.Token
  ────────────────────
  **THE TOKENS OF A YAML TEXT.**

  Indentation is turned into tokens that open and close blocks, so that a
  list of tokens is all there is to a text.
-/
import BlockSync.Bytes.Endian

namespace BlockSync.Yaml

/-- How a scalar is written. -/
inductive Style where
  | plain
  | singleQuoted
  | doubleQuoted
  /-- A block whose lines are kept. -/
  | literal
  /-- A block whose lines are joined. -/
  | folded
deriving Repr, DecidableEq

/-- A token. -/
inductive Token where
  | version (major minor : Nat)
  /-- What a handle of tags stands for. -/
  | tagDirective (handle : List Char) (expansion : Bytes)
  | documentStart
  | documentEnd
  | blockSequenceStart
  | blockMappingStart
  /-- The end of the innermost block. -/
  | blockEnd
  | flowSequenceStart
  | flowSequenceEnd
  | flowMappingStart
  | flowMappingEnd
  /-- The dash in front of an item. -/
  | blockEntry
  /-- The comma between two items. -/
  | flowEntry
  | key
  | value
  | anchor (name : List Char)
  | alias (name : List Char)
  | tag (handle : List Char) (suffix : Bytes)
  | scalar (style : Style) (text : List Char)
deriving Repr, DecidableEq

end BlockSync.Yaml
