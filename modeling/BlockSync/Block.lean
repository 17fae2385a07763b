/-
  BlockSync.Block
  ───────────────
  **DOWNLOADED BLOCKS.**

  Synchronization reads only the number of a block and how its hash links to
  its parent's.  The payload is carried along untouched for the importer.
-/
import BlockSync.BlockHash
import BlockSync.Difficulty

namespace BlockSync

/-- A downloaded block that waits to be handed to the chain. -/
structure Block where
  number : UInt64
  hash : BlockHash
  parent : BlockHash
  difficulty : Difficulty
  payload : Bytes
deriving DecidableEq

namespace Block

/-- A block without weight and payload. -/
def linking (number : UInt64) (hash parent : BlockHash) : Block :=
  ⟨number, hash, parent, .zero, []⟩

instance : Inhabited Block := ⟨linking 0 .zero .zero⟩

end Block
end BlockSync
