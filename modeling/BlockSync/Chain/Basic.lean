/-
  BlockSync.Chain.Basic
  ─────────────────────
  **THE CHAIN AS A COLLABORATOR.**

  Synchronization never validates blocks.  It hands them to a chain, one at a
  time, and looks only at how each attempt ends.  A chain may take its time: an
  attempt begins, and ends when the chain gets round to it.
-/
import BlockSync.Block
import BlockSync.Chain.Outcome

namespace BlockSync

/-- What synchronization knows of a chain with states in `σ`. -/
structure Chain (σ : Type) where
  /-- The head of the chain; there is always at least the first block. -/
  best : σ → Block
  /-- An attempt to import a block begins. -/
  receive : σ → Block → σ
  /-- How the attempt ends, if the chain is ready to end it. -/
  conclude : σ → Block → Option (Verdict × σ)

end BlockSync
