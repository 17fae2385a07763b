/-
  BlockSync.Store.BlockQueue.Capacity
  ───────────────────────────────────
  **HOW MUCH OF A BULK APPEND IS KEPT.**

  A bulk append keeps the longest beginning that fits under the capacity of the
  queue and drops the rest.  A queue may already be longer than its capacity,
  for single appends are never dropped; then nothing is kept.
-/
import BlockSync.Journal

namespace BlockSync.Capacity

/-- How many of `incoming` blocks fit into a queue of `length` blocks. -/
def admissible (capacity length incoming : Nat) : Nat :=
  min (capacity - length) incoming

/-- The event of dropping blocks, if any were dropped. -/
def dropEvents (kept incoming capacity : Nat) : List Event :=
  if kept < incoming then [.droppedExcess kept (incoming - kept) capacity] else []

end BlockSync.Capacity
