/-
  BlockSync.Store.BlockQueue.Volatile
  ───────────────────────────────────
  **THE BLOCK QUEUE IN MEMORY.**
-/
import BlockSync.Store.BlockQueue.Capacity
import BlockSync.Store.HashIndex
import BlockSync.Store.Reply

namespace BlockSync

/-- A queue of blocks in memory, with the index of their hashes. -/
structure VolatileQueue where
  blocks : List Block
  index : HashIndex
  capacity : Nat

namespace VolatileQueue

/-- A queue without blocks. -/
def empty (capacity : Nat) : VolatileQueue := ⟨[], .empty, capacity⟩

/-- Append one block. -/
def enqueue (q : VolatileQueue) (b : Block) : Reply VolatileQueue Unit :=
  .ok () { q with blocks := q.blocks ++ [b], index := q.index.insert b.hash }

/-- Append the beginning of a list that fits, and answer how long it is. -/
def enqueueBatch (q : VolatileQueue) (bs : List Block) : Reply VolatileQueue Nat :=
  let kept := Capacity.admissible q.capacity q.blocks.length bs.length
  let added := bs.take kept
  ⟨.ok kept,
    { q with
      blocks := q.blocks ++ added
      index := q.index.insertAll (added.map Block.hash) },
    Capacity.dropEvents kept bs.length q.capacity⟩

/-- Take the front block. -/
def poll (q : VolatileQueue) : Reply VolatileQueue Block :=
  match q.blocks with
  | [] => .refuse .emptyQueue q
  | b :: rest => .ok b { q with blocks := rest, index := q.index.remove b.hash }

/-- Remove every block. -/
def clear (q : VolatileQueue) : VolatileQueue := { q with blocks := [], index := .empty }

end VolatileQueue
end BlockSync
