/-
  BlockSync.Store.BlockQueue
  ──────────────────────────
  **DOWNLOADED BLOCKS WAITING FOR IMPORT.**

  The queue is first in, first out.  Bulk appends are bounded by its capacity:
  the beginning that fits is kept, the rest is dropped.  A single append is
  never dropped, so a block that goes back after a failed import always lands.

  A queue lives either in memory (`volatile`) or in a tree (`stored`).
-/
import BlockSync.Store.BlockQueue.Stored
import BlockSync.Store.BlockQueue.Volatile

namespace BlockSync

/-- The blocks waiting for import. -/
inductive BlockQueue where
  | volatile (queue : VolatileQueue)
  | stored (queue : StoredQueue)

namespace BlockQueue

/-! ## §1. Opening. -/

/-- A queue in memory. -/
def empty (capacity : Nat) : BlockQueue := .volatile (.empty capacity)

/-- The queue that a tree holds. -/
def openTree (t : Tree) (capacity : Nat) : Except StoreError (BlockQueue × List Event) :=
  (StoredQueue.recover t capacity).map fun q => (.stored q, [.openedQueue q.length capacity])

/-! ## §2. Reading. -/

/-- The bound on bulk appends. -/
def capacity : BlockQueue → Nat
  | .volatile q => q.capacity
  | .stored q => q.capacity

/-- The count of blocks. -/
def length : BlockQueue → Nat
  | .volatile q => q.blocks.length
  | .stored q => q.length

/-- Whether there is no block. -/
def isEmpty (q : BlockQueue) : Bool := q.length == 0

/-- The index of queued hashes. -/
def index : BlockQueue → HashIndex
  | .volatile q => q.index
  | .stored q => q.index

/-- Whether a block with this hash is queued. -/
def contains (q : BlockQueue) (h : BlockHash) : Bool := q.index.contains h

/-- The hashes of which no block is queued, in their order. -/
def filterExisting (q : BlockQueue) (hs : List BlockHash) : List BlockHash :=
  q.index.missing hs

/-- The block appended last, if it is still there. -/
def peekBack : BlockQueue → Except StoreError (Option Block)
  | .volatile q => .ok q.blocks.getLast?
  | .stored q => q.peekBack

/-! ## §3. Changing. -/

/-- Append one block. -/
def enqueue (q : BlockQueue) (b : Block) : Reply BlockQueue Unit :=
  match q with
  | .volatile q => (q.enqueue b).mapNext .volatile
  | .stored q => (q.enqueue b).mapNext .stored

/-- Append the beginning of a list that fits, and answer how long it is. -/
def enqueueBatch (q : BlockQueue) (bs : List Block) : Reply BlockQueue Nat :=
  match q with
  | .volatile q => (q.enqueueBatch bs).mapNext .volatile
  | .stored q => (q.enqueueBatch bs).mapNext .stored

/-- Take the front block without waiting. -/
def poll (q : BlockQueue) : Reply BlockQueue Block :=
  match q with
  | .volatile q => q.poll.mapNext .volatile
  | .stored q => q.poll.mapNext .stored

/-- Remove every block. -/
def clear : BlockQueue → BlockQueue
  | .volatile q => .volatile q.clear
  | .stored q => .stored q.clear

/-! ## §4. The tree behind a queue. -/

/-- The tree a stored queue is kept in. -/
def tree? : BlockQueue → Option Tree
  | .volatile _ => none
  | .stored q => some q.tree

/-- The queue after its tree was changed behind its back. -/
def withTree (q : BlockQueue) (t : Tree) : BlockQueue :=
  match q with
  | .volatile q => .volatile q
  | .stored q => .stored { q with tree := t }

/-- The text of a stored queue's state. -/
def text? : BlockQueue → Option String
  | .volatile _ => none
  | .stored q => some q.text

/-- A bound on how many blocks can be taken from the queue. -/
def entryCount : BlockQueue → Nat
  | .volatile q => q.blocks.length
  | .stored q => q.tree.size

end BlockQueue
end BlockSync
