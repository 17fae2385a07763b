/-
  BlockSync.Store.BlockQueue.Stored
  ─────────────────────────────────
  **THE BLOCK QUEUE KEPT IN A TREE.**

  Blocks are stored in their binary form under positions.  The index of hashes
  lives in memory and is counted from the tree when the queue is opened.

  A stored value may turn out to be no block when it is taken.  It is then gone,
  but its hash is unknown, so the index is counted again from what is left; if
  that fails too, the index starts empty.
-/
import BlockSync.Store.BlockQueue.Capacity
import BlockSync.Store.HashIndex
import BlockSync.Store.Reply
import BlockSync.Store.Span

namespace BlockSync

/-- A queue of blocks in a tree. -/
structure StoredQueue where
  tree : Tree
  span : Span
  index : HashIndex
  capacity : Nat

namespace StoredQueue

/-! ## §1. Opening and reading. -/

/-- The block a stored value stands for. -/
def decodeBlock (value : Bytes) : Except StoreError Block :=
  (Block.Binary.decode value).mapError fun e => .corruption (.block e)

/-- The index of the hashes of stored blocks. -/
def scanIndex (t : Tree) : Except StoreError HashIndex :=
  t.values.foldlM (fun index v => (decodeBlock v).map fun b => index.insert b.hash) .empty

/-- The queue that a tree holds. -/
def recover (t : Tree) (capacity : Nat) : Except StoreError StoredQueue := do
  let span ← Span.recover t
  let index ← scanIndex t
  .ok ⟨t, span, index, capacity⟩

/-- The count of blocks. -/
def length (q : StoredQueue) : Nat := q.span.length

/-- The block at the back, if there is one. -/
def peekBack (q : StoredQueue) : Except StoreError (Option Block) :=
  match q.tree.last? with
  | none => .ok none
  | some e => (decodeBlock e.2).map some

/-! ## §2. Changing. -/

/-- Append one block. -/
def enqueue (q : StoredQueue) (b : Block) : Reply StoredQueue Unit :=
  match q.span.backEnd 1 with
  | .error e => .refuse e q
  | .ok tail =>
    .ok () { q with
      tree := q.tree.insert (Position.encode q.span.tail) (Block.Binary.encode b)
      span := ⟨q.span.head, tail⟩
      index := q.index.insert b.hash }

/-- Append the beginning of a list that fits, and answer how long it is. -/
def enqueueBatch (q : StoredQueue) (bs : List Block) : Reply StoredQueue Nat :=
  let kept := Capacity.admissible q.capacity q.length bs.length
  match q.span.backEnd kept with
  | .error e => .refuse e q
  | .ok tail =>
    let added := bs.take kept
    ⟨.ok kept,
      { q with
        tree := q.tree.apply (Position.putFrom q.span.tail (added.map Block.Binary.encode))
        span := ⟨q.span.head, tail⟩
        index := q.index.insertAll (added.map Block.hash) },
      Capacity.dropEvents kept bs.length q.capacity⟩

/-- The queue after an entry left it whose value is no block. -/
def reindex (q : StoredQueue) (e : StoreError) : Reply StoredQueue Block :=
  match scanIndex q.tree with
  | .ok index => ⟨.error e, { q with index := index }, []⟩
  | .error cause => ⟨.error e, { q with index := .empty }, [.indexLost cause]⟩

/-- Take the front block.  The entry leaves the tree even if it is damaged. -/
def poll (q : StoredQueue) : Reply StoredQueue Block :=
  match q.tree.first? with
  | none => .refuse .emptyQueue q
  | some (key, value) =>
    let q := { q with tree := q.tree.dropFirst }
    match Position.decode key with
    | .error e => ⟨.error e, q, []⟩
    | .ok position =>
      let q := { q with span := q.span.popFront position }
      match decodeBlock value with
      | .ok b => .ok b { q with index := q.index.remove b.hash }
      | .error e => q.reindex e

/-- Remove every entry. -/
def clear (q : StoredQueue) : StoredQueue :=
  { q with tree := q.tree.apply q.tree.deleteAll, span := Span.fresh, index := .empty }

/-- The text of the queue's state. -/
def text (q : StoredQueue) : String :=
  "SledBlockQueue \x7b positions: " ++ q.span.text
    ++ ", capacity: " ++ toString q.capacity ++ ", .. \x7d"

end StoredQueue
end BlockSync
