/-
  BlockSync.Store.Frontier.Stored
  ───────────────────────────────
  **THE FRONTIER KEPT IN A TREE.**

  Hashes are stored as their 32 bytes under positions.  Every change is one
  batch of writes, so a returned batch or a reset is committed as one unit, and
  an operation that answers an error has changed nothing.
-/
import BlockSync.Store.Reply
import BlockSync.Store.Span

namespace BlockSync

/-- A frontier in a tree, with the range of positions it occupies. -/
structure StoredFrontier where
  tree : Tree
  span : Span

namespace StoredFrontier

/-! ## §1. Opening and reading. -/

/-- The frontier that a tree holds. -/
def recover (t : Tree) : Except StoreError StoredFrontier :=
  (Span.recover t).map fun span => ⟨t, span⟩

/-- The hash a stored value stands for. -/
def decodeHash (value : Bytes) : Except StoreError BlockHash :=
  match BlockHash.ofBytes? value with
  | some h => .ok h
  | none => .error (.corruption (.hashLength value.length))

/-- The count of hashes. -/
def length (f : StoredFrontier) : Nat := f.span.length

/-- The hash at the front. -/
def peek (f : StoredFrontier) : Except StoreError BlockHash :=
  match f.tree.first? with
  | some e => decodeHash e.2
  | none => .error .emptyFrontier

/-- Up to `count` hashes from the front. -/
def front (f : StoredFrontier) (count : Nat) : Except StoreError (List BlockHash) :=
  (f.tree.values.take count).mapM decodeHash

/-! ## §2. Changing. -/

/-- Make a hash the only one. -/
def reset (f : StoredFrontier) (h : BlockHash) : Reply StoredFrontier Unit :=
  match Span.fresh.frontStart 1 with
  | .error e => .refuse e f
  | .ok start =>
    .ok () ⟨f.tree.apply (f.tree.deleteAll ++ [.put (Position.encode start) h.bytes]),
      ⟨start, Span.fresh.tail⟩⟩

/-- Insert hashes at the front, keeping their order. -/
def pushFrontBatch (f : StoredFrontier) (hs : List BlockHash) : Reply StoredFrontier Unit :=
  if hs.isEmpty then .ok () f
  else match f.span.frontStart hs.length with
    | .error e => .refuse e f
    | .ok start =>
      .ok () ⟨f.tree.apply (Position.putFrom start (hs.map BlockHash.bytes)),
        ⟨start, f.span.tail⟩⟩

/-- Append a hash at the back. -/
def pushBack (f : StoredFrontier) (h : BlockHash) : Reply StoredFrontier Unit :=
  match f.span.backEnd 1 with
  | .error e => .refuse e f
  | .ok tail =>
    .ok () ⟨f.tree.insert (Position.encode f.span.tail) h.bytes, ⟨f.span.head, tail⟩⟩

/-- The hash and the position of an entry. -/
def decodeEntry (e : Entry) : Except StoreError (BlockHash × UInt64) := do
  let h ← decodeHash e.2
  let p ← Position.decode e.1
  .ok (h, p)

/-- Take up to `max` hashes from the front. -/
def drainFront (f : StoredFrontier) (max : Nat) : Reply StoredFrontier (List BlockHash) :=
  let taken := f.tree.entries.take max
  match taken.mapM decodeEntry with
  | .error e => .refuse e f
  | .ok decoded =>
    match decoded.getLast? with
    | none => .ok [] f
    | some last =>
      .ok (decoded.map Prod.fst)
        ⟨f.tree.apply (taken.map fun e => .delete e.1), f.span.popFront last.2⟩

/-- Remove every entry. -/
def clear (f : StoredFrontier) : StoredFrontier :=
  ⟨f.tree.apply f.tree.deleteAll, Span.fresh⟩

/-- The text of the store's state. -/
def text (f : StoredFrontier) : String :=
  "SledHashStore \x7b positions: " ++ f.span.text ++ " \x7d"

end StoredFrontier
end BlockSync
