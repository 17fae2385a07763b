/-
  BlockSync.Store.Database
  ────────────────────────
  **THE TWO TREES OF A DATA DIRECTORY.**
-/
import BlockSync.Store.BlockQueue
import BlockSync.Store.Frontier

namespace BlockSync

/-- What a data directory holds: one tree for each store. -/
structure Database where
  hashes : Tree
  blocks : Tree

namespace Database

/-- A data directory without entries. -/
def empty : Database := ⟨.empty, .empty⟩

instance : Inhabited Database := ⟨empty⟩

/-- The database after a frontier was closed: its tree is what is left. -/
def keepFrontier (d : Database) (f : Frontier) : Database :=
  match f.tree? with
  | some t => { d with hashes := t }
  | none => d

/-- The database after a block queue was closed: its tree is what is left. -/
def keepQueue (d : Database) (q : BlockQueue) : Database :=
  match q.tree? with
  | some t => { d with blocks := t }
  | none => d

/-- Open both stores, the frontier first, and tell what was logged on the way. -/
def openStores (d : Database) (capacity : Nat) :
    List Event × Except StoreError (Frontier × BlockQueue) :=
  match Frontier.openTree d.hashes with
  | .error e => ([], .error e)
  | .ok (frontier, events) =>
    match BlockQueue.openTree d.blocks capacity with
    | .error e => (events, .error e)
    | .ok (queue, more) => (events ++ more, .ok (frontier, queue))

end Database
end BlockSync
