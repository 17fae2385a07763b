/-
  BlockSync.Store.Frontier
  ────────────────────────
  **HASHES STILL TO BE FETCHED.**

  The frontier is a work list that prefers its front.  Announced hashes are
  pushed to the front and drained from there, so the chain announced last is
  fetched first.  A batch that could not be fetched goes back to the front in
  the order in which it was taken.

  A frontier lives either in memory (`volatile`) or in a tree (`stored`).
-/
import BlockSync.Store.Frontier.Stored

namespace BlockSync

/-- The hashes still to be fetched. -/
inductive Frontier where
  | volatile (hashes : List BlockHash)
  | stored (store : StoredFrontier)

namespace Frontier

/-! ## §1. Opening. -/

/-- A frontier in memory. -/
def empty : Frontier := .volatile []

/-- The frontier that a tree holds. -/
def openTree (t : Tree) : Except StoreError (Frontier × List Event) :=
  (StoredFrontier.recover t).map fun f => (.stored f, [.openedFrontier f.length])

/-! ## §2. Reading. -/

/-- The count of hashes. -/
def length : Frontier → Nat
  | .volatile hs => hs.length
  | .stored f => f.length

/-- Whether there is no hash. -/
def isEmpty (f : Frontier) : Bool := f.length == 0

/-- The hash at the front. -/
def peek : Frontier → Except StoreError BlockHash
  | .volatile (h :: _) => .ok h
  | .volatile [] => .error .emptyFrontier
  | .stored f => f.peek

/-- Up to `count` hashes from the front, left in place. -/
def front (f : Frontier) (count : Nat) : Except StoreError (List BlockHash) :=
  match f with
  | .volatile hs => .ok (hs.take count)
  | .stored f => f.front count

/-! ## §3. Changing. -/

/-- Drop every hash, then store one. -/
def reset (f : Frontier) (h : BlockHash) : Reply Frontier Unit :=
  match f with
  | .volatile _ => .ok () (.volatile [h])
  | .stored f => (f.reset h).mapNext .stored

/-- Insert hashes at the front, the last one first, so that they keep their order. -/
def pushFrontBatch (f : Frontier) (hs : List BlockHash) : Reply Frontier Unit :=
  match f with
  | .volatile old => .ok () (.volatile (hs.reverse.foldl (fun front h => h :: front) old))
  | .stored f => (f.pushFrontBatch hs).mapNext .stored

/-- Insert a hash at the front. -/
def pushFront (f : Frontier) (h : BlockHash) : Reply Frontier Unit :=
  f.pushFrontBatch [h]

/-- Put back a batch that was drained before. -/
def returnBatch (f : Frontier) (hs : List BlockHash) : Reply Frontier Unit :=
  f.pushFrontBatch hs

/-- Append a hash at the back, to be drained last. -/
def pushBack (f : Frontier) (h : BlockHash) : Reply Frontier Unit :=
  match f with
  | .volatile old => .ok () (.volatile (old ++ [h]))
  | .stored f => (f.pushBack h).mapNext .stored

/-- Take up to `max` hashes from the front. -/
def drainFront (f : Frontier) (max : Nat) : Reply Frontier (List BlockHash) :=
  match f with
  | .volatile hs => .ok (hs.take max) (.volatile (hs.drop max))
  | .stored f => (f.drainFront max).mapNext .stored

/-- Drop every hash. -/
def clear : Frontier → Frontier
  | .volatile _ => .volatile []
  | .stored f => .stored f.clear

/-! ## §4. The tree behind a frontier. -/

/-- The tree a stored frontier is kept in. -/
def tree? : Frontier → Option Tree
  | .volatile _ => none
  | .stored f => some f.tree

/-- The frontier after its tree was changed behind its back. -/
def withTree (f : Frontier) (t : Tree) : Frontier :=
  match f with
  | .volatile hs => .volatile hs
  | .stored f => .stored ⟨t, f.span⟩

/-- The text of a stored frontier's state. -/
def text? : Frontier → Option String
  | .volatile _ => none
  | .stored f => some f.text

end Frontier
end BlockSync
