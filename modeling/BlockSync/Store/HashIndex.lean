/-
  BlockSync.Store.HashIndex
  ─────────────────────────
  **WHICH HASHES ARE QUEUED, AND HOW OFTEN.**

  The same block can be queued twice, when a retry meets a fresh delivery; so
  the index counts.  A hash whose count falls to zero leaves the index.
-/
import BlockSync.BlockHash

namespace BlockSync

/-- A multiset of hashes. -/
structure HashIndex where
  counts : List (BlockHash × Nat)

namespace HashIndex

/-- No hash at all. -/
def empty : HashIndex := ⟨[]⟩

instance : Inhabited HashIndex := ⟨empty⟩

/-- How often a hash was inserted and not removed. -/
def count (index : HashIndex) (h : BlockHash) : Nat :=
  (index.counts.find? fun e => e.1 = h).elim 0 Prod.snd

/-- One more of a hash. -/
def insert (index : HashIndex) (h : BlockHash) : HashIndex :=
  ⟨go index.counts⟩
where
  go : List (BlockHash × Nat) → List (BlockHash × Nat)
    | [] => [(h, 1)]
    | (k, n) :: rest => if k = h then (k, n + 1) :: rest else (k, n) :: go rest

/-- One less of a hash, if there is any. -/
def remove (index : HashIndex) (h : BlockHash) : HashIndex :=
  ⟨go index.counts⟩
where
  go : List (BlockHash × Nat) → List (BlockHash × Nat)
    | [] => []
    | (k, n) :: rest =>
      if k = h then (if n - 1 = 0 then rest else (k, n - 1) :: rest) else (k, n) :: go rest

/-- One more of each of some hashes. -/
def insertAll (index : HashIndex) (hs : List BlockHash) : HashIndex :=
  hs.foldl insert index

/-- Whether a hash is there. -/
def contains (index : HashIndex) (h : BlockHash) : Bool :=
  index.counts.any fun e => e.1 = h

/-- The hashes that are not there, in their order. -/
def missing (index : HashIndex) (hs : List BlockHash) : List BlockHash :=
  hs.filter fun h => !index.contains h

end HashIndex
end BlockSync
