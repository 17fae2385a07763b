/-
  BlockSync.Store.Tree
  ────────────────────
  **AN ORDERED MAP FROM BYTE KEYS TO BYTE VALUES.**

  A tree is a list of entries whose keys ascend in lexicographic order; the
  order is part of the type, so that the entries are the only view there is.
  Writing an entry replaces the one under the same key.  A batch of writes is
  applied in order, so the last write to a key wins.

  Main results:

      sorted_insertEntry   writing an entry keeps the keys ascending
-/
import BlockSync.Bytes.Endian

namespace BlockSync

/-! ## §1. Entries in key order. -/

/-- A value under its key. -/
abbrev Entry := Bytes × Bytes

/-- A map from byte keys to byte values, its entries in ascending key order. -/
structure Tree where
  entries : List Entry
  sorted : entries.Pairwise fun a b => a.1 < b.1

namespace Tree

/-- The entries with one written among them. -/
def insertEntry (key value : Bytes) : List Entry → List Entry
  | [] => [(key, value)]
  | e :: rest =>
    if key < e.1 then (key, value) :: e :: rest
    else if key = e.1 then (key, value) :: rest
    else e :: insertEntry key value rest

theorem mem_insertEntry {key value : Bytes} {e : Entry} {es : List Entry}
    (h : e ∈ insertEntry key value es) : e = (key, value) ∨ e ∈ es := by
  induction es with
  | nil => simp_all [insertEntry]
  | cons d rest ih => grind [insertEntry]

theorem sorted_insertEntry (key value : Bytes) {es : List Entry}
    (h : es.Pairwise fun a b => a.1 < b.1) :
    (insertEntry key value es).Pairwise fun a b => a.1 < b.1 := by
  induction es with
  | nil => simp [insertEntry]
  | cons e rest ih =>
    rw [List.pairwise_cons] at h
    simp only [insertEntry]
    split
    next hlt =>
      refine List.pairwise_cons.2 ⟨fun d hd => ?_, List.pairwise_cons.2 h⟩
      rcases List.mem_cons.1 hd with rfl | hd
      · exact hlt
      · exact List.lt_trans hlt (h.1 d hd)
    next hlt =>
      split
      next heq =>
        subst heq
        exact List.pairwise_cons.2 h
      next hne =>
        refine List.pairwise_cons.2 ⟨fun d hd => ?_, ih h.2⟩
        rcases mem_insertEntry hd with rfl | hd
        · exact Std.lt_of_le_of_ne (List.not_lt.1 hlt) (Ne.symm hne)
        · exact h.1 d hd

/-! ## §2. Reading. -/

/-- The tree without entries. -/
def empty : Tree := ⟨[], List.Pairwise.nil⟩

instance : Inhabited Tree := ⟨empty⟩

/-- The entries in key order. -/
def toList (t : Tree) : List Entry := t.entries

/-- The count of entries. -/
def size (t : Tree) : Nat := t.entries.length

/-- The entry with the least key. -/
def first? (t : Tree) : Option Entry := t.entries.head?

/-- The entry with the greatest key. -/
def last? (t : Tree) : Option Entry := t.entries.getLast?

/-- The values in key order. -/
def values (t : Tree) : List Bytes := t.entries.map Prod.snd

/-- Whether there is an entry under a key. -/
def contains (t : Tree) (key : Bytes) : Bool := t.entries.any fun e => e.1 = key

/-! ## §3. Writing. -/

/-- The tree with one entry written. -/
def insert (t : Tree) (key value : Bytes) : Tree :=
  ⟨insertEntry key value t.entries, sorted_insertEntry key value t.sorted⟩

/-- The tree without the entry under a key. -/
def erase (t : Tree) (key : Bytes) : Tree :=
  ⟨t.entries.filter fun e => e.1 ≠ key, t.sorted.filter _⟩

/-- The tree without its first entry. -/
def dropFirst (t : Tree) : Tree :=
  ⟨t.entries.tail, t.sorted.tail⟩

/-! ## §4. Batches. -/

/-- One write of a batch. -/
inductive Change where
  | put (key value : Bytes)
  | delete (key : Bytes)
deriving DecidableEq

/-- The tree after one write. -/
def change (t : Tree) : Change → Tree
  | .put key value => t.insert key value
  | .delete key => t.erase key

/-- The tree after a batch of writes, applied one after the other as one unit. -/
def apply (t : Tree) (batch : List Change) : Tree :=
  batch.foldl change t

/-- The batch that deletes every entry. -/
def deleteAll (t : Tree) : List Change :=
  t.entries.map fun e => .delete e.1

end Tree
end BlockSync
