/-
  BlockSync.Proofs.Store.Healing
  ──────────────────────────────
  **A STORE THAT IS EMPTIED IS AS GOOD AS NEW.**

  A tree may hold anything: keys that are no positions, values that are no blocks and no
  hashes, keys that lie outside of the range its store remembers.  Emptying a store asks
  for none of it.  The batch deletes each key that is there, and what is put back by a
  reset comes after all deletions, so it stands even if its key was deleted just before.

  What is left does not depend on what was there.  It is the store that opens a tree with
  this content, in the same state, so nobody who calls it or starts it again can tell the
  two apart (`Renewed`).

  Main results:

      StoredFrontier.entries_reset    the one entry after a reset
      reset_and_clear_renew           each way to empty a store, from every state
-/
import BlockSync.Proofs.Store.BlockQueue.Refinement
import BlockSync.Proofs.Store.Occupancy

namespace BlockSync

/-! ## §1. As good as new. -/

/-- A store with a tree behind it that cannot be told from one that has just opened a tree
with the same entries, and that starts again in the state it is in. -/
structure Renewed {σ κ α : Type} (S : Service σ κ α)
    (openTree : Tree → Except StoreError (σ × List Event)) (entries : List Entry) (s : σ) :
    Prop where
  alike : ∀ t : Tree, t.entries = entries →
    ∃ g events, openTree t = .ok (g, events) ∧ ∀ steps, S.trace steps s = S.trace steps g
  restarts : S.restart s = .ok s

/-- A tree is its entries, so it is enough to open the tree of the store itself. -/
theorem Renewed.of_openTree {σ κ α : Type} {S : Service σ κ α}
    {openTree : Tree → Except StoreError (σ × List Event)} {t : Tree} {s : σ}
    {events : List Event} (hopen : openTree t = .ok (s, events)) (hrestart : S.restart s = .ok s) :
    Renewed S openTree t.entries s := by
  refine ⟨fun u hu => ?_, hrestart⟩
  obtain rfl : u = t := Tree.eq_of_entries hu
  exact ⟨s, events, hopen, fun steps => rfl⟩

/-- A frontier whose range is the one its tree opens with is as good as new. -/
theorem Frontier.renewed {f : StoredFrontier} (h : Span.recover f.tree = .ok f.span) :
    Renewed Frontier.service Frontier.openTree f.tree.entries (.stored f) := by
  have hopen : Frontier.openTree f.tree = .ok (.stored f, [.openedFrontier f.length]) := by
    unfold Frontier.openTree StoredFrontier.recover
    rw [h]
    rfl
  refine Renewed.of_openTree hopen ?_
  show (Frontier.openTree f.tree).map Prod.fst = .ok (.stored f)
  rw [hopen]
  rfl

/-- A queue whose range and index are those its tree opens with is as good as new. -/
theorem BlockQueue.renewed {q : StoredQueue} (hspan : Span.recover q.tree = .ok q.span)
    (hindex : StoredQueue.scanIndex q.tree = .ok q.index) :
    Renewed BlockQueue.service (BlockQueue.openTree · q.capacity) q.tree.entries (.stored q) := by
  have hopen : BlockQueue.openTree q.tree q.capacity
      = .ok (.stored q, [.openedQueue q.length q.capacity]) := by
    unfold BlockQueue.openTree StoredQueue.recover
    rw [hspan, hindex]
    rfl
  refine Renewed.of_openTree hopen ?_
  show (BlockQueue.openTree q.tree q.capacity).map Prod.fst = .ok (.stored q)
  rw [hopen]
  rfl

/-! ## §2. What emptying leaves. -/

/-- The deletions of a reset come first, so the entry it writes is the only one. -/
theorem StoredFrontier.entries_reset (f : StoredFrontier) (h : BlockHash) :
    (f.reset h).next.tree.entries = [(Position.encode 0x7ffffffffffffffe, h.bytes)] := by
  show (f.tree.apply (f.tree.deleteAll
    ++ [.put (Position.encode 0x7ffffffffffffffe) h.bytes])).entries = _
  rw [Tree.apply_append]
  show Tree.insertEntry _ _ (f.tree.apply f.tree.deleteAll).entries = _
  rw [Tree.entries_apply_deleteAll]
  rfl

/-- **WHATEVER IS IN A STORE, IT CAN BE EMPTIED.**  A frontier and a queue may have any
entries in their trees, remember any range and count any hashes.  A reset succeeds and
leaves one entry, just before the middle; a clear leaves none, and the range starts in the
middle.  From then on the store is as good as new. -/
theorem reset_and_clear_renew (f : StoredFrontier) (q : StoredQueue) :
    (∀ h : BlockHash, ∃ g : StoredFrontier, (Frontier.stored f).reset h = .ok () (.stored g)
      ∧ g.tree.entries = [(Position.encode 0x7ffffffffffffffe, h.bytes)]
      ∧ g.span = ⟨0x7ffffffffffffffe, 0x7fffffffffffffff⟩
      ∧ Renewed Frontier.service Frontier.openTree
          [(Position.encode 0x7ffffffffffffffe, h.bytes)] (.stored g))
    ∧ (∃ g : StoredFrontier, (Frontier.stored f).clear = .stored g
      ∧ g.tree.entries = []
      ∧ g.span = ⟨0x7fffffffffffffff, 0x7fffffffffffffff⟩
      ∧ Renewed Frontier.service Frontier.openTree [] (.stored g))
    ∧ ∃ r : StoredQueue, (BlockQueue.stored q).clear = .stored r
      ∧ r.tree.entries = []
      ∧ r.span = ⟨0x7fffffffffffffff, 0x7fffffffffffffff⟩
      ∧ r.index = .empty
      ∧ r.capacity = q.capacity
      ∧ Renewed BlockQueue.service (BlockQueue.openTree · q.capacity) [] (.stored r) := by
  refine ⟨fun h => ?_, ?_, ?_⟩
  · have hentries := f.entries_reset h
    have hholds : Frontier.Holds (.stored (f.reset h).next) [h] :=
      (Frontier.Holds.reset (.stored f) h).2
    refine ⟨(f.reset h).next, rfl, hentries, rfl, ?_⟩
    rw [← hentries]
    exact Frontier.renewed (Tree.Fills.recover hholds)
  · have hentries : f.clear.tree.entries = [] := Tree.entries_apply_deleteAll f.tree
    refine ⟨f.clear, rfl, hentries, rfl, ?_⟩
    rw [← hentries]
    exact Frontier.renewed (Tree.Fills.cleared f.tree).recover
  · have hentries : q.clear.tree.entries = [] := Tree.entries_apply_deleteAll q.tree
    have hscan : StoredQueue.scanIndex q.clear.tree = .ok .empty := by
      unfold StoredQueue.scanIndex Tree.values
      rw [hentries]
      rfl
    refine ⟨q.clear, rfl, hentries, rfl, rfl, rfl, ?_⟩
    rw [← hentries]
    exact BlockQueue.renewed (q := q.clear) (Tree.Fills.cleared q.tree).recover hscan

end BlockSync
