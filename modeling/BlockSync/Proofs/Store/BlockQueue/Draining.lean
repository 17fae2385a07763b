/-
  BlockSync.Proofs.Store.BlockQueue.Draining
  ──────────────────────────────────────────
  **A DAMAGED VALUE IS IN NOBODY'S WAY.**

  The values of a queue may have been overwritten by anything behind its back.  Whoever
  takes an entry is told what its value is: a block, or that it is damaged.  In either case
  the entry is gone, for it leaves the tree before it is looked at.

  So nothing about the values decides how far a number of polls gets
  (`StoredQueue.fills_afterPolls`): each takes one entry and its position, until there is
  none.  The last one leaves the range in the middle of the key space.
-/
import BlockSync.Proofs.Store.BlockQueue.Line
import BlockSync.Proofs.Store.Consumption

namespace BlockSync.StoredQueue

variable {q : StoredQueue}

/-! ## §1. One poll. -/

/-- What becomes of the front entry of a queue: its value is answered for, and the entry is
gone. -/
theorem poll_of_fills {v : Bytes} {vs : List Bytes} (h : q.tree.Fills q.span (v :: vs)) :
    q.poll.answer = decodeBlock v
      ∧ q.poll.next.tree = q.tree.dropFirst
      ∧ q.poll.next.tree.Fills q.poll.next.span vs := by
  have hspan := span_poll h
  have htree : q.poll.answer = decodeBlock v ∧ q.poll.next.tree = q.tree.dropFirst := by
    unfold poll
    rw [h.first?_cons]
    simp only [Position.decode_encode]
    cases decodeBlock v with
    | ok b => exact ⟨rfl, rfl⟩
    | error e => exact ⟨answer_reindex _ e, (tree_reindex _ e).1⟩
  refine ⟨htree.1, htree.2, ?_⟩
  rw [htree.2, hspan]
  exact h.dropFirst

/-! ## §2. Any number of polls. -/

/-- **Each poll takes one entry and its position**, and leaves the others as they are. -/
theorem fills_afterPolls (h : q.tree.Fills q.span q.tree.values) (k : Nat) :
    (q.afterPolls k).tree.entries = q.tree.entries.drop k
      ∧ (q.afterPolls k).tree.Fills (q.afterPolls k).span (q.tree.values.drop k) := by
  induction k with
  | zero => exact ⟨rfl, h⟩
  | succ k ih =>
    obtain ⟨hentries, hfills⟩ := ih
    have hleft : q.tree.entries.drop (k + 1) = (q.tree.entries.drop k).tail := by
      rw [List.tail_drop]
    have hvalues : q.tree.values.drop (k + 1) = (q.tree.values.drop k).tail := by
      rw [List.tail_drop]
    rw [hleft, hvalues]
    show (q.afterPolls k).poll.next.tree.entries = _
      ∧ (q.afterPolls k).poll.next.tree.Fills (q.afterPolls k).poll.next.span _
    cases hvs : q.tree.values.drop k with
    | nil =>
      -- there is nothing left to take
      rw [hvs] at hfills
      have hnil : (q.afterPolls k).tree.entries = [] := hfills.entries
      rw [poll_of_nil hnil, ← hentries, hnil]
      exact ⟨hnil, hfills⟩
    | cons v vs =>
      rw [hvs] at hfills
      obtain ⟨-, htree, hnext⟩ := poll_of_fills hfills
      refine ⟨?_, hnext⟩
      rw [htree, ← hentries]
      rfl

/-- What a queue answers after a number of polls depends on one value only. -/
theorem poll_afterPolls (h : q.tree.Fills q.span q.tree.values) (k : Nat) :
    (∀ v, q.tree.values[k]? = some v → (q.afterPolls k).poll.answer = decodeBlock v)
      ∧ (q.tree.size ≤ k → (q.afterPolls k).poll = .refuse .emptyQueue (q.afterPolls k)
        ∧ (q.afterPolls k).span = .fresh) := by
  obtain ⟨hentries, hfills⟩ := fills_afterPolls h k
  refine ⟨fun v hv => ?_, fun hsize => ?_⟩
  · rw [← List.head?_drop] at hv
    obtain ⟨vs, hvs⟩ := List.head?_eq_some_iff.mp hv
    rw [hvs] at hfills
    exact (poll_of_fills hfills).1
  · have hnil : q.tree.values.drop k = [] := by
      rw [List.drop_eq_nil_iff, ← h.size]
      exact hsize
    rw [hnil] at hfills
    exact ⟨poll_of_nil hfills.entries, hfills.centred rfl⟩

theorem length_afterPolls (h : q.tree.Fills q.span q.tree.values) (k : Nat) :
    (q.afterPolls k).length = q.tree.size - k := by
  have hlength : (q.afterPolls k).length = _ := (fills_afterPolls h k).2.length
  rw [hlength, List.length_drop, h.size]

end BlockSync.StoredQueue
