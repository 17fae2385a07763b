/-
  BlockSync.Proofs.Store.BlockQueue.Line
  ──────────────────────────────────────
  **A QUEUE IN A TREE, DOWN TO ITS POSITIONS.**

  The blocks of a queue do not say whether one more can be appended: that depends on
  where the range stands in the key space.  A `Line` has both, the blocks and the
  range, and so it says of itself what an append and a poll do to it.  A queue that
  stands for a line goes on to stand for it:

      Lines.poll_nil, Lines.poll_cons   the front block leaves, and its position with it
      Lines.enqueue                     a block behind the others, or none if there is
                                        no position for it
      Lines.openTree                    the tree of the queue opens, at the same range

  So a queue that is opened again will run out of positions exactly when the old one
  would have.
-/
import BlockSync.Proofs.Store.BlockQueue

namespace BlockSync

/-- Blocks, and the range of positions that they are stored under. -/
structure Line where
  span : Span
  blocks : List Block

namespace Line

/-- The line without its front block. -/
def pop (l : Line) : Line := ⟨l.span.popFront l.span.head, l.blocks.tail⟩

/-- The line with one more block, if there is a position for it. -/
def append (l : Line) (b : Block) : Line :=
  match l.span.backEnd 1 with
  | .ok tail => ⟨⟨l.span.head, tail⟩, l.blocks ++ [b]⟩
  | .error _ => l

end Line

/-- A poll takes the position of the front entry, whatever its value is. -/
theorem StoredQueue.span_poll {q : StoredQueue} {v : Bytes} {vs : List Bytes}
    (h : q.tree.Fills q.span (v :: vs)) : q.poll.next.span = q.span.popFront q.span.head := by
  unfold poll
  rw [h.first?_cons]
  simp only [Position.decode_encode]
  cases decodeBlock v with
  | ok b => rfl
  | error e => exact (tree_reindex _ e).2

namespace BlockQueue

/-- A queue in a tree that stands for a line. -/
def Lines : BlockQueue → Line → Prop
  | .volatile _, _ => False
  | .stored q, l => q.Holds l.blocks ∧ q.span = l.span

namespace Lines

variable {q : BlockQueue} {l : Line} {b : Block}

theorem holds (h : q.Lines l) : q.Holds l.blocks := by
  cases q with
  | volatile q => exact h.elim
  | stored q => exact h.1

theorem poll_nil (h : q.Lines l) (hnil : l.blocks = []) :
    q.poll.answer = .error .emptyQueue ∧ q.poll.next = q := by
  have hholds := h.holds
  rw [hnil] at hholds
  exact hholds.poll_nil

theorem poll_cons {rest : List Block} (h : q.Lines l) (hcons : l.blocks = b :: rest) :
    q.poll.answer = .ok b ∧ q.poll.next.Lines l.pop := by
  have hholds := h.holds
  rw [hcons] at hholds
  obtain ⟨hanswer, hnext⟩ := hholds.poll_cons
  refine ⟨hanswer, ?_⟩
  cases q with
  | volatile q => exact h.elim
  | stored q =>
    obtain ⟨hstored, hspan⟩ := h
    -- there is a front entry, for it is what the front block is decoded from
    have hdecoded := hstored.decoded
    rw [hcons] at hdecoded
    obtain ⟨v, vs, hvalues, -, -⟩ := List.map_eq_cons_iff.mp hdecoded
    have hfills := hstored.fills
    rw [hvalues] at hfills
    have hpop : l.pop.blocks = rest := by
      show l.blocks.tail = rest
      rw [hcons]
      rfl
    refine ⟨?_, ?_⟩
    · rw [hpop]
      exact hnext
    · show q.poll.next.span = l.span.popFront l.span.head
      rw [StoredQueue.span_poll hfills, hspan]

/-- One more block stands behind the others, or there is no position for it. -/
theorem enqueue (h : q.Lines l) (hb : b.Storable) : (q.enqueue b).next.Lines (l.append b) := by
  cases q with
  | volatile q => exact h.elim
  | stored q =>
    obtain ⟨hstored, hspan⟩ := h
    have happend := Holds.enqueue (q := .stored q) hstored hb
    change (StoredQueue.enqueue q b).answer = .ok () ∧ (StoredQueue.enqueue q b).next.Holds _
      ∨ (StoredQueue.enqueue q b).answer = _ ∧ BlockQueue.stored (StoredQueue.enqueue q b).next = _
      at happend
    show (StoredQueue.enqueue q b).next.Holds (l.append b).blocks
      ∧ (StoredQueue.enqueue q b).next.span = (l.append b).span
    unfold Line.append
    unfold StoredQueue.enqueue at happend ⊢
    rw [← hspan]
    cases hroom : q.span.backEnd 1 with
    | error e => exact ⟨hstored, hspan⟩
    | ok tail =>
      rw [hroom] at happend
      rcases happend with ⟨-, hnext⟩ | ⟨hrefused, -⟩
      · exact ⟨hnext, rfl⟩
      · cases hrefused

/-- **The tree of a queue opens, and what it opens as stands for the same line.** -/
theorem openTree (h : q.Lines l) (capacity : Nat) :
    ∃ t next events, q.tree? = some t ∧ BlockQueue.openTree t capacity = .ok (next, events)
      ∧ next.Lines l := by
  cases q with
  | volatile q => exact h.elim
  | stored q =>
    obtain ⟨hstored, hspan⟩ := h
    refine ⟨q.tree, .stored ⟨q.tree, q.span, HashIndex.empty.insertAll (l.blocks.map Block.hash),
      capacity⟩, [.openedQueue q.length capacity], rfl, ?_, ?_⟩
    · unfold BlockQueue.openTree
      rw [StoredQueue.recover_of_blocks capacity hstored.fills.recover hstored.decoded]
      rfl
    · exact ⟨⟨hstored.fills, hstored.decoded, HashIndex.Counts.empty.insertAll _⟩, hspan⟩

theorem of_openTree {t : Tree} {capacity : Nat} {next : BlockQueue} {events : List Event}
    (h : q.Lines l) (htree : q.tree? = some t)
    (hopen : BlockQueue.openTree t capacity = .ok (next, events)) : next.Lines l := by
  obtain ⟨t', next', events', htree', hopen', hnext⟩ := h.openTree capacity
  cases htree.symm.trans htree'
  cases hopen.symm.trans hopen'
  exact hnext

end Lines
end BlockQueue
end BlockSync
