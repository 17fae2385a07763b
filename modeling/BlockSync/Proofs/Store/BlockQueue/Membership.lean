/-
  BlockSync.Proofs.Store.BlockQueue.Membership
  ────────────────────────────────────────────
  **THE INDEX TELLS WHICH BLOCKS ARE QUEUED.**

  The index of a queue is a second copy of what the queue holds, kept in step by
  every change and counted anew when a queue is opened.  In every state that a
  queue can get into (`Reachable`) it still holds some list of blocks, so the
  index counts exactly the hashes of that list (`Reachable.index_counts_blocks`).

  States are reached by calls, by consumers that wait for a block, and by
  starting again.  A waiting consumer touches the queue in one of its steps only,
  and there it does what a call to take a block does.
-/
import BlockSync.Proofs.Store.BlockQueue.Refinement
import BlockSync.Store.WaitingRoom

namespace BlockSync.BlockQueue

/-! ## §1. Reachable states. -/

/-- The states a queue can get into, from an empty memory or from a tree of
positions that opens. -/
inductive Reachable : BlockQueue → Prop where
  | empty (capacity : Nat) : Reachable (.empty capacity)
  | opened {t : Tree} {capacity : Nat} {q : BlockQueue} {events : List Event}
      (hkeys : ∀ e ∈ t.entries, e.1.length = 8)
      (hopen : openTree t capacity = .ok (q, events)) : Reachable q
  | performed {q : BlockQueue} (h : Reachable q) (c : Call) (hc : ∀ b ∈ c.blocks, b.Storable) :
      Reachable (q.perform c).2
  /-- A consumer that waits for a block goes on by one step. -/
  | waited {q : BlockQueue} (h : Reachable q) (w : Waiter) : Reachable (w.step q).2.1
  | restarted {q next : BlockQueue} (h : Reachable q) (hopen : q.reopen = .ok next) :
      Reachable next

/-- A step of a waiting consumer leaves the queue alone or takes a block. -/
theorem queue_waiterStep (w : Waiter) (q : BlockQueue) :
    (w.step q).2.1 = q ∨ (w.step q).2.1 = q.poll.next := by
  unfold Waiter.step
  split
  next => exact Or.inl rfl
  next =>
    dsimp only
    split
    next => exact Or.inr rfl
    next => exact Or.inr rfl
  next => exact Or.inl rfl
  next => exact Or.inl rfl
  next => exact Or.inl rfl

/-- **In every reachable state a queue holds a list of blocks.** -/
theorem Reachable.holds {q : BlockQueue} (h : Reachable q) : ∃ bs, q.Holds bs := by
  have hperform : ∀ {q : BlockQueue} {bs : List Block} (c : Call), q.Holds bs →
      (∀ b ∈ c.blocks, b.Storable) → ∃ bs, (q.perform c).2.Holds bs := by
    intro q bs c hq hc
    rcases hq.perform c hc with ⟨-, hn⟩ | ⟨-, hn⟩
    · exact ⟨_, hn⟩
    · exact ⟨bs, by rw [hn]; exact hq⟩
  induction h with
  | empty capacity => exact ⟨[], Holds.empty capacity⟩
  | opened hkeys hopen => exact Holds.of_openTree hkeys hopen
  | performed _ c hc ih =>
    obtain ⟨bs, hq⟩ := ih
    exact hperform c hq hc
  | @waited q _ w ih =>
    obtain ⟨bs, hq⟩ := ih
    rcases queue_waiterStep w q with hw | hw
    · exact ⟨bs, by rw [hw]; exact hq⟩
    · rw [hw]
      exact hperform .poll hq fun b hb => (by cases hb)
  | restarted _ hopen ih =>
    obtain ⟨bs, hq⟩ := ih
    obtain ⟨next, hr, hn, -⟩ := hq.reopen
    rw [hr] at hopen
    cases hopen
    exact ⟨bs, hn⟩

/-! ## §2. What the index says. -/

theorem Holds.count_index {q : BlockQueue} {bs : List Block} (h : q.Holds bs) (k : BlockHash) :
    q.index.count k = bs.countP fun b => b.hash = k := by
  rw [h.index_counts.count, List.count_eq_countP, List.countP_map]
  congr 1

/-- **THE INDEX TELLS THE TRUTH.**  In every reachable state all that is queued is
a block; the index counts each hash as often as there are queued blocks with it,
stores no count of zero and has a count left for the block that leaves next; so
it knows which hashes are queued, and which of a list are not. -/
theorem Reachable.index_counts_blocks {q : BlockQueue} (h : Reachable q) :
    q.contents = q.blocks.map .ok
      ∧ (∀ k, q.index.count k = q.blocks.countP fun b => b.hash = k)
      ∧ (∀ e ∈ q.index.counts, 0 < e.2)
      ∧ (∀ b, q.poll.answer = .ok b → 0 < q.index.count b.hash)
      ∧ (∀ k, q.contains k = true ↔ ∃ b ∈ q.blocks, b.hash = k)
      ∧ ∀ ks, q.filterExisting ks = ks.filter fun k => k ∉ q.blocks.map Block.hash := by
  obtain ⟨bs, hq⟩ := h.holds
  rw [hq.blocks_eq]
  refine ⟨hq.contents_eq, hq.count_index, hq.index_counts.pos, ?_, ?_, hq.index_counts.missing_eq⟩
  · intro b hb
    cases bs with
    | nil =>
      rw [hq.poll_nil.1] at hb
      cases hb
    | cons front rest =>
      rw [hq.poll_cons.1] at hb
      cases hb
      rw [hq.index_counts.count]
      exact List.count_pos_iff.mpr List.mem_cons_self
  · intro k
    exact (hq.index_counts.contains_iff k).trans List.mem_map

/-- Two blocks of one hash were queued, and the first has left. -/
def halfTwins : BlockQueue :=
  let twin : Block := .linking 5 (.replicate 9) (.replicate 8)
  let other : Block := { twin with payload := [1] }
  let q : BlockQueue := .stored ⟨.empty, .fresh, .empty, 4⟩
  ((q.perform (.enqueueBatch [twin, other])).2.perform .poll).2

theorem index_counts_halfTwins :
    Reachable halfTwins ∧ halfTwins.blocks.length = 1
      ∧ (halfTwins.contains (.replicate 9) = true
        ↔ ∃ b ∈ halfTwins.blocks, b.hash = .replicate 9) := by
  have hreach : Reachable halfTwins := by
    refine .performed (.performed (.opened (t := .empty) ?_ (openTree_empty 4)) _ ?_) _ ?_
    · intro e he
      cases he
    · decide +kernel
    · intro b hb
      cases hb
  exact ⟨hreach, by decide +kernel, hreach.index_counts_blocks.2.2.2.2.1 _⟩

end BlockSync.BlockQueue
