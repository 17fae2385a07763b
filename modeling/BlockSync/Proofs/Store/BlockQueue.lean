/-
  BlockSync.Proofs.Store.BlockQueue
  ─────────────────────────────────
  **WHAT A BLOCK QUEUE HOLDS.**

  A queue in memory is a list of blocks; a queue in a tree is a range of
  positions, stored values under them and an index in memory.  `BlockQueue.Holds`
  says for either that the queue stands for a list of blocks, every field and
  the payload included, and that its index counts their hashes.  The blocks of
  such a list can all be stored, so that a block of it can be appended again.

  Each operation is then a statement about that list, as a case of what it does to
  entries of any kind (`Placed`):

      Holds.enqueue        one block behind the others, or no room
      Holds.enqueueBatch   the beginning that fits behind the others, or no room
      Holds.poll_nil, Holds.poll_cons   the front block
      Holds.clear          nothing
      Holds.reopen         the same list, from the tree alone
-/
import BlockSync.Proofs.Store.BlockQueue.Placement
import BlockSync.Proofs.Store.HashIndex

namespace BlockSync

/-! ## §1. A queue in a tree. -/

namespace StoredQueue

/-- A queue in a tree that stands for a list of blocks. -/
structure Holds (q : StoredQueue) (bs : List Block) : Prop where
  fills : q.tree.Fills q.span q.tree.values
  decoded : q.tree.values.map decodeBlock = bs.map .ok
  index : q.index.Counts (bs.map Block.hash)

variable {q : StoredQueue} {bs : List Block}

/-- A queue holds what its tree was filled with. -/
theorem Holds.of_fills {values : List Bytes} (hf : q.tree.Fills q.span values)
    (hd : values.map decodeBlock = bs.map .ok) (hi : q.index.Counts (bs.map Block.hash)) :
    q.Holds bs := by
  refine ⟨?_, ?_, hi⟩
  · rw [hf.values_eq]
    exact hf
  · rw [hf.values_eq]
    exact hd

/-- What was decoded can be stored. -/
theorem Holds.storable (h : q.Holds bs) : ∀ b ∈ bs, b.Storable := by
  intro b hb
  have hmem : .ok b ∈ q.tree.values.map decodeBlock := by
    rw [h.decoded]
    exact List.mem_map_of_mem hb
  obtain ⟨v, -, hv⟩ := List.mem_map.mp hmem
  exact storable_of_decodeBlock hv

theorem Holds.peekBack (h : q.Holds bs) : q.peekBack = .ok bs.getLast? := by
  have hd := h.decoded
  have hf := h.fills
  unfold StoredQueue.peekBack
  rcases List.eq_nil_or_concat bs with rfl | ⟨cs, b, hbs⟩
  · have hv : q.tree.values = [] := List.map_eq_nil_iff.mp hd
    rw [hv] at hf
    rw [hf.last?_nil]
    rfl
  · -- the last stored value is the stored form of the last block
    rw [List.concat_eq_append] at hbs
    subst hbs
    rw [List.map_append] at hd
    obtain ⟨vs, ws, hv, hvs, hws⟩ := List.map_eq_append_iff.mp hd
    obtain ⟨v, rfl, hb⟩ := List.map_eq_singleton_iff.mp hws
    rw [hv] at hf
    rw [hf.last?_concat, List.getLast?_concat]
    show (decodeBlock v).map some = _
    rw [hb]
    rfl

theorem Holds.clear (q : StoredQueue) : q.clear.Holds [] :=
  Holds.of_fills (Tree.Fills.cleared q.tree) rfl HashIndex.Counts.empty

/-- A tree with a range opens as a queue if its values are blocks. -/
theorem recover_of_blocks {t : Tree} {s : Span} (capacity : Nat) (hs : Span.recover t = .ok s)
    (hbs : t.values.map decodeBlock = bs.map .ok) :
    recover t capacity
      = .ok ⟨t, s, HashIndex.empty.insertAll (bs.map Block.hash), capacity⟩ := by
  unfold recover scanIndex
  rw [hs, foldlM_decoded .empty hbs]
  rfl

/-- Only such a tree opens as a queue, and the hashes are counted. -/
theorem exists_blocks_of_recover {t : Tree} {capacity : Nat} (hq : recover t capacity = .ok q) :
    ∃ bs : List Block, t.values.map decodeBlock = bs.map .ok ∧ q.tree = t
      ∧ Span.recover t = .ok q.span ∧ q.index.Counts (bs.map Block.hash) := by
  have hrecover := hq
  unfold recover at hq
  cases hs : Span.recover t with
  | error e =>
    rw [hs] at hq
    cases hq
  | ok s =>
    cases hi : scanIndex t with
    | error e =>
      rw [hs, hi] at hq
      cases hq
    | ok index =>
      -- counting went through, so every value is a block
      obtain ⟨bs, hbs⟩ := exists_decoded .empty hi
      rw [recover_of_blocks capacity hs hbs] at hrecover
      cases hrecover
      exact ⟨bs, hbs, rfl, rfl, HashIndex.Counts.empty.insertAll (bs.map Block.hash)⟩

/-- A tree of positions that opens as a queue holds the blocks of its values. -/
theorem Holds.of_recover {t : Tree} {capacity : Nat}
    (hkeys : ∀ e ∈ t.entries, e.1.length = 8) (hq : recover t capacity = .ok q) :
    ∃ bs, q.Holds bs := by
  obtain ⟨bs, hbs, htree, hspan, hindex⟩ := exists_blocks_of_recover hq
  refine ⟨bs, ?_, ?_, hindex⟩
  · rw [htree]
    exact Tree.Fills.of_recover hkeys hspan
  · rw [htree]
    exact hbs

/-- **The tree of a queue opens as a queue that holds the same blocks.** -/
theorem Holds.recover (h : q.Holds bs) :
    ∃ index, StoredQueue.recover q.tree q.capacity = .ok { q with index := index }
      ∧ ({ q with index := index } : StoredQueue).Holds bs := by
  exact ⟨HashIndex.empty.insertAll (bs.map Block.hash),
    recover_of_blocks q.capacity h.fills.recover h.decoded, h.fills, h.decoded,
    HashIndex.Counts.empty.insertAll (bs.map Block.hash)⟩

/-! ## §2. What no operation changes. -/

theorem capacity_poll (q : StoredQueue) : q.poll.next.capacity = q.capacity := by
  unfold StoredQueue.poll
  split
  next => rfl
  next key value _ =>
    dsimp only
    split
    next => rfl
    next =>
      split
      next => rfl
      next =>
        unfold reindex
        split
        next => rfl
        next => rfl

theorem capacity_enqueue (q : StoredQueue) (b : Block) :
    (q.enqueue b).next.capacity = q.capacity := by
  unfold StoredQueue.enqueue
  split
  next => rfl
  next => rfl

theorem capacity_enqueueBatch (q : StoredQueue) (new : List Block) :
    (q.enqueueBatch new).next.capacity = q.capacity := by
  simp only [StoredQueue.enqueueBatch]
  split
  next => rfl
  next => rfl

end StoredQueue

/-! ## §3. Queues wherever they live. -/

namespace BlockQueue

/-- The blocks of a queue, the front block first. -/
def blocks (q : BlockQueue) : List Block := q.contents.filterMap Except.toOption

/-- A queue that stands for a list of blocks. -/
def Holds : BlockQueue → List Block → Prop
  | .volatile q, bs =>
    q.blocks = bs ∧ q.index.Counts (bs.map Block.hash) ∧ ∀ b ∈ bs, b.Storable
  | .stored q, bs => q.Holds bs

/-- The queue of a process that has started again: a tree is opened anew, a queue
in memory has nothing to open. -/
def reopen (q : BlockQueue) : Except StoreError BlockQueue :=
  match q.tree? with
  | some t => (openTree t q.capacity).map Prod.fst
  | none => .ok q

theorem filterMap_toOption_ok (bs : List Block) :
    (bs.map (Except.ok (ε := StoreError))).filterMap Except.toOption = bs := by
  induction bs with
  | nil => rfl
  | cons b bs ih => exact congrArg (b :: ·) ih

@[simp] theorem capacity_enqueue (q : BlockQueue) (b : Block) :
    (q.enqueue b).next.capacity = q.capacity := by
  cases q with
  | volatile q => rfl
  | stored q => exact q.capacity_enqueue b

@[simp] theorem capacity_enqueueBatch (q : BlockQueue) (new : List Block) :
    (q.enqueueBatch new).next.capacity = q.capacity := by
  cases q with
  | volatile q => rfl
  | stored q => exact q.capacity_enqueueBatch new

@[simp] theorem capacity_poll (q : BlockQueue) : q.poll.next.capacity = q.capacity := by
  cases q with
  | volatile q =>
    show (VolatileQueue.poll q).next.capacity = q.capacity
    unfold VolatileQueue.poll
    split
    next => rfl
    next => rfl
  | stored q => exact q.capacity_poll

@[simp] theorem capacity_clear (q : BlockQueue) : q.clear.capacity = q.capacity := by
  cases q with
  | volatile q => rfl
  | stored q => rfl

/-- A refused append leaves the queue as it was, whatever the queue holds. -/
theorem next_enqueue_of_error {q : BlockQueue} {b : Block} {e : StoreError}
    (h : (q.enqueue b).answer = .error e) : (q.enqueue b).next = q := by
  cases q with
  | volatile q => cases h
  | stored q =>
    change (StoredQueue.enqueue q b).answer = .error e at h
    show BlockQueue.stored (StoredQueue.enqueue q b).next = .stored q
    unfold StoredQueue.enqueue at h ⊢
    cases hroom : q.span.backEnd 1 with
    | error cause => rfl
    | ok tail =>
      rw [hroom] at h
      cases h

theorem next_enqueueBatch_of_error {q : BlockQueue} {bs : List Block} {e : StoreError}
    (h : (q.enqueueBatch bs).answer = .error e) : (q.enqueueBatch bs).next = q := by
  cases q with
  | volatile q => cases h
  | stored q =>
    change (StoredQueue.enqueueBatch q bs).answer = .error e at h
    show BlockQueue.stored (StoredQueue.enqueueBatch q bs).next = .stored q
    simp only [StoredQueue.enqueueBatch] at h ⊢
    cases hroom : q.span.backEnd (Capacity.admissible q.capacity q.length bs.length) with
    | error cause => rfl
    | ok tail =>
      rw [hroom] at h
      cases h

namespace Holds

variable {q : BlockQueue} {bs : List Block}

theorem empty (capacity : Nat) : (BlockQueue.empty capacity).Holds [] :=
  ⟨rfl, HashIndex.Counts.empty, fun _ hb => (by cases hb)⟩

/-- The entries of a queue that stands for some blocks are in their places. -/
theorem placed (h : q.Holds bs) : q.Placed := by
  cases q with
  | volatile q => trivial
  | stored q => exact StoredQueue.Holds.fills h

theorem contents_eq (h : q.Holds bs) : q.contents = bs.map .ok := by
  cases q with
  | volatile q => exact congrArg (List.map Except.ok) h.1
  | stored q => exact StoredQueue.Holds.decoded h

/-- A queue stands for its entries, if they are blocks and the index counts them. -/
theorem of_placed (hplaced : q.Placed) (hcontents : q.contents = bs.map .ok)
    (hindex : q.index.Counts (bs.map Block.hash)) (hbs : ∀ b ∈ bs, b.Storable) : q.Holds bs := by
  cases q with
  | volatile q =>
    have hblocks := congrArg (List.filterMap Except.toOption) hcontents
    unfold contents at hblocks
    rw [filterMap_toOption_ok, filterMap_toOption_ok] at hblocks
    exact ⟨hblocks, hindex, hbs⟩
  | stored q => exact ⟨hplaced, hcontents, hindex⟩

theorem blocks_eq (h : q.Holds bs) : q.blocks = bs := by
  unfold blocks
  rw [h.contents_eq, filterMap_toOption_ok]

theorem length_eq (h : q.Holds bs) : q.length = bs.length := by
  rw [h.placed.length_eq, h.contents_eq, List.length_map]

theorem index_counts (h : q.Holds bs) : q.index.Counts (bs.map Block.hash) := by
  cases q with
  | volatile q => exact h.2.1
  | stored q => exact StoredQueue.Holds.index h

theorem storable (h : q.Holds bs) : ∀ b ∈ bs, b.Storable := by
  cases q with
  | volatile q => exact h.2.2
  | stored q => exact StoredQueue.Holds.storable h

theorem peekBack_eq (h : q.Holds bs) : q.peekBack = .ok bs.getLast? := by
  cases q with
  | volatile q =>
    obtain ⟨rfl, -⟩ := h
    rfl
  | stored q => exact StoredQueue.Holds.peekBack h

/-! ## §4. What the operations do. -/

theorem appended {next : BlockQueue} {new : List Block} (h : q.Holds bs)
    (hnew : ∀ b ∈ new, b.Storable) (hnext : Appended q next new) : next.Holds (bs ++ new) := by
  refine of_placed hnext.placed ?_ ?_ ?_
  · rw [hnext.contents, h.contents_eq, List.map_append]
  · rw [hnext.index, List.map_append]
    exact h.index_counts.insertAll _
  · intro d hd
    rcases List.mem_append.mp hd with hd | hd
    · exact h.storable d hd
    · exact hnew d hd

/-- A single append lands behind the others, whatever the capacity. -/
theorem enqueue {b : Block} (h : q.Holds bs) (hb : b.Storable) :
    ((q.enqueue b).answer = .ok () ∧ (q.enqueue b).next.Holds (bs ++ [b]))
      ∨ ((q.enqueue b).answer = .error .keySpaceExhausted ∧ (q.enqueue b).next = q) := by
  rcases h.placed.enqueue hb with ⟨hanswer, hnext⟩ | hrefused
  · have hnew : ∀ d ∈ [b], d.Storable := fun d hd => List.mem_singleton.mp hd ▸ hb
    exact Or.inl ⟨hanswer, h.appended hnew hnext⟩
  · exact Or.inr hrefused

/-- Of a bulk append the beginning that fits lands behind the others. -/
theorem enqueueBatch {new : List Block} (h : q.Holds bs) (hnew : ∀ b ∈ new, b.Storable) :
    ((q.enqueueBatch new).answer = .ok (Capacity.admissible q.capacity bs.length new.length)
      ∧ (q.enqueueBatch new).next.Holds
          (bs ++ new.take (Capacity.admissible q.capacity bs.length new.length)))
      ∨ ((q.enqueueBatch new).answer = .error .keySpaceExhausted
        ∧ (q.enqueueBatch new).next = q) := by
  have happend := h.placed.enqueueBatch new hnew
  rw [h.length_eq] at happend
  rcases happend with ⟨hanswer, hnext⟩ | hrefused
  · exact Or.inl ⟨hanswer, h.appended (fun b hb => hnew b (List.mem_of_mem_take hb)) hnext⟩
  · exact Or.inr hrefused

theorem poll_nil (h : q.Holds []) :
    q.poll.answer = .error .emptyQueue ∧ q.poll.next = q :=
  poll_of_contents_nil h.contents_eq

/-- The front block leaves, and the others stay in their order. -/
theorem poll_cons {b : Block} (h : q.Holds (b :: bs)) :
    q.poll.answer = .ok b ∧ q.poll.next.Holds bs := by
  obtain ⟨hanswer, hplaced, hcontents, hindex⟩ := h.placed.poll_block h.contents_eq
  refine ⟨hanswer, of_placed hplaced hcontents ?_ fun d hd =>
    h.storable d (List.mem_cons_of_mem b hd)⟩
  rw [hindex]
  exact h.index_counts.remove

theorem clear (q : BlockQueue) : q.clear.Holds [] := by
  cases q with
  | volatile q => exact ⟨rfl, HashIndex.Counts.empty, fun _ hb => (by cases hb)⟩
  | stored q => exact StoredQueue.Holds.clear q

theorem of_openTree {t : Tree} {capacity : Nat} {events : List Event}
    (hkeys : ∀ e ∈ t.entries, e.1.length = 8) (hq : openTree t capacity = .ok (q, events)) :
    ∃ bs, q.Holds bs := by
  unfold openTree at hq
  cases hr : StoredQueue.recover t capacity with
  | error e =>
    rw [hr] at hq
    cases hq
  | ok s =>
    rw [hr] at hq
    cases hq
    exact StoredQueue.Holds.of_recover hkeys hr

/-- **A queue that starts again succeeds and holds the same blocks.** -/
theorem reopen (h : q.Holds bs) :
    ∃ next, q.reopen = .ok next ∧ next.Holds bs ∧ next.capacity = q.capacity := by
  cases q with
  | volatile q => exact ⟨_, rfl, h, rfl⟩
  | stored q =>
    obtain ⟨index, hr, hholds⟩ := StoredQueue.Holds.recover h
    refine ⟨.stored { q with index := index }, ?_, hholds, rfl⟩
    show (openTree q.tree q.capacity).map Prod.fst = _
    unfold openTree
    rw [hr]
    rfl

end Holds
end BlockQueue
end BlockSync
