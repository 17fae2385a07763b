/-
  BlockSync.Proofs.Store.BlockQueue.Placement
  ───────────────────────────────────────────
  **A QUEUE WHOSE STORED VALUES MAY BE ANYTHING.**

  A stored value may be damaged behind the back of a queue: then it is no block,
  and whoever takes it is refused.  `BlockQueue.Placed` says where the entries of
  a queue are, and nothing of what they are; `contents` has a block or a refusal
  for each.  The operations are statements about that list and about the index:

      Placed.enqueue, Placed.enqueueBatch    blocks behind the other entries, or no room
      poll_of_contents_nil                   nothing to take
      Placed.poll_block, Placed.poll_damage  the front entry, a block or not

  An append has no room only if the positions above the tail are used up, and then
  it leaves the queue as it was.
-/
import BlockSync.Proofs.Block.Binary
import BlockSync.Proofs.Store.Positions
import BlockSync.Store.BlockQueue

namespace BlockSync

/-! ## §1. Stored blocks and their index. -/

namespace StoredQueue

theorem decodeBlock_encode {b : Block} (hb : b.Storable) :
    decodeBlock (Block.Binary.encode b) = .ok b := by
  unfold decodeBlock
  rw [Block.Binary.decode_encode hb]
  rfl

theorem storable_of_decodeBlock {v : Bytes} {b : Block} (h : decodeBlock v = .ok b) :
    b.Storable := by
  unfold decodeBlock at h
  cases hv : Block.Binary.decode v with
  | error e =>
    rw [hv] at h
    cases h
  | ok d =>
    rw [hv] at h
    cases h
    exact Block.Binary.storable_of_decode hv

theorem map_decodeBlock_encode {bs : List Block} (hbs : ∀ b ∈ bs, b.Storable) :
    (bs.map Block.Binary.encode).map decodeBlock = bs.map .ok := by
  induction bs with
  | nil => rfl
  | cons b bs ih =>
    rw [List.map_cons, List.map_cons, List.map_cons, decodeBlock_encode (hbs b List.mem_cons_self),
      ih fun d hd => hbs d (List.mem_cons_of_mem b hd)]

/-- Counting the hashes of stored values that all are blocks. -/
theorem foldlM_decoded {bs : List Block} :
    ∀ {values : List Bytes} (index : HashIndex), values.map decodeBlock = bs.map .ok →
      values.foldlM (fun index v => (decodeBlock v).map fun b => index.insert b.hash) index
        = .ok (index.insertAll (bs.map Block.hash)) := by
  induction bs with
  | nil =>
    intro values index hv
    rw [List.map_eq_nil_iff.mp hv]
    rfl
  | cons b bs ih =>
    intro values index hv
    cases values with
    | nil => cases hv
    | cons v vs =>
      rw [List.map_cons, List.map_cons, List.cons.injEq] at hv
      rw [List.foldlM_cons, hv.1]
      exact ih (index.insert b.hash) hv.2

/-- Stored values of which all hashes were counted all are blocks. -/
theorem exists_decoded {index : HashIndex} {values : List Bytes} :
    ∀ start : HashIndex,
      values.foldlM (fun index v => (decodeBlock v).map fun b => index.insert b.hash) start
        = .ok index → ∃ bs : List Block, values.map decodeBlock = bs.map .ok := by
  induction values with
  | nil =>
    intro start _
    exact ⟨[], rfl⟩
  | cons v vs ih =>
    intro start hfold
    rw [List.foldlM_cons] at hfold
    cases hv : decodeBlock v with
    | error e =>
      rw [hv] at hfold
      cases hfold
    | ok b =>
      rw [hv] at hfold
      obtain ⟨bs, hbs⟩ := ih (start.insert b.hash) hfold
      exact ⟨b :: bs, by rw [List.map_cons, List.map_cons, hv, hbs]⟩

/-- A recount finds the hashes of blocks. -/
theorem index_reindex_of_blocks {q : StoredQueue} (e : StoreError) {bs : List Block}
    (hbs : q.tree.values.map decodeBlock = bs.map .ok) :
    (q.reindex e).next.index = HashIndex.empty.insertAll (bs.map Block.hash) := by
  unfold reindex scanIndex
  rw [foldlM_decoded .empty hbs]

/-- A recount that meets a damaged entry gives up, and finds nothing. -/
theorem index_reindex_of_damage {q : StoredQueue} (e : StoreError) {cause : StoreError}
    (hcause : .error cause ∈ q.tree.values.map decodeBlock) :
    (q.reindex e).next.index = .empty := by
  unfold reindex
  cases hscan : scanIndex q.tree with
  | error _ => rfl
  | ok index =>
    obtain ⟨bs, hbs⟩ := exists_decoded .empty hscan
    rw [hbs] at hcause
    obtain ⟨b, -, hb⟩ := List.mem_map.mp hcause
    cases hb

theorem tree_reindex (q : StoredQueue) (e : StoreError) :
    (q.reindex e).next.tree = q.tree ∧ (q.reindex e).next.span = q.span := by
  unfold reindex
  split
  next => exact ⟨rfl, rfl⟩
  next => exact ⟨rfl, rfl⟩

theorem answer_reindex (q : StoredQueue) (e : StoreError) : (q.reindex e).answer = .error e := by
  unfold reindex
  split
  next => rfl
  next => rfl

theorem poll_of_nil {q : StoredQueue} (h : q.tree.entries = []) :
    q.poll = .refuse .emptyQueue q := by
  have hfirst : q.tree.first? = none := by unfold Tree.first?; rw [h]; rfl
  unfold poll
  rw [hfirst]

end StoredQueue

/-! ## §2. Entries in their places. -/

namespace BlockQueue

/-- What a queue has in store from its front on: blocks, or what is wrong with a
stored value. -/
def contents : BlockQueue → List (Except StoreError Block)
  | .volatile q => q.blocks.map .ok
  | .stored q => q.tree.values.map StoredQueue.decodeBlock

/-- The tree of a queue fills the range that is remembered for it; its values may
be anything. -/
def Placed : BlockQueue → Prop
  | .volatile _ => True
  | .stored q => q.tree.Fills q.span q.tree.values

/-- Blocks went behind the entries of a queue, and into its index. -/
structure Appended (q next : BlockQueue) (new : List Block) : Prop where
  placed : next.Placed
  contents : next.contents = q.contents ++ new.map .ok
  index : next.index = q.index.insertAll (new.map Block.hash)

/-- What is wrong with a stored value is always that it is damaged. -/
theorem corruption_of_mem_contents {q : BlockQueue} {e : StoreError} (h : .error e ∈ q.contents) :
    ∃ damage, e = .corruption damage := by
  cases q with
  | volatile q =>
    obtain ⟨b, -, hb⟩ := List.mem_map.mp h
    cases hb
  | stored q =>
    obtain ⟨v, -, hv⟩ := List.mem_map.mp h
    unfold StoredQueue.decodeBlock at hv
    cases hd : Block.Binary.decode v with
    | ok b =>
      rw [hd] at hv
      cases hv
    | error damage =>
      rw [hd] at hv
      cases hv
      exact ⟨_, rfl⟩

/-- With nothing in store there is nothing to take. -/
theorem poll_of_contents_nil {q : BlockQueue} (h : q.contents = []) :
    q.poll.answer = .error .emptyQueue ∧ q.poll.next = q := by
  cases q with
  | volatile q =>
    have hblocks : q.blocks = [] := List.map_eq_nil_iff.mp h
    show (VolatileQueue.poll q).answer = _ ∧ volatile (VolatileQueue.poll q).next = _
    unfold VolatileQueue.poll
    rw [hblocks]
    exact ⟨rfl, rfl⟩
  | stored q =>
    have hentries : q.tree.entries = [] :=
      List.map_eq_nil_iff.mp (List.map_eq_nil_iff.mp h)
    show q.poll.answer = _ ∧ stored q.poll.next = _
    rw [StoredQueue.poll_of_nil hentries]
    exact ⟨rfl, rfl⟩

namespace Placed

variable {q : BlockQueue}

theorem length_eq (h : q.Placed) : q.length = q.contents.length := by
  cases q with
  | volatile q => exact (List.length_map _).symm
  | stored q =>
    have hlen : q.length = q.tree.values.length := Tree.Fills.length h
    show q.length = (q.tree.values.map StoredQueue.decodeBlock).length
    rw [hlen, List.length_map]

/-! ## §3. Appends. -/

theorem append {q : StoredQueue} {new : List Block} {tail : UInt64} (h : (stored q).Placed)
    (hnew : ∀ b ∈ new, b.Storable) (hroom : q.span.backEnd new.length = .ok tail) :
    Appended (.stored q) (.stored { q with
      tree := q.tree.apply (Position.putFrom q.span.tail (new.map Block.Binary.encode))
      span := ⟨q.span.head, tail⟩
      index := q.index.insertAll (new.map Block.hash) }) new := by
  have hlen : (new.map Block.Binary.encode).length = new.length := List.length_map _
  have hfills := Tree.Fills.append (new.map Block.Binary.encode) h (by rw [hlen]; exact hroom)
  refine ⟨?_, ?_, rfl⟩
  · show Tree.Fills _ _ (Tree.values _)
    rw [hfills.values_eq]
    exact hfills
  · show (Tree.values _).map StoredQueue.decodeBlock = _
    rw [hfills.values_eq, List.map_append, StoredQueue.map_decodeBlock_encode hnew]
    rfl

/-- A single append lands behind the others, whatever they are. -/
theorem enqueue {b : Block} (h : q.Placed) (hb : b.Storable) :
    ((q.enqueue b).answer = .ok () ∧ Appended q (q.enqueue b).next [b])
      ∨ ((q.enqueue b).answer = .error .keySpaceExhausted ∧ (q.enqueue b).next = q) := by
  cases q with
  | volatile q => exact Or.inl ⟨rfl, trivial, List.map_append, rfl⟩
  | stored q =>
    show ((q.enqueue b).answer = _ ∧ Appended _ (.stored (q.enqueue b).next) _)
      ∨ ((q.enqueue b).answer = _ ∧ stored (q.enqueue b).next = _)
    unfold StoredQueue.enqueue
    cases hroom : q.span.backEnd 1 with
    | error e =>
      rw [Span.backEnd_error hroom]
      exact Or.inr ⟨rfl, rfl⟩
    | ok tail =>
      have hnew : ∀ d ∈ [b], d.Storable := fun d hd => List.mem_singleton.mp hd ▸ hb
      exact Or.inl ⟨rfl, append h hnew hroom⟩

/-- Of a bulk append the beginning that fits lands behind the others. -/
theorem enqueueBatch (h : q.Placed) (new : List Block) (hnew : ∀ b ∈ new, b.Storable) :
    ((q.enqueueBatch new).answer
        = .ok (Capacity.admissible q.capacity q.length new.length)
      ∧ Appended q (q.enqueueBatch new).next
          (new.take (Capacity.admissible q.capacity q.length new.length)))
      ∨ ((q.enqueueBatch new).answer = .error .keySpaceExhausted
        ∧ (q.enqueueBatch new).next = q) := by
  cases q with
  | volatile q => exact Or.inl ⟨rfl, trivial, List.map_append, rfl⟩
  | stored q =>
    let kept := Capacity.admissible q.capacity q.length new.length
    have hlen : (new.take kept).length = kept := by
      show (new.take (min (q.capacity - q.length) new.length)).length
        = min (q.capacity - q.length) new.length
      rw [List.length_take]
      omega
    show ((q.enqueueBatch new).answer = .ok kept ∧ Appended _ (.stored (q.enqueueBatch new).next) _)
      ∨ ((q.enqueueBatch new).answer = _ ∧ stored (q.enqueueBatch new).next = _)
    simp only [StoredQueue.enqueueBatch]
    cases hroom : q.span.backEnd kept with
    | error e =>
      rw [Span.backEnd_error hroom]
      exact Or.inr ⟨rfl, rfl⟩
    | ok tail =>
      exact Or.inl ⟨rfl, append h (fun b hb => hnew b (List.mem_of_mem_take hb))
        (by rw [hlen]; exact hroom)⟩

/-! ## §4. Taking the front entry. -/

/-- The front entry leaves the tree, and then its value is looked at. -/
theorem exists_poll_eq {q : StoredQueue} {v : Bytes} {vs : List Bytes} (h : (stored q).Placed)
    (hvalues : q.tree.values = v :: vs) :
    ∃ rest : StoredQueue, rest.tree.Fills rest.span vs ∧ q.poll =
      match StoredQueue.decodeBlock v with
      | .ok b => .ok b { rest with index := q.index.remove b.hash }
      | .error e => rest.reindex e := by
  have hfills : q.tree.Fills q.span (v :: vs) := hvalues ▸ h
  -- the key of the first entry is the head, so the range shrinks with the tree
  let rest : StoredQueue :=
    { q with tree := q.tree.dropFirst, span := q.span.popFront q.span.head }
  refine ⟨rest, hfills.dropFirst, ?_⟩
  unfold StoredQueue.poll
  rw [hfills.first?_cons]
  simp only [Position.decode_encode]
  rfl

/-- A queue on a tree that was filled with some values. -/
theorem of_fills {q : StoredQueue} {values : List Bytes} (h : q.tree.Fills q.span values) :
    (stored q).Placed ∧ (stored q).contents = values.map StoredQueue.decodeBlock := by
  show q.tree.Fills q.span q.tree.values ∧ q.tree.values.map StoredQueue.decodeBlock = _
  rw [h.values_eq]
  exact ⟨h, rfl⟩

/-- A front block leaves the queue and the index. -/
theorem poll_block {b : Block} {rest : List (Except StoreError Block)} (h : q.Placed)
    (hfront : q.contents = .ok b :: rest) :
    q.poll.answer = .ok b ∧ q.poll.next.Placed ∧ q.poll.next.contents = rest
      ∧ q.poll.next.index = q.index.remove b.hash := by
  cases q with
  | volatile q =>
    obtain ⟨d, ds, hblocks, hd, hrest⟩ := List.map_eq_cons_iff.mp hfront
    cases hd
    show (VolatileQueue.poll q).answer = _ ∧ True ∧ (VolatileQueue.poll q).next.blocks.map _ = _
      ∧ (VolatileQueue.poll q).next.index = _
    unfold VolatileQueue.poll
    rw [hblocks]
    exact ⟨rfl, trivial, hrest, rfl⟩
  | stored q =>
    obtain ⟨v, vs, hvalues, hv, hrest⟩ := List.map_eq_cons_iff.mp hfront
    obtain ⟨next, hfills, hpoll⟩ := h.exists_poll_eq hvalues
    rw [hv] at hpoll
    show q.poll.answer = _ ∧ (stored q.poll.next).Placed ∧ (stored q.poll.next).contents = _
      ∧ q.poll.next.index = _
    rw [hpoll]
    obtain ⟨hplaced, hcontents⟩ :=
      of_fills (q := { next with index := q.index.remove b.hash }) hfills
    exact ⟨rfl, hplaced, hcontents.trans hrest, rfl⟩

/-- A damaged front entry leaves the queue too, and the index is counted from what
is left: it has the hashes of the blocks there, or none if another entry is damaged. -/
theorem poll_damage {e : StoreError} {rest : List (Except StoreError Block)} (h : q.Placed)
    (hfront : q.contents = .error e :: rest) :
    q.poll.answer = .error e ∧ q.poll.next.Placed ∧ q.poll.next.contents = rest
      ∧ (∀ bs : List Block, rest = bs.map .ok →
          q.poll.next.index = HashIndex.empty.insertAll (bs.map Block.hash))
      ∧ ∀ cause, .error cause ∈ rest → q.poll.next.index = .empty := by
  cases q with
  | volatile q =>
    obtain ⟨d, ds, -, hd, -⟩ := List.map_eq_cons_iff.mp hfront
    cases hd
  | stored q =>
    obtain ⟨v, vs, hvalues, hv, rfl⟩ := List.map_eq_cons_iff.mp hfront
    obtain ⟨next, hfills, hpoll⟩ := h.exists_poll_eq hvalues
    rw [hv] at hpoll
    obtain ⟨htree, hspan⟩ := StoredQueue.tree_reindex next e
    have hnext : (next.reindex e).next.tree.Fills (next.reindex e).next.span vs := by
      rw [htree, hspan]
      exact hfills
    obtain ⟨hplaced, hcontents⟩ := of_fills hnext
    show q.poll.answer = _ ∧ (stored q.poll.next).Placed ∧ (stored q.poll.next).contents = _
      ∧ (∀ bs : List Block, _ → q.poll.next.index = _) ∧ ∀ cause, _ → q.poll.next.index = _
    rw [hpoll]
    refine ⟨StoredQueue.answer_reindex next e, hplaced, hcontents, ?_, ?_⟩
    · intro bs hbs
      exact StoredQueue.index_reindex_of_blocks e (by rw [hfills.values_eq]; exact hbs)
    · intro cause hcause
      exact StoredQueue.index_reindex_of_damage e (by rw [hfills.values_eq]; exact hcause)

end Placed
end BlockQueue
end BlockSync
