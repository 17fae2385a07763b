/-
  BlockSync.Proofs.Store.BlockQueue.Chunks
  ────────────────────────────────────────
  **A DELIVERY MAY COME IN PIECES.**

  Blocks are handed to a queue in lists, and each list is cut to what fits at that moment.
  Where a delivery is divided into lists makes no difference: the same blocks are kept, and
  the queue ends in the same state.  For what fits is kept from the front, so after a list
  that was cut the queue is full, and nothing of a later list fits.

  `extend` is an append without a bound, which a bulk append amounts to on the beginning
  that fits, as long as there are positions (`enqueueBatch_eq`).  It goes through pieces as
  it stands (`extend_append`), and it says by itself where the tail and the length are.

  Main results:

      extend_append             one append after the other is one append
      enqueueBatches_eq         many lists, as one append
      enqueueBatches_flatten    many lists against one
-/
import BlockSync.Proofs.Store.BlockQueue.Damage
import BlockSync.Proofs.Store.BlockQueue.Tip

namespace BlockSync

/-! ## §1. Where appends go. -/

/-- A range that a tree fills ends just behind the last key. -/
theorem Tree.Tipped.of_fills {t : Tree} {s : Span} {values : List Bytes}
    (h : t.Fills s values) : t.Tipped s := by
  have hlength := h.length
  rcases List.eq_nil_or_concat values with rfl | ⟨vs, v, rfl⟩
  · refine ⟨fun _ => hlength, fun e he => ?_⟩
    rw [h.entries] at he
    cases he
  · rw [List.concat_eq_append] at h
    have hlast : t.entries.getLast? = some _ := h.last?_concat
    refine ⟨fun hnil => ?_, fun e he => ?_⟩
    · rw [hnil] at hlast
      cases hlast
    · rw [hlast] at he
      cases he
      have hbound := h.bound
      have htail := h.tail
      rw [List.length_append, List.length_singleton] at hbound htail
      refine ⟨_, rfl, ?_⟩
      rw [Position.toNat_add_ofNat (by omega), htail]
      omega

/-- Entries in their places end with the position before the tail, whatever they are. -/
theorem BlockQueue.Placed.tipped {q : BlockQueue} (h : q.Placed) : q.Tipped := by
  cases q with
  | volatile q => trivial
  | stored q => exact Tree.Tipped.of_fills h

theorem Position.putFrom_append (vs ws : List Bytes) (p : UInt64) :
    putFrom p (vs ++ ws) = putFrom p vs ++ putFrom (p + UInt64.ofNat vs.length) ws := by
  rw [putFrom_eq, putFrom_eq, putFrom_eq, entriesFrom_append, List.map_append]

namespace BlockQueue

/-- A queue with blocks behind the others, whatever its capacity is. -/
def extend (q : BlockQueue) (bs : List Block) : BlockQueue :=
  match q with
  | .volatile q => .volatile { q with
      blocks := q.blocks ++ bs
      index := q.index.insertAll (bs.map Block.hash) }
  | .stored q => .stored { q with
      tree := q.tree.apply (Position.putFrom q.span.tail (bs.map Block.Binary.encode))
      span := ⟨q.span.head, q.span.tail + UInt64.ofNat bs.length⟩
      index := q.index.insertAll (bs.map Block.hash) }

/-- The positions above the tail of a queue are enough for some blocks. -/
def HasPositions : BlockQueue → Nat → Prop
  | .volatile _, _ => True
  | .stored q, n => q.span.tail.toNat + n < UInt64.size

@[simp] theorem capacity_extend (q : BlockQueue) (bs : List Block) :
    (q.extend bs).capacity = q.capacity := by
  cases q with
  | volatile q => rfl
  | stored q => rfl

@[simp] theorem index_extend (q : BlockQueue) (bs : List Block) :
    (q.extend bs).index = q.index.insertAll (bs.map Block.hash) := by
  cases q with
  | volatile q => rfl
  | stored q => rfl

theorem extend_nil (q : BlockQueue) : q.extend [] = q := by
  cases q with
  | volatile q =>
    show volatile { q with blocks := q.blocks ++ [], index := q.index } = volatile q
    rw [List.append_nil]
  | stored q =>
    show stored { q with tree := q.tree, span := ⟨q.span.head, q.span.tail + 0⟩, index := q.index }
      = stored q
    rw [UInt64.add_zero]

/-- **One append after the other is one append.** -/
theorem extend_append (q : BlockQueue) (as bs : List Block) :
    q.extend (as ++ bs) = (q.extend as).extend bs := by
  have hindex : ∀ index : HashIndex, index.insertAll ((as ++ bs).map Block.hash)
      = (index.insertAll (as.map Block.hash)).insertAll (bs.map Block.hash) := by
    intro index
    rw [List.map_append]
    exact List.foldl_append
  cases q with
  | volatile q =>
    show volatile _ = volatile _
    rw [hindex, ← List.append_assoc]
  | stored q =>
    have htail : q.span.tail + UInt64.ofNat (as ++ bs).length
        = q.span.tail + UInt64.ofNat as.length + UInt64.ofNat bs.length := by
      rw [List.length_append, UInt64.ofNat_add, UInt64.add_assoc]
    show stored _ = stored _
    rw [hindex, List.map_append, Position.putFrom_append, Tree.apply_append, List.length_map, htail]

/-- Positions that are used up by one append are missing for the next. -/
theorem hasPositions_extend {q : BlockQueue} {bs : List Block} (h : q.HasPositions bs.length)
    (n : Nat) : (q.extend bs).HasPositions n ↔ q.HasPositions (bs.length + n) := by
  cases q with
  | volatile q => exact Iff.rfl
  | stored q =>
    have htail : (q.span.tail + UInt64.ofNat bs.length).toNat = q.span.tail.toNat + bs.length :=
      Position.toNat_add_ofNat h
    show (q.span.tail + UInt64.ofNat bs.length).toNat + n < _ ↔ _
    rw [htail, Nat.add_assoc]
    exact Iff.rfl

theorem HasPositions.mono {q : BlockQueue} {m n : Nat} (h : q.HasPositions n) (hle : m ≤ n) :
    q.HasPositions m := by
  cases q with
  | volatile q => trivial
  | stored q =>
    have htail : q.span.tail.toNat + n < UInt64.size := h
    show q.span.tail.toNat + m < UInt64.size
    omega

/-- The width of any range grows with its tail, unless it comes to more than a word. -/
theorem length_extend {q : BlockQueue} {bs : List Block}
    (h : q.length + bs.length < UInt64.size) :
    (q.extend bs).length = q.length + bs.length := by
  cases q with
  | volatile q => exact List.length_append
  | stored q =>
    have hwidth : (q.span.tail - q.span.head).toNat + bs.length < UInt64.size := h
    show (q.span.tail + UInt64.ofNat bs.length - q.span.head).toNat
      = (q.span.tail - q.span.head).toNat + bs.length
    have hmove : q.span.tail + UInt64.ofNat bs.length - q.span.head
        = q.span.tail - q.span.head + UInt64.ofNat bs.length := by
      rw [UInt64.sub_eq_add_neg, UInt64.sub_eq_add_neg, UInt64.add_assoc, UInt64.add_assoc,
        UInt64.add_comm (UInt64.ofNat _)]
    rw [hmove, Position.toNat_add_ofNat hwidth]

/-! ## §2. What a queue has room for. -/

/-- How many of some blocks a queue keeps of a bulk append. -/
def admits (q : BlockQueue) (count : Nat) : Nat :=
  Capacity.admissible q.capacity q.length count

theorem length_take_admits (q : BlockQueue) (bs : List Block) :
    (bs.take (q.admits bs.length)).length = q.admits bs.length := by
  have hle : q.admits bs.length ≤ bs.length := Nat.min_le_right _ _
  rw [List.length_take]
  omega

/-- **A bulk append is an append of the beginning that fits**, if there are positions for
it. -/
theorem enqueueBatch_eq {q : BlockQueue} {bs : List Block}
    (h : q.HasPositions (q.admits bs.length)) :
    (q.enqueueBatch bs).answer = .ok (q.admits bs.length)
      ∧ (q.enqueueBatch bs).next = q.extend (bs.take (q.admits bs.length)) := by
  cases q with
  | volatile q => exact ⟨rfl, rfl⟩
  | stored q =>
    let kept := Capacity.admissible q.capacity q.length bs.length
    have hlen : (bs.take kept).length = kept := length_take_admits (.stored q) bs
    have hroom : q.span.backEnd kept = .ok (q.span.tail + UInt64.ofNat kept) := if_pos h
    show (q.enqueueBatch bs).answer = .ok kept
      ∧ stored (q.enqueueBatch bs).next = (stored q).extend (bs.take kept)
    simp only [StoredQueue.enqueueBatch, extend]
    rw [hroom, hlen]
    exact ⟨rfl, rfl⟩

theorem enqueueBatch_of_not_hasPositions {q : BlockQueue} {bs : List Block}
    (h : ¬ q.HasPositions (q.admits bs.length)) :
    (q.enqueueBatch bs).answer = .error .keySpaceExhausted := by
  cases q with
  | volatile q => exact absurd trivial h
  | stored q =>
    have hroom : q.span.backEnd (Capacity.admissible q.capacity q.length bs.length)
        = .error .keySpaceExhausted := if_neg h
    show (q.enqueueBatch bs).answer = _
    simp only [StoredQueue.enqueueBatch]
    rw [hroom]
    rfl

theorem length_extend_take {q : BlockQueue} (hcapacity : q.capacity < UInt64.size)
    (bs : List Block) :
    (q.extend (bs.take (q.admits bs.length))).length = q.length + q.admits bs.length := by
  have hlen := q.length_take_admits bs
  rcases Nat.eq_zero_or_pos (q.admits bs.length) with hzero | hpos
  · rw [hzero, List.take_zero, extend_nil, Nat.add_zero]
  · have hle : q.admits bs.length ≤ q.capacity - q.length := Nat.min_le_left _ _
    rw [length_extend (by omega), hlen]

/-- Once a list is cut, nothing of a later one fits: of two lists as many blocks are kept as
of both together. -/
theorem admits_add {q : BlockQueue} (hcapacity : q.capacity < UInt64.size) (bs : List Block)
    (n : Nat) :
    q.admits bs.length + (q.extend (bs.take (q.admits bs.length))).admits n
      = q.admits (bs.length + n) := by
  have hlength := length_extend_take hcapacity bs
  unfold admits Capacity.admissible at hlength ⊢
  rw [capacity_extend, hlength]
  omega

/-- And they are the same blocks. -/
theorem take_admits_append {q : BlockQueue} (hcapacity : q.capacity < UInt64.size)
    (as bs : List Block) :
    (as ++ bs).take (q.admits (as ++ bs).length)
      = as.take (q.admits as.length)
        ++ bs.take ((q.extend (as.take (q.admits as.length))).admits bs.length) := by
  have hlength := length_extend_take hcapacity as
  have hfits : ∀ (r : BlockQueue) (cs : List Block),
      cs.take (r.admits cs.length) = cs.take (r.capacity - r.length) :=
    fun r cs => take_admissible r.capacity r.length cs
  rw [hfits q (as ++ bs), hfits _ bs, hfits q as, List.take_append, ← hfits q as, capacity_extend,
    hlength]
  congr 1
  rw [List.take_eq_take_iff]
  unfold admits Capacity.admissible
  omega

/-! ## §3. List after list. -/

/-- Hand lists of blocks to a queue, one after the other, until one is refused; the answer
is how many blocks were kept in all. -/
def enqueueBatches (q : BlockQueue) : List (List Block) → Except StoreError Nat × BlockQueue
  | [] => (.ok 0, q)
  | bs :: rest =>
    match (q.enqueueBatch bs).answer with
    | .error e => (.error e, (q.enqueueBatch bs).next)
    | .ok kept =>
      let later := (q.enqueueBatch bs).next.enqueueBatches rest
      (later.1.map (kept + ·), later.2)

/-- **Lists one after the other are one append of the beginning that fits**, if there are
positions for all of it; else one of them is refused. -/
theorem enqueueBatches_eq (chunks : List (List Block)) :
    ∀ {q : BlockQueue}, q.capacity < UInt64.size →
      (q.HasPositions (q.admits chunks.flatten.length) →
        q.enqueueBatches chunks = (.ok (q.admits chunks.flatten.length),
          q.extend (chunks.flatten.take (q.admits chunks.flatten.length))))
      ∧ (¬ q.HasPositions (q.admits chunks.flatten.length) →
        (q.enqueueBatches chunks).1 = .error .keySpaceExhausted) := by
  induction chunks with
  | nil =>
    intro q _
    have hnone : q.admits ([] : List (List Block)).flatten.length = 0 := Nat.min_zero _
    rw [hnone]
    refine ⟨fun _ => ?_, fun hroom => absurd ?_ hroom⟩
    · rw [List.take_zero, extend_nil]
      rfl
    · cases q with
      | volatile q => trivial
      | stored q => exact q.span.tail.toNat_lt
  | cons bs rest ih =>
    intro q hcapacity
    let kept := bs.take (q.admits bs.length)
    have hlen : kept.length = q.admits bs.length := q.length_take_admits bs
    have htotal := admits_add hcapacity bs rest.flatten.length
    have hblocks := take_admits_append hcapacity bs rest.flatten
    rw [← List.length_append] at htotal
    rw [List.flatten_cons]
    by_cases hroom : q.HasPositions (q.admits bs.length)
    · -- the rest of the lists meets the queue after the first
      obtain ⟨hanswer, hnext⟩ := enqueueBatch_eq hroom
      have hrest := ih (q := q.extend kept) (by rw [capacity_extend]; exact hcapacity)
      have hrooms := hasPositions_extend (hlen.symm ▸ hroom : q.HasPositions kept.length)
        ((q.extend kept).admits rest.flatten.length)
      rw [hlen, htotal] at hrooms
      rw [hrooms] at hrest
      unfold enqueueBatches
      rw [hanswer, hnext]
      refine ⟨fun hall => ?_, fun hshort => ?_⟩
      · show ((enqueueBatches (q.extend kept) rest).1.map _, (enqueueBatches _ rest).2) = _
        rw [hrest.1 hall, hblocks, extend_append, ← htotal]
        rfl
      · show (enqueueBatches (q.extend kept) rest).1.map _ = _
        rw [hrest.2 hshort]
        rfl
    · -- what the first list needs, all of them need
      have hshort : ¬ q.HasPositions (q.admits (bs ++ rest.flatten).length) := by
        intro hall
        exact hroom (hall.mono (by omega))
      unfold enqueueBatches
      rw [enqueueBatch_of_not_hasPositions hroom]
      exact ⟨fun hall => absurd hall hshort, fun _ => rfl⟩

/-! ## §4. The state after a delivery. -/

/-- Blocks lie behind the entries of a queue, in a tree under the positions from its tail
on. -/
def Behind : (q next : BlockQueue) → List Block → Prop
  | .volatile q, .volatile r, new => r.blocks = q.blocks ++ new
  | .stored q, .stored r, new =>
    r.span = ⟨q.span.head, q.span.tail + UInt64.ofNat new.length⟩
      ∧ r.tree.entries
        = q.tree.entries ++ Position.entriesFrom q.span.tail (new.map Block.Binary.encode)
  | _, _, _ => False

theorem behind_extend {q : BlockQueue} {bs : List Block} (h : q.Tipped)
    (hroom : q.HasPositions bs.length) : q.Behind (q.extend bs) bs := by
  cases q with
  | volatile q => rfl
  | stored q =>
    refine ⟨rfl, Tree.Tipped.entries_append h _ ?_⟩
    rw [List.length_map]
    exact hroom

theorem Behind.contents {q next : BlockQueue} {new : List Block} (h : q.Behind next new)
    (hnew : ∀ b ∈ new, b.Storable) : next.contents = q.contents ++ new.map .ok := by
  cases q with
  | volatile q =>
    cases next with
    | volatile r =>
      have hblocks : r.blocks = q.blocks ++ new := h
      show r.blocks.map _ = q.blocks.map _ ++ _
      rw [hblocks, List.map_append]
    | stored r => exact h.elim
  | stored q =>
    cases next with
    | volatile r => exact h.elim
    | stored r =>
      show (r.tree.entries.map Prod.snd).map StoredQueue.decodeBlock
        = (q.tree.entries.map Prod.snd).map StoredQueue.decodeBlock ++ _
      rw [h.2, List.map_append, List.map_append, Position.map_snd_entriesFrom,
        StoredQueue.map_decodeBlock_encode hnew]

/-- **IT MAKES NO DIFFERENCE HOW A DELIVERY IS DIVIDED.**  A queue may be in any state, above
its capacity too; the capacity is a word.  The first blocks of a delivery that fit need one
position each; a queue in memory has them always, a stored one if they are above its tail
(`HasPositions`).

Without them lists of blocks handed to the queue one after the other are refused, and so are
all their blocks in one list.  With them as many blocks are kept either way, and the queue
ends in the same state: the blocks lie behind the old entries, and the index has them. -/
theorem enqueueBatches_flatten {q : BlockQueue} (hcapacity : q.capacity < UInt64.size)
    (chunks : List (List Block)) :
    let kept := chunks.flatten.take (q.capacity - q.length)
    (¬ q.HasPositions kept.length →
        (q.enqueueBatches chunks).1 = .error .keySpaceExhausted
          ∧ (q.enqueueBatch chunks.flatten).answer = .error .keySpaceExhausted)
      ∧ (q.HasPositions kept.length → ∃ r,
        q.enqueueBatches chunks
            = (.ok (min chunks.flatten.length (q.capacity - q.length)), r)
          ∧ (q.enqueueBatch chunks.flatten).answer
            = .ok (min chunks.flatten.length (q.capacity - q.length))
          ∧ (q.enqueueBatch chunks.flatten).next = r
          ∧ r.index = q.index.insertAll (kept.map Block.hash)
          ∧ (q.Tipped → q.Behind r kept
            ∧ ((∀ b ∈ kept, b.Storable) → r.contents = q.contents ++ kept.map .ok))) := by
  intro kept
  obtain ⟨hfits, hshort⟩ := enqueueBatches_eq chunks hcapacity
  have hkept : chunks.flatten.take (q.admits chunks.flatten.length) = kept :=
    take_admissible q.capacity q.length chunks.flatten
  have hlen : kept.length = q.admits chunks.flatten.length := by
    rw [← hkept, length_take_admits]
  have hcount : q.admits chunks.flatten.length
      = min chunks.flatten.length (q.capacity - q.length) := Nat.min_comm _ _
  refine ⟨fun hroom => ?_, fun hroom => ?_⟩
  · rw [hlen] at hroom
    exact ⟨hshort hroom, enqueueBatch_of_not_hasPositions hroom⟩
  · have hadmits : q.HasPositions (q.admits chunks.flatten.length) := hlen ▸ hroom
    obtain ⟨hanswer, hnext⟩ := enqueueBatch_eq hadmits
    rw [hkept] at hnext
    rw [← hcount]
    refine ⟨q.extend kept, ?_, hanswer, hnext, index_extend q kept, fun htipped => ?_⟩
    · rw [hfits hadmits, hkept]
    · have hbehind := behind_extend htipped hroom
      exact ⟨hbehind, hbehind.contents⟩

/-- Two of three entries are damaged, and there is room for seven more: the second list is
cut, and nothing is kept of the third. -/
theorem enqueueBatches_twiceDamaged :
    let chunks :=
      [Block.inLine [4, 5, 6, 7], Block.inLine [8, 9, 10, 11], Block.inLine [12]]
    let r := (twiceDamaged.enqueueBatches chunks).2
    twiceDamaged.capacity < UInt64.size ∧ twiceDamaged.Tipped
      ∧ twiceDamaged.enqueueBatches chunks = (.ok 7, r)
      ∧ (twiceDamaged.enqueueBatch chunks.flatten).answer = .ok 7
      ∧ (twiceDamaged.enqueueBatch chunks.flatten).next = r
      ∧ r.contents = twiceDamaged.contents ++ (Block.inLine [4, 5, 6, 7, 8, 9, 10]).map .ok := by
  intro chunks r
  have hcapacity : twiceDamaged.capacity < UInt64.size := by decide +kernel
  have htipped : twiceDamaged.Tipped := tampered_twiceDamaged.placed.tipped
  have hcount : min chunks.flatten.length (twiceDamaged.capacity - twiceDamaged.length) = 7 := by
    decide +kernel
  have hkept : chunks.flatten.take (twiceDamaged.capacity - twiceDamaged.length)
      = Block.inLine [4, 5, 6, 7, 8, 9, 10] := by decide +kernel
  have hroom : twiceDamaged.HasPositions
      (chunks.flatten.take (twiceDamaged.capacity - twiceDamaged.length)).length := by
    rw [hkept]
    show _ < UInt64.size
    decide +kernel
  obtain ⟨s, hs, hanswer, hnext, -, hstate⟩ := (enqueueBatches_flatten hcapacity chunks).2 hroom
  obtain rfl : r = s := congrArg Prod.snd hs
  rw [hcount] at hs hanswer
  rw [hkept] at hstate
  exact ⟨hcapacity, htipped, hs, hanswer, hnext, (hstate htipped).2 (by decide +kernel)⟩

end BlockQueue
end BlockSync
