/-
  BlockSync.Proofs.Store.BlockQueue.Damage
  ────────────────────────────────────────
  **WHAT THE INDEX KNOWS AFTER DAMAGE.**

  The hash of a damaged entry is unknown, so a queue that takes one counts its
  index anew from what is left.  The recount gives up at the next damaged entry;
  then the index starts empty, although there may be blocks in the queue.

  What that means for later calls, until another damaged entry is taken
  (`Tampered.index_after_damage`):

      what the index has              is queued, always
      hashes the recount could tell   are in the index exactly if they are queued

  The recount could tell all hashes if it went through, and otherwise those that no
  block left had (`Recounted`).  Of the other hashes the index may miss some: a
  block that was there already takes one with it when it leaves.
-/
import BlockSync.Proofs.Store.BlockQueue.Membership
import BlockSync.Proofs.Store.Occupancy

namespace BlockSync.BlockQueue

/-! ## §1. Queues with damaged entries. -/

namespace Placed

variable {q : BlockQueue}

/-- **Every call keeps the entries in their places**, whatever they are. -/
theorem perform (h : q.Placed) (c : Call) (hc : ∀ b ∈ c.blocks, b.Storable) :
    (q.perform c).2.Placed := by
  cases c with
  | enqueue b =>
    show (q.enqueue b).next.Placed
    rcases h.enqueue (hc b (by simp [Call.blocks])) with ⟨-, hnext⟩ | ⟨-, hnext⟩
    · exact hnext.placed
    · rw [hnext]
      exact h
  | enqueueBatch new =>
    show (q.enqueueBatch new).next.Placed
    rcases h.enqueueBatch new hc with ⟨-, hnext⟩ | ⟨-, hnext⟩
    · exact hnext.placed
    · rw [hnext]
      exact h
  | poll =>
    show q.poll.next.Placed
    cases hcontents : q.contents with
    | nil =>
      rw [(BlockQueue.poll_of_contents_nil hcontents).2]
      exact h
    | cons e rest =>
      cases e with
      | ok b => exact (h.poll_block hcontents).2.1
      | error e => exact (h.poll_damage hcontents).2.1
  | clear => exact (Holds.clear q).placed
  | _ => exact h

/-- Other values under the same keys leave the entries in their places. -/
theorem overwrite {q : StoredQueue} {t : Tree} (h : (stored q).Placed)
    (hkeys : t.entries.map Prod.fst = q.tree.entries.map Prod.fst) :
    (stored { q with tree := t }).Placed := by
  -- the range is remembered, so it is enough that no entry came or left
  have hcount : t.values.length = q.tree.values.length := by
    have := congrArg List.length hkeys
    rwa [List.length_map, List.length_map, ← List.length_map (f := Prod.snd),
      ← List.length_map (f := Prod.snd)] at this
  have hfills : q.tree.Fills q.span q.tree.values := h
  refine ⟨?_, ?_, ?_⟩
  · exact Position.eq_entriesFrom_of_keys q.tree.values q.span.head
      (hkeys.trans (congrArg (List.map Prod.fst) hfills.entries))
  · show q.span.tail.toNat = q.span.head.toNat + t.values.length
    rw [hcount]
    exact hfills.tail
  · intro hnil
    rw [hnil] at hcount
    exact hfills.centred (List.eq_nil_of_length_eq_zero hcount.symm)

end Placed

/-- The states of a queue whose stored values are overwritten at any moments. -/
inductive Tampered : BlockQueue → Prop where
  | intact {q : BlockQueue} (h : Reachable q) : Tampered q
  | overwritten {q : StoredQueue} {t : Tree} (h : Tampered (.stored q))
      (hkeys : t.entries.map Prod.fst = q.tree.entries.map Prod.fst) :
      Tampered ((stored q).withTree t)
  | performed {q : BlockQueue} (h : Tampered q) (c : Call) (hc : ∀ b ∈ c.blocks, b.Storable) :
      Tampered (q.perform c).2

/-- Damage leaves the entries in their places. -/
theorem Tampered.placed {q : BlockQueue} (h : Tampered q) : q.Placed := by
  induction h with
  | intact h =>
    obtain ⟨bs, hq⟩ := h.holds
    exact hq.placed
  | overwritten _ hkeys ih => exact ih.overwrite hkeys
  | performed _ c hc ih => exact ih.perform c hc

/-- Calls none of which takes a damaged entry. -/
inductive Calm (q : BlockQueue) : BlockQueue → Prop where
  | refl : Calm q q
  | performed {r : BlockQueue} (h : Calm q r) (c : Call) (hc : ∀ b ∈ c.blocks, b.Storable)
      (hcalm : c = .poll → ∀ damage, r.poll.answer ≠ .error (.corruption damage)) :
      Calm q (r.perform c).2

/-- What a recount of the entries left can tell: all hashes if each entry is a
block, and otherwise the hashes that no block has. -/
def Recounted (left : BlockQueue) (h : BlockHash) : Prop :=
  left.contents = left.blocks.map .ok ∨ ∀ b ∈ left.blocks, b.hash ≠ h

theorem blocks_of_contents_cons {q : BlockQueue} {b : Block}
    {rest : List (Except StoreError Block)} (h : q.contents = .ok b :: rest) :
    q.blocks = b :: rest.filterMap Except.toOption := by
  unfold blocks
  rw [h]
  rfl

theorem Appended.blocks {q next : BlockQueue} {new : List Block} (h : Appended q next new) :
    next.blocks = q.blocks ++ new := by
  unfold BlockQueue.blocks
  rw [h.contents, List.filterMap_append, filterMap_toOption_ok]

/-- Entries that are not all blocks have a damaged one among them. -/
theorem exists_damage {es : List (Except StoreError Block)}
    (h : es ≠ (es.filterMap Except.toOption).map .ok) : ∃ cause, .error cause ∈ es := by
  induction es with
  | nil => exact absurd rfl h
  | cons e es ih =>
    cases e with
    | error cause => exact ⟨cause, List.mem_cons_self⟩
    | ok b =>
      obtain ⟨cause, hcause⟩ := ih fun heq => h (congrArg (Except.ok b :: ·) heq)
      exact ⟨cause, List.mem_cons_of_mem _ hcause⟩

/-! ## §2. The index from one recount to the next. -/

/-- The index counts no block that is not queued, and some hashes exactly. -/
def IndexTracks (q : BlockQueue) (sure : BlockHash → Prop) : Prop :=
  q.index.Tracks (q.blocks.map Block.hash) sure

theorem Appended.indexTracks {q next : BlockQueue} {new : List Block}
    {sure : BlockHash → Prop} (h : Appended q next new) (ht : q.IndexTracks sure) :
    next.IndexTracks sure := by
  unfold IndexTracks
  rw [h.index, h.blocks, List.map_append]
  exact HashIndex.Tracks.insertAll (new.map Block.hash) ht

/-- A poll that meets a damaged entry finds it at the front. -/
theorem Placed.exists_front {q : BlockQueue} {damage : Damage} (h : q.Placed)
    (hpoll : q.poll.answer = .error (.corruption damage)) :
    ∃ rest, q.contents = .error (.corruption damage) :: rest := by
  cases hcontents : q.contents with
  | nil =>
    rw [(BlockQueue.poll_of_contents_nil hcontents).1] at hpoll
    cases hpoll
  | cons e rest =>
    cases e with
    | ok b =>
      rw [(h.poll_block hcontents).1] at hpoll
      cases hpoll
    | error e =>
      rw [(h.poll_damage hcontents).1] at hpoll
      cases hpoll
      exact ⟨rest, rfl⟩

/-- **After a recount** the index is right about all that the recount could tell. -/
theorem Placed.indexTracks_poll {q : BlockQueue} {damage : Damage} (h : q.Placed)
    (hpoll : q.poll.answer = .error (.corruption damage)) :
    q.poll.next.IndexTracks (Recounted q.poll.next) := by
  obtain ⟨rest, hcontents⟩ := h.exists_front hpoll
  obtain ⟨-, -, hrest, hall, hlost⟩ := h.poll_damage hcontents
  unfold IndexTracks
  by_cases hintact : q.poll.next.contents = q.poll.next.blocks.map .ok
  · rw [hall _ (hrest.symm.trans hintact)]
    exact (HashIndex.Counts.empty.insertAll _).tracks _
  · -- another entry is damaged, so the index is empty
    obtain ⟨cause, hcause⟩ := exists_damage hintact
    rw [hlost cause (hrest ▸ hcause)]
    refine HashIndex.Tracks.empty fun h hh hmem => ?_
    obtain ⟨b, hb, hbh⟩ := List.mem_map.mp hmem
    rcases hh with hh | hh
    · exact hintact hh
    · exact hh b hb hbh

/-- A call that takes no damaged entry keeps the index as right as it was. -/
theorem IndexTracks.perform {q : BlockQueue} {sure : BlockHash → Prop} (ht : q.IndexTracks sure)
    (h : q.Placed) (c : Call) (hc : ∀ b ∈ c.blocks, b.Storable)
    (hcalm : c = .poll → ∀ damage, q.poll.answer ≠ .error (.corruption damage)) :
    (q.perform c).2.IndexTracks sure := by
  cases c with
  | enqueue b =>
    show (q.enqueue b).next.IndexTracks sure
    rcases h.enqueue (hc b (by simp [Call.blocks])) with ⟨-, hnext⟩ | ⟨-, hnext⟩
    · exact hnext.indexTracks ht
    · rw [hnext]
      exact ht
  | enqueueBatch new =>
    show (q.enqueueBatch new).next.IndexTracks sure
    rcases h.enqueueBatch new hc with ⟨-, hnext⟩ | ⟨-, hnext⟩
    · exact hnext.indexTracks ht
    · rw [hnext]
      exact ht
  | poll =>
    show q.poll.next.IndexTracks sure
    cases hcontents : q.contents with
    | nil =>
      rw [(BlockQueue.poll_of_contents_nil hcontents).2]
      exact ht
    | cons e rest =>
      cases e with
      | ok b =>
        -- the block leaves the front of the queue and the index at once
        obtain ⟨-, -, hrest, hindex⟩ := h.poll_block hcontents
        have ht' : q.index.Tracks (q.blocks.map Block.hash) sure := ht
        rw [blocks_of_contents_cons hcontents, ← hrest] at ht'
        unfold IndexTracks
        rw [hindex]
        exact ht'.remove
      | error e =>
        -- such an entry is damaged
        obtain ⟨damage, rfl⟩ := corruption_of_mem_contents (hcontents ▸ List.mem_cons_self)
        exact absurd (h.poll_damage hcontents).1 (hcalm rfl damage)
  | clear =>
    have hclear := Holds.clear q
    show q.clear.index.Tracks (q.clear.blocks.map Block.hash) sure
    rw [hclear.blocks_eq]
    exact hclear.index_counts.tracks sure
  | _ => exact ht

theorem Calm.indexTracks {q r : BlockQueue} {sure : BlockHash → Prop} (h : Calm q r)
    (hq : q.Placed) (ht : q.IndexTracks sure) : r.Placed ∧ r.IndexTracks sure := by
  induction h with
  | refl => exact ⟨hq, ht⟩
  | performed _ c hc hcalm ih => exact ⟨ih.1.perform c hc, ih.2.perform ih.1 c hc hcalm⟩

/-- **WHAT THE INDEX KNOWS AFTER DAMAGE.**  A poll meets a damaged entry, and then
come calls that meet none.  What the index has is queued, and so is what a filter
leaves out; a hash that the recount could tell is in the index exactly if a block
with it is queued, and lists of such hashes are filtered by what is queued.  A
recount that meets another damaged entry finds no hash at all. -/
theorem Tampered.index_after_damage {q later : BlockQueue} {damage : Damage} (h : Tampered q)
    (hpoll : q.poll.answer = .error (.corruption damage)) (hlater : Calm q.poll.next later) :
    (∀ k, later.contains k = true → ∃ b ∈ later.blocks, b.hash = k)
      ∧ (∀ ks, ∀ k ∈ ks, k ∉ later.filterExisting ks → ∃ b ∈ later.blocks, b.hash = k)
      ∧ (∀ k, Recounted q.poll.next k →
          (later.contains k = true ↔ ∃ b ∈ later.blocks, b.hash = k))
      ∧ (∀ ks, (∀ k ∈ ks, Recounted q.poll.next k) →
          later.filterExisting ks = ks.filter fun k => k ∉ later.blocks.map Block.hash)
      ∧ ∀ cause, .error cause ∈ q.poll.next.contents →
          (∀ k, q.poll.next.contains k = false) ∧ ∀ ks, q.poll.next.filterExisting ks = ks := by
  obtain ⟨rest, hcontents⟩ := h.placed.exists_front hpoll
  obtain ⟨-, hplaced, hrest, -, hlost⟩ := h.placed.poll_damage hcontents
  obtain ⟨-, ht⟩ := hlater.indexTracks hplaced (h.placed.indexTracks_poll hpoll)
  have hmem : ∀ k, later.contains k = true → ∃ b ∈ later.blocks, b.hash = k :=
    fun k hk => List.mem_map.mp (ht.mem_of_contains hk)
  refine ⟨hmem, ?_, ?_, ?_, ?_⟩
  · intro ks k hk hout
    refine hmem k (Decidable.by_contra fun hnot => hout ?_)
    have hfalse : later.index.contains k = false := Bool.eq_false_iff.mpr hnot
    exact List.mem_filter.mpr ⟨hk, by rw [hfalse]; rfl⟩
  · intro k hk
    exact (ht.contains_iff hk).trans List.mem_map
  · intro ks hks
    exact ht.missing_eq hks
  · intro cause hcause
    have hindex : q.poll.next.index = .empty := hlost cause (hrest ▸ hcause)
    refine ⟨fun k => ?_, fun ks => ?_⟩
    · show q.poll.next.index.contains k = false
      rw [hindex]
      rfl
    · show q.poll.next.index.missing ks = ks
      rw [hindex]
      exact List.filter_eq_self.mpr fun _ _ => rfl

/-- Three blocks in a line. -/
def firstThree : List Block :=
  [.linking 1 (.replicate 1) (.replicate 0), .linking 2 (.replicate 2) (.replicate 1),
    .linking 3 (.replicate 3) (.replicate 2)]

/-- A tree with these blocks. -/
def threeQueued : StoredQueue :=
  (StoredQueue.enqueueBatch ⟨.empty, .fresh, .empty, 10⟩ firstThree).next

/-- The first two of them were overwritten. -/
def twiceDamaged : BlockQueue :=
  (stored threeQueued).withTree
    ((threeQueued.tree.insert (Position.encode Span.middle) [0]).insert
      (Position.encode (Span.middle + 1)) [0])

theorem tampered_twiceDamaged : Tampered twiceDamaged := by
  have hempty : Tampered (stored ⟨.empty, .fresh, .empty, 10⟩) :=
    .intact (.opened (t := .empty) (fun _ he => (by cases he)) (openTree_empty 10))
  have hthree : Tampered (stored threeQueued) :=
    hempty.performed (.enqueueBatch firstThree) (by decide +kernel)
  exact hthree.overwritten (by decide +kernel)

/-- When the first of the damaged entries is taken, the recount meets the second,
and the index does not know the block that is queued behind it. -/
theorem contains_twiceDamaged :
    Tampered twiceDamaged
      ∧ twiceDamaged.poll.answer = .error (.corruption (.block .truncated))
      ∧ twiceDamaged.poll.next.blocks.map Block.hash = [.replicate 3]
      ∧ twiceDamaged.poll.next.contains (.replicate 3) = false
      ∧ twiceDamaged.poll.next.filterExisting [.replicate 1, .replicate 2, .replicate 3]
          = [.replicate 1, .replicate 2, .replicate 3] :=
  ⟨tampered_twiceDamaged, by decide +kernel, by decide +kernel, by decide +kernel,
    by decide +kernel⟩

/-- When the second is taken too, the recount goes through; then a block with an
equal hash is appended, and the first of the two leaves. -/
theorem index_after_damage_twiceDamaged :
    let q := twiceDamaged.poll.next
    let twin : Block := { Block.linking 3 (.replicate 3) (.replicate 2) with payload := [1] }
    let later := ((q.poll.next.perform (.enqueue twin)).2.perform .poll).2
    q.poll.answer = .error (.corruption (.block .truncated))
      ∧ Calm q.poll.next later ∧ Recounted q.poll.next (.replicate 3)
      ∧ (later.contains (.replicate 3) = true ↔ ∃ b ∈ later.blocks, b.hash = .replicate 3)
      ∧ later.contains (.replicate 3) = true := by
  intro q twin later
  have hq : Tampered q := tampered_twiceDamaged.performed .poll fun _ hb => (by cases hb)
  have hpoll : q.poll.answer = .error (.corruption (.block .truncated)) := by decide +kernel
  have hlater : Calm q.poll.next later := by
    refine .performed (.performed .refl _ (by decide +kernel) fun h => (by cases h)) _
      (fun _ hb => (by cases hb)) fun _ damage hdamage => ?_
    have hblock : (q.poll.next.perform (.enqueue twin)).2.poll.answer
        = .ok (.linking 3 (.replicate 3) (.replicate 2)) := by decide +kernel
    rw [hblock] at hdamage
    cases hdamage
  have hrecount : Recounted q.poll.next (.replicate 3) := Or.inl (by decide +kernel)
  exact ⟨hpoll, hlater, hrecount, (hq.index_after_damage hpoll hlater).2.2.1 _ hrecount,
    by decide +kernel⟩

end BlockSync.BlockQueue
