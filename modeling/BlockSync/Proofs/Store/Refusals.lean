/-
  BlockSync.Proofs.Store.Refusals
  ───────────────────────────────
  **A STORE THAT REFUSES HAS CHANGED NOTHING.**

  A call on a stored deque touches a tree, a remembered range and, in a queue, an
  index, and it can fail while it looks for room or while it reads values.  All of
  this comes before the first write, so a refusal leaves every part as it was.  Only
  a poll is different, which takes an entry whatever its value is.

  What a refusal says is as exact:

      no room       the range has fewer positions at that end than the call wants
      a bad value   the first one among those that are read, by its length

  Main results:

      mapM_decodeHash_eq_error       which value spoils a read
      answer_drainFront              a drain answers what a look at the front answers
      perform_eq_keySpaceExhausted   which calls find no room, in either store
      refused_unchanged              both stores, every call but a poll
-/
import BlockSync.Proofs.Store.BlockQueue.Refinement
import BlockSync.Proofs.Store.Occupancy

namespace BlockSync

/-! ## §1. What a refusal names. -/

/-- What spoils a sequence of reads is one of them. -/
theorem exists_of_mapM_error {ε α β : Type} {f : α → Except ε β} {e : ε} {xs : List α} :
    xs.mapM f = .error e → ∃ x ∈ xs, f x = .error e := by
  induction xs with
  | nil => intro h; cases h
  | cons x xs ih =>
    intro h
    rw [List.mapM_cons] at h
    cases hx : f x with
    | error cause =>
      rw [hx] at h
      cases h
      exact ⟨x, List.mem_cons_self, hx⟩
    | ok y =>
      cases hxs : xs.mapM f with
      | error cause =>
        rw [hx, hxs] at h
        cases h
        obtain ⟨z, hz, hfz⟩ := ih hxs
        exact ⟨z, List.mem_cons_of_mem x hz, hfz⟩
      | ok ys =>
        rw [hx, hxs] at h
        cases h

/-- A refused operation is told from one that went through by its answer. -/
theorem answered_eq_refused {α β : Type} {refused : StoreError → α} {f : β → α}
    {x : Except StoreError β} {e : StoreError}
    (hrefused : ∀ {d}, refused d = refused e → d = e) (hf : ∀ b, f b ≠ refused e) :
    answered refused f x = refused e ↔ x = .error e := by
  cases x with
  | ok b =>
    constructor
    · intro h
      exact absurd h (hf b)
    · intro h
      cases h
  | error d =>
    constructor
    · intro h
      exact congrArg Except.error (hrefused h)
    · intro h
      cases h
      rfl

/-- An operation that needs room, and has nothing else to fear, fails where there is
no room. -/
theorem answer_of_room {σ α : Type} {room : Except StoreError UInt64} {same : σ}
    {write : UInt64 → Reply σ α} {e : StoreError} (hwrite : ∀ p, (write p).answer ≠ .error e) :
    (match room with
      | .error cause => Reply.refuse cause same
      | .ok p => write p).answer = .error e ↔ room = .error e := by
  cases room with
  | error cause =>
    show Except.error cause = .error e ↔ Except.error cause = .error e
    rw [Except.error.injEq, Except.error.injEq]
  | ok p =>
    constructor
    · intro h
      exact absurd h (hwrite p)
    · intro h
      cases h

theorem Position.corruption_of_decode {key : Bytes} {e : StoreError} (h : decode key = .error e) :
    ∃ damage, e = .corruption damage := by
  unfold decode at h
  split at h
  · cases h
  · cases h
    exact ⟨_, rfl⟩

theorem StoredQueue.corruption_of_decodeBlock {value : Bytes} {e : StoreError}
    (h : decodeBlock value = .error e) : ∃ damage, e = .corruption damage := by
  unfold decodeBlock at h
  cases hv : Block.Binary.decode value with
  | error cause =>
    rw [hv] at h
    cases h
    exact ⟨_, rfl⟩
  | ok b =>
    rw [hv] at h
    cases h

namespace Span

theorem frontStart_eq_error {s : Span} {n : Nat} {e : StoreError} :
    s.frontStart n = .error e ↔ s.head.toNat < n ∧ e = .keySpaceExhausted := by
  unfold frontStart
  by_cases hroom : n ≤ s.head.toNat
  · rw [if_pos hroom]
    constructor
    · intro h
      cases h
    · intro h
      omega
  · rw [if_neg hroom, Except.error.injEq]
    constructor
    · intro h
      exact ⟨by omega, h.symm⟩
    · intro h
      exact h.2.symm

theorem backEnd_eq_error {s : Span} {n : Nat} {e : StoreError} :
    s.backEnd n = .error e ↔ UInt64.size - 1 - s.tail.toNat < n ∧ e = .keySpaceExhausted := by
  have hsize : UInt64.size = 2 ^ 64 := rfl
  have htail := s.tail.toNat_lt
  unfold backEnd
  by_cases hroom : s.tail.toNat + n < UInt64.size
  · rw [if_pos hroom]
    constructor
    · intro h
      cases h
    · intro h
      omega
  · rw [if_neg hroom, Except.error.injEq]
    constructor
    · intro h
      exact ⟨by omega, h.symm⟩
    · intro h
      exact h.2.symm

end Span

/-! ## §2. Values that are no hashes. -/

namespace StoredFrontier

/-- The first of the front values that is no hash, if there is one. -/
def spoilt (f : StoredFrontier) (n : Nat) : Option Bytes :=
  (f.tree.values.take n).find? fun v => (BlockHash.ofBytes? v).isNone

/-- **The first value that is no hash spoils a read**, and is named by its length. -/
theorem mapM_decodeHash_eq_error {e : StoreError} (vs : List Bytes) :
    vs.mapM decodeHash = .error e
      ↔ ∃ v, vs.find? (fun v => (BlockHash.ofBytes? v).isNone) = some v
        ∧ e = .corruption (.hashLength v.length) := by
  induction vs with
  | nil =>
    constructor
    · intro h
      cases h
    · rintro ⟨v, hv, -⟩
      cases hv
  | cons v vs ih =>
    rw [List.mapM_cons]
    cases hv : BlockHash.ofBytes? v with
    | none =>
      -- the read ends here, whatever follows
      have hfind : (v :: vs).find? (fun v => (BlockHash.ofBytes? v).isNone) = some v :=
        List.find?_cons_of_pos (by rw [hv]; rfl)
      have hdecode : decodeHash v = .error (.corruption (.hashLength v.length)) := by
        unfold decodeHash
        rw [hv]
      rw [hfind, hdecode]
      constructor
      · intro h
        cases h
        exact ⟨v, rfl, rfl⟩
      · rintro ⟨w, hw, rfl⟩
        cases hw
        rfl
    | some k =>
      have hfind : (v :: vs).find? (fun v => (BlockHash.ofBytes? v).isNone)
          = vs.find? fun v => (BlockHash.ofBytes? v).isNone :=
        List.find?_cons_of_neg (by rw [hv]; exact Bool.false_ne_true)
      have hdecode : decodeHash v = .ok k := by
        unfold decodeHash
        rw [hv]
      -- a hash in front of the others does not decide
      rw [hfind, hdecode, ← ih]
      cases vs.mapM decodeHash with
      | error cause => exact Iff.rfl
      | ok ks =>
        constructor
        · intro h
          cases h
        · intro h
          cases h

theorem corruption_of_decodeEntry {entry : Entry} {e : StoreError}
    (h : decodeEntry entry = .error e) : ∃ damage, e = .corruption damage := by
  unfold decodeEntry decodeHash at h
  split at h
  next k _ =>
    cases hkey : Position.decode entry.1 with
    | error cause =>
      rw [hkey] at h
      cases h
      exact Position.corruption_of_decode hkey
    | ok p =>
      rw [hkey] at h
      cases h
  next =>
    cases h
    exact ⟨_, rfl⟩

/-- Entries under positions are read as their values are. -/
theorem mapM_decodeEntry_entriesFrom (vs : List Bytes) :
    ∀ p, (Position.entriesFrom p vs).mapM decodeEntry
      = (vs.mapM decodeHash).map (positioned p) := by
  induction vs with
  | nil => intro p; rfl
  | cons v vs ih =>
    intro p
    unfold Position.entriesFrom decodeEntry
    rw [List.mapM_cons, List.mapM_cons]
    dsimp only
    cases decodeHash v with
    | error e => rfl
    | ok k =>
      rw [Position.decode_encode]
      show (do
        let ds ← (Position.entriesFrom (p + 1) vs).mapM decodeEntry
        pure ((k, p) :: ds)) = _
      rw [ih]
      cases vs.mapM decodeHash with
      | error e => rfl
      | ok ks => rfl

variable {f : StoredFrontier}

/-- **A drain answers what a look at the front answers**, be it hashes or damage. -/
theorem answer_drainFront {range : Span} (h : f.tree.Fills range f.tree.values) (n : Nat) :
    (f.drainFront n).answer = f.front n := by
  have htaken : f.tree.entries.take n
      = Position.entriesFrom range.head (f.tree.values.take n) := by
    rw [← Position.take_entriesFrom, ← h.entries]
  simp only [drainFront, front]
  rw [htaken, mapM_decodeEntry_entriesFrom]
  cases (f.tree.values.take n).mapM decodeHash with
  | error e => rfl
  | ok hs =>
    -- the last entry only says where the head moves to
    dsimp only [Except.map]
    rcases List.eq_nil_or_concat hs with rfl | ⟨ks, k, rfl⟩
    · rfl
    · rw [List.concat_eq_append, getLast?_positioned]
      exact congrArg Except.ok (map_fst_positioned _ _)

/-- A drain that is refused leaves all that was in its reach. -/
theorem drainFront_eq_refuse {n : Nat} {e : StoreError} :
    f.drainFront n = .refuse e f ↔ (f.drainFront n).answer = .error e := by
  constructor
  · intro h
    rw [h]
    rfl
  · intro h
    simp only [drainFront] at h ⊢
    cases htaken : (f.tree.entries.take n).mapM decodeEntry with
    | error cause =>
      rw [htaken] at h
      cases h
      rfl
    | ok decoded =>
      rw [htaken] at h
      dsimp only at h
      split at h
      · cases h
      · cases h

end StoredFrontier

/-! ## §3. A frontier, call after call. -/

namespace Frontier

/-- The positions that a call wants before the head of the range there is. -/
def Call.wantsBefore : Call → Nat
  | .pushFront _ => 1
  | .pushFrontBatch hs => hs.length
  | .returnBatch hs => hs.length
  | _ => 0

/-- The positions that a call wants behind the tail. -/
def Call.wantsBehind : Call → Nat
  | .pushBack _ => 1
  | _ => 0

/-- A refusal says what the operation behind a call failed with. -/
theorem refused_iff {β : Type} {g : β → Answer} {x : Except StoreError β} {e : StoreError}
    (hg : ∀ b, g b ≠ .refused e) : answered Answer.refused g x = .refused e ↔ x = .error e :=
  answered_eq_refused Answer.refused.inj hg

/-- **A refused call leaves a frontier as it was**, wherever the frontier lives and
whatever it has stored. -/
theorem next_perform_of_refused {f : Frontier} {c : Call} {e : StoreError}
    (h : (f.perform c).1 = .refused e) : (f.perform c).2 = f := by
  cases c with
  | reset k =>
    -- a reset finds its own room, so it is never refused
    change answered Answer.refused (fun _ => .done) (f.reset k).answer = _ at h
    rw [(Holds.reset f k).1] at h
    cases h
  | pushFront _ => exact next_pushFrontBatch_of_error ((refused_iff nofun).mp h)
  | pushFrontBatch _ => exact next_pushFrontBatch_of_error ((refused_iff nofun).mp h)
  | returnBatch _ => exact next_pushFrontBatch_of_error ((refused_iff nofun).mp h)
  | pushBack _ => exact next_pushBack_of_error ((refused_iff nofun).mp h)
  | drainFront _ => exact next_drainFront_of_error ((refused_iff nofun).mp h)
  | clear => cases h
  | _ => rfl

end Frontier

namespace StoredFrontier

variable {f : StoredFrontier}

/-- An empty batch is answered without a look at the room, and wants none. -/
theorem pushFrontBatch_eq_error {hs : List BlockHash} {e : StoreError} :
    (f.pushFrontBatch hs).answer = .error e
      ↔ f.span.head.toNat < hs.length ∧ e = .keySpaceExhausted := by
  unfold pushFrontBatch
  cases hs with
  | nil =>
    constructor
    · intro h
      cases h
    · intro h
      cases h.1
  | cons k ks =>
    rw [if_neg (by simp), ← Span.frontStart_eq_error]
    exact answer_of_room nofun

theorem pushBack_eq_error {k : BlockHash} {e : StoreError} :
    (f.pushBack k).answer = .error e
      ↔ UInt64.size - 1 - f.span.tail.toNat < 1 ∧ e = .keySpaceExhausted := by
  unfold pushBack
  rw [← Span.backEnd_eq_error]
  exact answer_of_room nofun

/-- Whoever only reads or takes can find damage, but does not run out of positions. -/
theorem drainFront_ne_keySpaceExhausted (n : Nat) :
    (f.drainFront n).answer ≠ .error .keySpaceExhausted := by
  intro h
  simp only [drainFront] at h
  cases htaken : (f.tree.entries.take n).mapM decodeEntry with
  | error cause =>
    rw [htaken] at h
    cases h
    obtain ⟨entry, -, hentry⟩ := exists_of_mapM_error htaken
    obtain ⟨damage, hdamage⟩ := corruption_of_decodeEntry hentry
    cases hdamage
  | ok decoded =>
    rw [htaken] at h
    dsimp only at h
    split at h
    · cases h
    · cases h

theorem front_ne_keySpaceExhausted (n : Nat) : f.front n ≠ .error .keySpaceExhausted := by
  intro h
  obtain ⟨v, -, hv⟩ := (mapM_decodeHash_eq_error _).mp h
  cases hv

theorem peek_ne_keySpaceExhausted : f.peek ≠ .error .keySpaceExhausted := by
  unfold peek decodeHash
  split
  · split
    · nofun
    · nofun
  · nofun

/-- **A frontier runs out of positions exactly if a call wants more of them at one
end than there are.** -/
theorem perform_eq_keySpaceExhausted {c : Frontier.Call} :
    ((Frontier.stored f).perform c).1 = .refused .keySpaceExhausted
      ↔ f.span.head.toNat < c.wantsBefore ∨ UInt64.size - 1 - f.span.tail.toNat < c.wantsBehind := by
  -- the inserts at the front differ in their hashes only
  have hfront : ∀ hs : List BlockHash,
      answered Frontier.Answer.refused (fun _ => .done) (f.pushFrontBatch hs).answer
          = .refused .keySpaceExhausted
        ↔ f.span.head.toNat < hs.length ∨ UInt64.size - 1 - f.span.tail.toNat < 0 := by
    intro hs
    rw [Frontier.refused_iff nofun, pushFrontBatch_eq_error]
    simp
  -- a call that wants no position fails for what it reads, or not at all
  have hreads : ∀ {β : Type} {g : β → Frontier.Answer} {x : Except StoreError β},
      (∀ b, g b ≠ .refused .keySpaceExhausted) → x ≠ .error .keySpaceExhausted →
      (answered Frontier.Answer.refused g x = .refused .keySpaceExhausted
        ↔ f.span.head.toNat < 0 ∨ UInt64.size - 1 - f.span.tail.toNat < 0) := by
    intro β g x hg hx
    rw [Frontier.refused_iff hg]
    simp [hx]
  cases c with
  | pushFront k => exact hfront [k]
  | pushFrontBatch hs => exact hfront hs
  | returnBatch hs => exact hfront hs
  | pushBack k =>
    show answered Frontier.Answer.refused (fun _ => .done) (f.pushBack k).answer = _ ↔ _ < 0 ∨ _ < 1
    rw [Frontier.refused_iff nofun, pushBack_eq_error]
    simp
  | drainFront n => exact hreads nofun (drainFront_ne_keySpaceExhausted n)
  | front n => exact hreads nofun (front_ne_keySpaceExhausted n)
  | peek => exact hreads nofun peek_ne_keySpaceExhausted
  | reset k =>
    -- a reset starts over, with room before the middle
    have hdone : ((Frontier.stored f).perform (.reset k)).1 = .done := rfl
    rw [hdone]
    simp [Frontier.Call.wantsBefore, Frontier.Call.wantsBehind]
  | _ => simp [Frontier.perform, Frontier.Call.wantsBefore, Frontier.Call.wantsBehind]

end StoredFrontier

/-! ## §4. A queue, call after call. -/

namespace BlockQueue

/-- The positions that a call wants behind the tail of a queue: of a bulk append
those for the blocks it keeps. -/
def wantsBehind (q : BlockQueue) : Call → Nat
  | .enqueue _ => 1
  | .enqueueBatch bs => Capacity.admissible q.capacity q.length bs.length
  | _ => 0

theorem refused_iff {β : Type} {g : β → Answer} {x : Except StoreError β} {e : StoreError}
    (hg : ∀ b, g b ≠ .refused e) : answered Answer.refused g x = .refused e ↔ x = .error e :=
  answered_eq_refused Answer.refused.inj hg

/-- **A refused call leaves a queue as it was, unless it is a poll.** -/
theorem next_perform_of_refused {q : BlockQueue} {c : Call} {e : StoreError} (hpoll : c ≠ .poll)
    (h : (q.perform c).1 = .refused e) : (q.perform c).2 = q := by
  cases c with
  | enqueue _ => exact next_enqueue_of_error ((refused_iff nofun).mp h)
  | enqueueBatch _ => exact next_enqueueBatch_of_error ((refused_iff nofun).mp h)
  | poll => exact absurd rfl hpoll
  | clear => cases h
  | _ => rfl

end BlockQueue

namespace StoredQueue

variable {q : StoredQueue}

theorem enqueue_eq_error {b : Block} {e : StoreError} :
    (q.enqueue b).answer = .error e
      ↔ UInt64.size - 1 - q.span.tail.toNat < 1 ∧ e = .keySpaceExhausted := by
  unfold enqueue
  rw [← Span.backEnd_eq_error]
  exact answer_of_room nofun

theorem enqueueBatch_eq_error {bs : List Block} {e : StoreError} :
    (q.enqueueBatch bs).answer = .error e
      ↔ UInt64.size - 1 - q.span.tail.toNat < Capacity.admissible q.capacity q.length bs.length
        ∧ e = .keySpaceExhausted := by
  unfold enqueueBatch
  rw [← Span.backEnd_eq_error]
  exact answer_of_room nofun

theorem decodeBlock_ne_keySpaceExhausted (value : Bytes) :
    decodeBlock value ≠ .error .keySpaceExhausted := by
  intro h
  obtain ⟨damage, hdamage⟩ := corruption_of_decodeBlock h
  cases hdamage

theorem peekBack_ne_keySpaceExhausted : q.peekBack ≠ .error .keySpaceExhausted := by
  unfold peekBack
  split
  · nofun
  next entry _ =>
    have hne := decodeBlock_ne_keySpaceExhausted entry.2
    cases hblock : decodeBlock entry.2 with
    | error cause =>
      rw [hblock] at hne
      intro h
      cases h
      exact hne rfl
    | ok b => nofun

theorem poll_ne_keySpaceExhausted : q.poll.answer ≠ .error .keySpaceExhausted := by
  unfold poll
  split
  · nofun
  next key value _ =>
    dsimp only
    split
    next cause hkey =>
      intro h
      obtain ⟨damage, rfl⟩ := Position.corruption_of_decode hkey
      cases h
    next position _ =>
      split
      · nofun
      next cause hblock =>
        -- a recount changes the index, and answers what the value was
        rw [answer_reindex, ← hblock]
        exact decodeBlock_ne_keySpaceExhausted value

/-- **A queue runs out of positions exactly if an append keeps more blocks than there
are positions behind its tail.** -/
theorem perform_eq_keySpaceExhausted {c : BlockQueue.Call} :
    ((BlockQueue.stored q).perform c).1 = .refused .keySpaceExhausted
      ↔ UInt64.size - 1 - q.span.tail.toNat < (BlockQueue.stored q).wantsBehind c := by
  cases c with
  | enqueue b =>
    show answered BlockQueue.Answer.refused (fun _ => .done) (q.enqueue b).answer = _ ↔ _ < 1
    rw [BlockQueue.refused_iff nofun, enqueue_eq_error]
    simp
  | enqueueBatch bs =>
    show answered BlockQueue.Answer.refused .kept (q.enqueueBatch bs).answer = _
      ↔ _ < Capacity.admissible q.capacity q.length bs.length
    rw [BlockQueue.refused_iff nofun, enqueueBatch_eq_error]
    simp
  | poll =>
    show answered BlockQueue.Answer.refused .block q.poll.answer = _ ↔ _ < 0
    rw [BlockQueue.refused_iff nofun]
    simp [poll_ne_keySpaceExhausted]
  | peekBack =>
    show answered BlockQueue.Answer.refused .last q.peekBack = _ ↔ _ < 0
    rw [BlockQueue.refused_iff nofun]
    simp [peekBack_ne_keySpaceExhausted]
  | _ => simp [BlockQueue.perform, BlockQueue.wantsBehind]

end StoredQueue

/-! ## §5. Both stores. -/

/-- **A STORE THAT REFUSES HAS CHANGED NOTHING, AND RUNS OUT OF POSITIONS ONLY WHEN IT
HAS TO.**  Whatever its tree, its range and its values are, a frontier is after every
refused call what it was before, and a queue is so after every refused call but a
poll.  There is no room exactly if a call wants more positions before the head or
behind the tail than the 64-bit key space has there.

If the keys are the positions of the range, a drain and a look at the front are
refused exactly if one of the values in reach is no hash, however many hashes there
are before it; the first of these values is named, and nothing is drained. -/
theorem refused_unchanged :
    (∀ {f : Frontier} {c : Frontier.Call} {e : StoreError},
        (f.perform c).1 = .refused e → (f.perform c).2 = f)
      ∧ (∀ {q : BlockQueue} {c : BlockQueue.Call} {e : StoreError}, c ≠ .poll →
        (q.perform c).1 = .refused e → (q.perform c).2 = q)
      ∧ (∀ (f : StoredFrontier) (c : Frontier.Call),
        ((Frontier.stored f).perform c).1 = .refused .keySpaceExhausted
          ↔ f.span.head.toNat < c.wantsBefore ∨ UInt64.size - 1 - f.span.tail.toNat < c.wantsBehind)
      ∧ (∀ (q : StoredQueue) (c : BlockQueue.Call),
        ((BlockQueue.stored q).perform c).1 = .refused .keySpaceExhausted
          ↔ UInt64.size - 1 - q.span.tail.toNat < (BlockQueue.stored q).wantsBehind c)
      ∧ ∀ {f : StoredFrontier}, f.tree.Occupies f.span → ∀ (n : Nat) (e : StoreError),
        (f.front n = .error e ↔ ∃ v, f.spoilt n = some v ∧ e = .corruption (.hashLength v.length))
          ∧ (f.drainFront n = .refuse e f
            ↔ ∃ v, f.spoilt n = some v ∧ e = .corruption (.hashLength v.length)) := by
  refine ⟨Frontier.next_perform_of_refused, BlockQueue.next_perform_of_refused,
    fun f c => StoredFrontier.perform_eq_keySpaceExhausted,
    fun q c => StoredQueue.perform_eq_keySpaceExhausted, ?_⟩
  intro f hrun n e
  obtain ⟨range, hfills⟩ := Tree.Fills.of_occupies hrun
  have hfront : f.front n = .error e
      ↔ ∃ v, f.spoilt n = some v ∧ e = .corruption (.hashLength v.length) :=
    StoredFrontier.mapM_decodeHash_eq_error _
  refine ⟨hfront, ?_⟩
  -- the drain is refused for what the look would have found
  rw [StoredFrontier.drainFront_eq_refuse, StoredFrontier.answer_drainFront hfills]
  exact hfront

theorem refused_unchanged_atTheEnds :
    ((Frontier.stored .grounded).perform (.pushFront (.replicate 9))).1
          = .refused .keySpaceExhausted
      ∧ ((Frontier.stored .grounded).perform (.pushFront (.replicate 9))).2 = .stored .grounded
      ∧ BlockQueue.Call.enqueue (.linking 2 (.replicate 2) (.replicate 1)) ≠ .poll
      ∧ ((BlockQueue.stored .brimful).perform
          (.enqueue (.linking 2 (.replicate 2) (.replicate 1)))).1 = .refused .keySpaceExhausted
      ∧ ((BlockQueue.stored .brimful).perform
          (.enqueue (.linking 2 (.replicate 2) (.replicate 1)))).2 = .stored .brimful
      ∧ StoredFrontier.grounded.tree.Occupies StoredFrontier.grounded.span
      ∧ StoredFrontier.grounded.drainFront 2
          = .refuse (.corruption (.hashLength 1)) StoredFrontier.grounded := by
  have hfrontier : StoredFrontier.grounded.tree.Fills StoredFrontier.grounded.span
      StoredFrontier.grounded.tree.values :=
    ⟨by decide +kernel, by decide +kernel, by decide +kernel⟩
  have hlow : ((Frontier.stored .grounded).perform (.pushFront (.replicate 9))).1
      = .refused .keySpaceExhausted := by
    rw [refused_unchanged.2.2.1]
    exact Or.inl (by decide +kernel)
  have hhigh : ((BlockQueue.stored .brimful).perform
      (.enqueue (.linking 2 (.replicate 2) (.replicate 1)))).1 = .refused .keySpaceExhausted := by
    rw [refused_unchanged.2.2.2.1]
    decide +kernel
  have hcall : BlockQueue.Call.enqueue (.linking 2 (.replicate 2) (.replicate 1)) ≠ .poll := nofun
  refine ⟨hlow, refused_unchanged.1 hlow, hcall, hhigh, refused_unchanged.2.1 hcall hhigh,
    hfrontier.occupies, ?_⟩
  rw [(refused_unchanged.2.2.2.2 hfrontier.occupies 2 _).2]
  exact ⟨[1], by decide +kernel, rfl⟩

end BlockSync
