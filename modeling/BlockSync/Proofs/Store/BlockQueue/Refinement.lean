/-
  BlockSync.Proofs.Store.BlockQueue.Refinement
  ────────────────────────────────────────────
  **EVERY QUEUE ANSWERS AS A LIST OF BLOCKS.**

  `listed` is the queue without any machinery: a list of blocks, a bound on bulk
  appends, and for each call its answer.  A queue that holds a list answers each
  call as the list does and then holds the list after the call
  (`Holds.perform`), and starting again changes nothing; so whole runs agree
  (`Holds.trace_eq`).  What lives in a tree and what lives in memory therefore
  answer alike, and nobody who only calls can tell them apart.
-/
import BlockSync.Proofs.Store.BlockQueue
import BlockSync.Proofs.Store.Service

namespace BlockSync.BlockQueue

/-! ## §1. Calls and answers. -/

/-- A call to a queue. -/
inductive Call where
  | enqueue (b : Block)
  | enqueueBatch (bs : List Block)
  | poll
  | peekBack
  | filterExisting (hs : List BlockHash)
  | contains (h : BlockHash)
  | length
  | isEmpty
  | clear
deriving DecidableEq

/-- The blocks that a call hands over. -/
def Call.blocks : Call → List Block
  | .enqueue b => [b]
  | .enqueueBatch bs => bs
  | _ => []

/-- What a call is answered. -/
inductive Answer where
  | done
  /-- How many blocks of a bulk append were kept. -/
  | kept (count : Nat)
  | block (b : Block)
  | last (b : Option Block)
  | hashes (hs : List BlockHash)
  | count (n : Nat)
  | flag (yes : Bool)
  | refused (e : StoreError)
  /-- The queue could not be opened again, so there is nothing left to call. -/
  | unopened (e : StoreError)
deriving DecidableEq

/-- The answer of a queue to a call, and the queue after it. -/
def perform (q : BlockQueue) : Call → Answer × BlockQueue
  | .enqueue b => (answered .refused (fun _ => .done) (q.enqueue b).answer, (q.enqueue b).next)
  | .enqueueBatch bs =>
    (answered .refused .kept (q.enqueueBatch bs).answer, (q.enqueueBatch bs).next)
  | .poll => (answered .refused .block q.poll.answer, q.poll.next)
  | .peekBack => (answered .refused .last q.peekBack, q)
  | .filterExisting hs => (.hashes (q.filterExisting hs), q)
  | .contains h => (.flag (q.contains h), q)
  | .length => (.count q.length, q)
  | .isEmpty => (.flag q.isEmpty, q)
  | .clear => (.done, q.clear)

/-- The answer of a list of blocks to a call, and the list after it. -/
def listed (capacity : Nat) (bs : List Block) : Call → Answer × List Block
  | .enqueue b => (.done, bs ++ [b])
  | .enqueueBatch new =>
    (.kept (min (capacity - bs.length) new.length), bs ++ new.take (capacity - bs.length))
  | .poll =>
    match bs with
    | [] => (.refused .emptyQueue, [])
    | b :: rest => (.block b, rest)
  | .peekBack => (.last bs.getLast?, bs)
  | .filterExisting hs => (.hashes (hs.filter fun h => h ∉ bs.map Block.hash), bs)
  | .contains h => (.flag (h ∈ bs.map Block.hash), bs)
  | .length => (.count bs.length, bs)
  | .isEmpty => (.flag bs.isEmpty, bs)
  | .clear => (.done, [])

/-! ## §2. One call. -/

@[simp] theorem capacity_perform (q : BlockQueue) (c : Call) :
    (q.perform c).2.capacity = q.capacity := by
  cases c <;> simp [perform]

theorem take_admissible (capacity length : Nat) (new : List Block) :
    new.take (Capacity.admissible capacity length new.length) = new.take (capacity - length) := by
  unfold Capacity.admissible
  rw [List.take_eq_take_iff]
  omega

/-- **A queue answers a call as the list it holds does**, or it has no room and is
left as it was. -/
theorem Holds.perform {q : BlockQueue} {bs : List Block} (h : q.Holds bs) (c : Call)
    (hc : ∀ b ∈ c.blocks, b.Storable) :
    ((q.perform c).1 = (listed q.capacity bs c).1
      ∧ (q.perform c).2.Holds (listed q.capacity bs c).2)
      ∨ ((q.perform c).1 = .refused .keySpaceExhausted ∧ (q.perform c).2 = q) := by
  cases c with
  | enqueue b =>
    rcases h.enqueue (hc b (by simp [Call.blocks])) with ⟨ha, hn⟩ | ⟨ha, hn⟩
    · exact Or.inl ⟨congrArg (answered Answer.refused fun _ => .done) ha, hn⟩
    · exact Or.inr ⟨congrArg (answered Answer.refused fun _ => .done) ha, hn⟩
  | enqueueBatch new =>
    rcases h.enqueueBatch hc with ⟨ha, hn⟩ | ⟨ha, hn⟩
    · rw [take_admissible] at hn
      exact Or.inl ⟨congrArg (answered Answer.refused .kept) ha, hn⟩
    · exact Or.inr ⟨congrArg (answered Answer.refused .kept) ha, hn⟩
  | poll =>
    left
    cases bs with
    | nil =>
      obtain ⟨ha, hn⟩ := h.poll_nil
      refine ⟨congrArg (answered Answer.refused .block) ha, ?_⟩
      show q.poll.next.Holds []
      rw [hn]
      exact h
    | cons b rest =>
      obtain ⟨ha, hn⟩ := h.poll_cons
      exact ⟨congrArg (answered Answer.refused .block) ha, hn⟩
  | peekBack => exact Or.inl ⟨congrArg (answered Answer.refused .last) h.peekBack_eq, h⟩
  | filterExisting hs => exact Or.inl ⟨congrArg Answer.hashes (h.index_counts.missing_eq hs), h⟩
  | contains k =>
    refine Or.inl ⟨congrArg Answer.flag ?_, h⟩
    rw [Bool.eq_iff_iff, decide_eq_true_iff]
    exact h.index_counts.contains_iff k
  | length => exact Or.inl ⟨congrArg Answer.count h.length_eq, h⟩
  | isEmpty =>
    refine Or.inl ⟨congrArg Answer.flag ?_, h⟩
    unfold isEmpty
    rw [h.length_eq]
    cases bs with
    | nil => rfl
    | cons b rest => rfl
  | clear => exact Or.inl ⟨rfl, Holds.clear q⟩

/-- A queue in memory never runs out of room, and stays in memory. -/
theorem perform_volatile (q : VolatileQueue) (c : Call) :
    ((volatile q).perform c).1 ≠ .refused .keySpaceExhausted
      ∧ ∃ next, ((volatile q).perform c).2 = volatile next := by
  cases c with
  | enqueue b => exact ⟨fun h => (by cases h), _, rfl⟩
  | enqueueBatch bs => exact ⟨fun h => (by cases h), _, rfl⟩
  | poll =>
    refine ⟨?_, _, rfl⟩
    show answered Answer.refused .block (VolatileQueue.poll q).answer ≠ _
    unfold VolatileQueue.poll
    split
    next => intro h; cases h
    next => intro h; cases h
  | peekBack => exact ⟨fun h => (by cases h), _, rfl⟩
  | filterExisting hs => exact ⟨fun h => (by cases h), _, rfl⟩
  | contains k => exact ⟨fun h => (by cases h), _, rfl⟩
  | length => exact ⟨fun h => (by cases h), _, rfl⟩
  | isEmpty => exact ⟨fun h => (by cases h), _, rfl⟩
  | clear => exact ⟨fun h => (by cases h), _, rfl⟩

/-! ## §3. Whole runs. -/

/-- A queue as a service. -/
def service : Service BlockQueue Call Answer := ⟨perform, reopen, .unopened⟩

/-- A list of blocks as a service that nothing can interrupt. -/
def listedService (capacity : Nat) : Service (List Block) Call Answer :=
  ⟨listed capacity, .ok, .unopened⟩

/-- **A queue answers as the list it holds does, start after start**, unless it
runs out of room. -/
theorem Holds.trace_eq {q : BlockQueue} {bs : List Block} (h : q.Holds bs)
    (steps : List (Step Call)) (hblocks : ∀ c ∈ Step.calls steps, ∀ b ∈ c.blocks, b.Storable)
    (hroom : .refused .keySpaceExhausted ∉ service.trace steps q) :
    service.trace steps q = (listedService q.capacity).trace steps bs := by
  -- the list depends on the capacity, which no call and no start changes
  refine Service.trace_eq (R := fun q' bs' => q'.Holds bs' ∧ q'.capacity = q.capacity)
    (fun c => ∀ b ∈ c.blocks, b.Storable) ?_ ?_ steps ⟨h, rfl⟩ hblocks hroom
  · intro q' bs' ⟨hq, hcap⟩ c hc
    rcases hq.perform c hc with ⟨ha, hn⟩ | ⟨ha, -⟩
    · rw [hcap] at ha hn
      exact Or.inl ⟨ha, hn, (capacity_perform q' c).trans hcap⟩
    · exact Or.inr ha
  · intro q' bs' ⟨hq, hcap⟩
    obtain ⟨next, hr, hn, hcap'⟩ := hq.reopen
    exact ⟨next, bs', hr, rfl, hn, hcap'.trans hcap⟩

theorem not_mem_trace_volatile (steps : List (Step Call)) (q : VolatileQueue) :
    .refused .keySpaceExhausted ∉ service.trace steps (volatile q) := by
  refine Service.not_mem_trace (P := fun q => ∃ v, q = volatile v) ?_ ?_ steps ⟨q, rfl⟩
  · rintro _ ⟨v, rfl⟩ c
    exact perform_volatile v c
  · rintro _ ⟨v, rfl⟩
    exact ⟨_, rfl, v, rfl⟩

theorem openTree_empty (capacity : Nat) :
    openTree .empty capacity
      = .ok (.stored ⟨.empty, .fresh, .empty, capacity⟩, [.openedQueue 0 capacity]) := by
  have hq : StoredQueue.recover .empty capacity = .ok ⟨.empty, .fresh, .empty, capacity⟩ := rfl
  have hlen : Span.fresh.length = 0 := Tree.Fills.empty.length
  unfold openTree
  rw [hq]
  show Except.ok (stored _, [Event.openedQueue Span.fresh.length capacity]) = _
  rw [hlen]

/-- **A QUEUE IN A TREE IS A QUEUE IN MEMORY THAT SURVIVES.**  Opened on an empty
tree, called in any way and started again at any moments, it gives the answers
that a queue in memory gives to the same calls, as long as it has not run out of
positions. -/
theorem trace_stored_eq_trace_volatile {capacity : Nat} {q : BlockQueue} {events : List Event}
    (steps : List (Step Call)) (hopen : openTree .empty capacity = .ok (q, events))
    (hblocks : ∀ c ∈ Step.calls steps, ∀ b ∈ c.blocks, b.Storable)
    (hroom : .refused .keySpaceExhausted ∉ service.trace steps q) :
    service.trace steps q = service.trace ((Step.calls steps).map .call) (.empty capacity) := by
  rw [openTree_empty] at hopen
  cases hopen
  have hstored : Holds (.stored ⟨.empty, .fresh, .empty, capacity⟩) [] :=
    StoredQueue.Holds.of_fills Tree.Fills.empty rfl HashIndex.Counts.empty
  have hvolatile := (Holds.empty capacity).trace_eq ((Step.calls steps).map .call)
    (by rw [Service.calls_map_call]; exact hblocks) (not_mem_trace_volatile _ _)
  calc
    service.trace steps (.stored ⟨.empty, .fresh, .empty, capacity⟩)
      = (listedService capacity).trace steps [] := hstored.trace_eq steps hblocks hroom
    _ = (listedService capacity).trace ((Step.calls steps).map .call) [] :=
        (Service.trace_calls (fun _ => rfl) steps []).symm
    _ = service.trace ((Step.calls steps).map .call) (.empty capacity) := hvolatile.symm

/-- Two single appends push a queue of capacity one above its bound; it starts
again there, and again once it is empty. -/
def overfullSteps : List (Step Call) :=
  let first : Block := .linking 1 (.replicate 1) (.replicate 0)
  let second : Block := { Block.linking 2 (.replicate 2) (.replicate 1) with payload := [7, 0] }
  [.call (.enqueue first), .call (.enqueue second), .restart,
    .call (.enqueueBatch [first]), .call (.filterExisting [.replicate 3, .replicate 2]),
    .call .poll, .call .peekBack, .restart, .call .poll, .call .poll, .restart,
    .call (.enqueueBatch [second, first]), .call .poll, .call .length]

theorem trace_overfullSteps :
    let q : BlockQueue := .stored ⟨.empty, .fresh, .empty, 1⟩
    openTree .empty 1 = .ok (q, [.openedQueue 0 1])
      ∧ (∀ c ∈ Step.calls overfullSteps, ∀ b ∈ c.blocks, b.Storable)
      ∧ .refused .keySpaceExhausted ∉ service.trace overfullSteps q
      ∧ service.trace overfullSteps q
          = service.trace ((Step.calls overfullSteps).map .call) (.empty 1) := by
  have hblocks : ∀ c ∈ Step.calls overfullSteps, ∀ b ∈ c.blocks, b.Storable := by
    decide +kernel
  have hroom : .refused .keySpaceExhausted
      ∉ service.trace overfullSteps (.stored ⟨.empty, .fresh, .empty, 1⟩) := by decide +kernel
  exact ⟨openTree_empty 1, hblocks, hroom,
    trace_stored_eq_trace_volatile overfullSteps (openTree_empty 1) hblocks hroom⟩

end BlockSync.BlockQueue
