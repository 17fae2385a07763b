/-
  BlockSync.Proofs.Sync.Pipeline
  ──────────────────────────────
  **WHAT THE IMPORTER CAN DO, AND WHAT IT LEAVES ALONE.**

  `Move` lists the moves of an importer: it starts, stops, wakes up, takes a
  block, finds none, or acts on a verdict.  Each step is one of them
  (`move_of_step`), so an invariant needs one case for each.

  Most of what a pipeline does around them has no part in the flow of blocks.
  `Keeps` says so: the chain, the block in the importer's hands and all earlier
  log lines stay.  What happens to the queue is then read off its own replies:

      queue_enqueue, queue_enqueueBatch    an append is the queue's append
      queue_settle_noParent                an orphan goes back by an append
      queue_settle                         nothing else goes back
-/
import BlockSync.Sync.Pipeline

namespace BlockSync.Pipeline

variable {σ : Type}

/-! ## §1. Operations on the queue, by what the queue replies. -/

section Replies

variable (p : Pipeline σ)

theorem onQueue_of_answer {α : Type} (op : BlockQueue → Reply BlockQueue α)
    {a : Except StoreError α} (h : (op p.queue).answer = a) :
    p.onQueue op = (a, (p.onQueue op).2) :=
  congrArg (·, (p.onQueue op).2) h

theorem enqueue_of_ok {b : Block} (h : (p.queue.enqueue b).answer = .ok ()) :
    p.enqueue b = (.ok (), (p.onQueue (·.enqueue b)).2.ring) := by
  unfold enqueue
  rw [p.onQueue_of_answer _ h]

theorem enqueue_of_error {b : Block} {e : StoreError}
    (h : (p.queue.enqueue b).answer = .error e) :
    p.enqueue b = (.error e, (p.onQueue (·.enqueue b)).2) := by
  unfold enqueue
  rw [p.onQueue_of_answer _ h]

theorem enqueueBatch_of_ok {bs : List Block} {kept : Nat}
    (h : (p.queue.enqueueBatch bs).answer = .ok kept) :
    p.enqueueBatch bs = (.ok kept, if kept > 0 then (p.onQueue (·.enqueueBatch bs)).2.ring
      else (p.onQueue (·.enqueueBatch bs)).2) := by
  unfold enqueueBatch
  rw [p.onQueue_of_answer _ h]

theorem enqueueBatch_of_error {bs : List Block} {e : StoreError}
    (h : (p.queue.enqueueBatch bs).answer = .error e) :
    p.enqueueBatch bs = (.error e, (p.onQueue (·.enqueueBatch bs)).2) := by
  unfold enqueueBatch
  rw [p.onQueue_of_answer _ h]

theorem take_of_ok (C : Chain σ) {b : Block} (h : p.queue.poll.answer = .ok b) :
    p.take C = ((p.onQueue BlockQueue.poll).2.beginImport C b).goTo (.importing b p.clock) := by
  unfold take
  rw [p.onQueue_of_answer _ h]
  rfl

theorem take_of_empty (C : Chain σ) (h : p.queue.poll.answer = .error .emptyQueue) :
    p.take C = (p.onQueue BlockQueue.poll).2.goTo .asleep := by
  unfold take
  rw [p.onQueue_of_answer _ h]

theorem take_of_error (C : Chain σ) {e : StoreError} (he : e ≠ .emptyQueue)
    (h : p.queue.poll.answer = .error e) :
    p.take C = ((p.onQueue BlockQueue.poll).2.log [.takeFailed e]).pause := by
  unfold take
  rw [p.onQueue_of_answer _ h]
  cases e with
  | emptyQueue => exact absurd rfl he
  | _ => rfl

/-- Whatever is found, only the queue, the log and the phase change, and the chain is
handed a block at most. -/
theorem exists_take_eq (C : Chain σ) :
    ∃ queue chain journal phase, p.take C = { p with
        queue := queue
        chain := chain
        journal := journal
        importer := { p.importer with phase := phase } }
      ∧ (chain = p.chain ∨ ∃ b, chain = C.receive p.chain b) := by
  cases hanswer : p.queue.poll.answer with
  | ok b =>
    rw [p.take_of_ok C hanswer]
    exact ⟨_, _, _, _, rfl, Or.inr ⟨b, rfl⟩⟩
  | error e =>
    by_cases he : e = .emptyQueue
    · subst he
      rw [p.take_of_empty C hanswer]
      exact ⟨_, _, _, _, rfl, Or.inl rfl⟩
    · rw [p.take_of_error C he hanswer]
      exact ⟨_, _, _, _, rfl, Or.inl rfl⟩

end Replies

/-! ## §2. What stays. -/

/-- The state of life moves on, or the log says why not. -/
theorem exists_moveTo_eq (p : Pipeline σ) (target : Lifecycle) :
    ∃ life events, p.moveTo target = { p.log events with lifecycle := life } := by
  unfold moveTo
  split
  · exact ⟨p.lifecycle, [], rfl⟩
  · split
    · exact ⟨target, [], rfl⟩
    · exact ⟨p.lifecycle, _, rfl⟩

theorem inFlight_of_importing {i : Importer} {b : Block} {since : Nat}
    (h : i.phase = .importing b since) : i.inFlight = [b] := by
  unfold Importer.inFlight
  rw [h]

theorem inFlight_of_resting {i : Importer} (h : ∀ b since, i.phase ≠ .importing b since) :
    i.inFlight = [] := by
  unfold Importer.inFlight
  split
  next b since hphase => exact absurd hphase (h b since)
  next => rfl

theorem resting_or_importing (i : Importer) :
    i.inFlight = [] ∨ ∃ b since, i.phase = .importing b since := by
  by_cases h : ∃ b since, i.phase = .importing b since
  · exact Or.inr h
  · exact Or.inl (inFlight_of_resting fun b since hphase => h ⟨b, since, hphase⟩)

theorem hasEnded_iff {p : Pipeline σ} : p.hasEnded = true ↔ p.importer.phase = .ended := by
  unfold hasEnded
  split
  next hphase => exact ⟨fun _ => hphase, fun _ => rfl⟩
  next hphase => exact ⟨fun h => (by cases h), fun h => absurd h hphase⟩

/-- Out of its loop an importer has nothing in its hands. -/
theorem inFlight_of_hasEnded {p : Pipeline σ} (h : p.hasEnded = true) :
    p.importer.inFlight = [] :=
  inFlight_of_resting (by simp [hasEnded_iff.mp h])

theorem step_of_hasEnded {C : Chain σ} {p : Pipeline σ} (h : p.hasEnded = true) :
    p.step C = none := by
  unfold step
  rw [hasEnded_iff.mp h]

/-- What a queue has to log: that it dropped blocks, or that it lost its index. -/
inductive FromQueue : Event → Prop where
  | droppedExcess (kept dropped capacity : Nat) :
      FromQueue (.droppedExcess kept dropped capacity)
  | indexLost (cause : StoreError) : FromQueue (.indexLost cause)

theorem fromQueue_of_mem_enqueue {q : BlockQueue} {b : Block} {e : Event}
    (h : e ∈ (q.enqueue b).events) : FromQueue e := by
  cases q with
  | volatile q => cases h
  | stored q =>
    change e ∈ (StoredQueue.enqueue q b).events at h
    unfold StoredQueue.enqueue at h
    split at h
    next => cases h
    next => cases h

theorem fromQueue_of_mem_dropEvents {kept incoming capacity : Nat} {e : Event}
    (h : e ∈ Capacity.dropEvents kept incoming capacity) : FromQueue e := by
  unfold Capacity.dropEvents at h
  split at h
  next =>
    rw [List.mem_singleton.mp h]
    exact .droppedExcess _ _ _
  next => cases h

theorem fromQueue_of_mem_enqueueBatch {q : BlockQueue} {bs : List Block} {e : Event}
    (h : e ∈ (q.enqueueBatch bs).events) : FromQueue e := by
  cases q with
  | volatile q => exact fromQueue_of_mem_dropEvents h
  | stored q =>
    change e ∈ (StoredQueue.enqueueBatch q bs).events at h
    simp only [StoredQueue.enqueueBatch] at h
    split at h
    next => cases h
    next => exact fromQueue_of_mem_dropEvents h

theorem fromQueue_of_mem_poll {q : BlockQueue} {e : Event} (h : e ∈ q.poll.events) :
    FromQueue e := by
  cases q with
  | volatile q =>
    change e ∈ (VolatileQueue.poll q).events at h
    unfold VolatileQueue.poll at h
    split at h
    next => cases h
    next => cases h
  | stored q =>
    change e ∈ (StoredQueue.poll q).events at h
    unfold StoredQueue.poll at h
    split at h
    next => cases h
    next =>
      dsimp only at h
      split at h
      next => cases h
      next =>
        split at h
        next => cases h
        next =>
          unfold StoredQueue.reindex at h
          split at h
          next => cases h
          next =>
            rw [List.mem_singleton.mp h]
            exact .indexLost _

/-- What a queue logs has nothing to do with calls to close. -/
theorem closed_notMem_enqueue (q : BlockQueue) (b : Block) : .closed ∉ (q.enqueue b).events :=
  fun h => nomatch fromQueue_of_mem_enqueue h

theorem closed_notMem_enqueueBatch (q : BlockQueue) (bs : List Block) :
    .closed ∉ (q.enqueueBatch bs).events :=
  fun h => nomatch fromQueue_of_mem_enqueueBatch h

theorem closed_notMem_poll (q : BlockQueue) : .closed ∉ q.poll.events :=
  fun h => nomatch fromQueue_of_mem_poll h

/-- How often a call to close has come to its end. -/
def closings (p : Pipeline σ) : Nat := p.journal.count .closed

theorem closings_log (p : Pipeline σ) {events : List Event} (h : .closed ∉ events) :
    (p.log events).closings = p.closings := by
  show (events.reverse ++ p.journal).count .closed = _
  rw [List.count_append, List.count_reverse, List.count_eq_zero.mpr h, Nat.zero_add]
  rfl

/-- All that happens to the importer is that it may be woken: the chain, the state
of life and the calls to close are left alone, and the log only grows. -/
structure Nudges (p q : Pipeline σ) : Prop where
  chain : q.chain = p.chain
  lifecycle : q.lifecycle = p.lifecycle
  importer : q.importer = p.importer
    ∨ p.importer.phase = .asleep ∧ q.importer = { p.importer with phase := .ready }
  journal : p.journal <:+ q.journal
  closings : q.closings = p.closings

namespace Nudges

variable {p q r : Pipeline σ}

theorem refl (p : Pipeline σ) : Nudges p p := ⟨rfl, rfl, Or.inl rfl, List.suffix_refl _, rfl⟩

theorem trans (h : Nudges p q) (h' : Nudges q r) : Nudges p r := by
  refine ⟨h'.chain.trans h.chain, h'.lifecycle.trans h.lifecycle, ?_,
    h.journal.trans h'.journal, h'.closings.trans h.closings⟩
  rcases h.importer, h'.importer with ⟨hq | ⟨hasleep, hq⟩, hr | ⟨hasleep', hr⟩⟩
  · exact Or.inl (hr.trans hq)
  · rw [hq] at hasleep' hr
    exact Or.inr ⟨hasleep', hr⟩
  · exact Or.inr ⟨hasleep, hr.trans hq⟩
  · -- who has been woken does not sleep
    rw [hq] at hasleep'
    cases hasleep'

theorem log (p : Pipeline σ) {events : List Event} (h : .closed ∉ events) :
    Nudges p (p.log events) :=
  ⟨rfl, rfl, Or.inl rfl, List.suffix_append _ _, p.closings_log h⟩

theorem measure (p : Pipeline σ) (f : Metrics → Metrics) : Nudges p (p.measure f) :=
  ⟨rfl, rfl, Or.inl rfl, List.suffix_refl _, rfl⟩

theorem ring (p : Pipeline σ) : Nudges p p.ring := by
  unfold Pipeline.ring
  split
  next hphase => exact ⟨rfl, rfl, Or.inr ⟨hphase, rfl⟩, List.suffix_refl _, rfl⟩
  next => exact refl p

theorem onQueue {α : Type} (p : Pipeline σ) (op : BlockQueue → Reply BlockQueue α)
    (h : .closed ∉ (op p.queue).events) : Nudges p (p.onQueue op).2 :=
  ⟨rfl, rfl, Or.inl rfl, List.suffix_append _ _, p.closings_log h⟩

theorem enqueue (p : Pipeline σ) (b : Block) : Nudges p (p.enqueue b).2 := by
  have hreply := onQueue p (·.enqueue b) (closed_notMem_enqueue p.queue b)
  cases h : (p.queue.enqueue b).answer with
  | ok u =>
    rw [p.enqueue_of_ok h]
    exact hreply.trans (ring _)
  | error e =>
    rw [p.enqueue_of_error h]
    exact hreply

theorem enqueueBatch (p : Pipeline σ) (bs : List Block) : Nudges p (p.enqueueBatch bs).2 := by
  have hreply := onQueue p (·.enqueueBatch bs) (closed_notMem_enqueueBatch p.queue bs)
  cases h : (p.queue.enqueueBatch bs).answer with
  | ok kept =>
    rw [p.enqueueBatch_of_ok h]
    show Nudges p (if kept > 0 then _ else _)
    split
    · exact hreply.trans (ring _)
    · exact hreply
  | error e =>
    rw [p.enqueueBatch_of_error h]
    exact hreply

theorem requeue (p : Pipeline σ) (b : Block) : Nudges p (p.requeue b) := by
  have happend := enqueue p b
  unfold Pipeline.requeue
  split
  next heq =>
    rw [heq] at happend
    exact happend
  next heq =>
    rw [heq] at happend
    exact happend.trans (log _ (by simp))

theorem settleOutcome (p : Pipeline σ) (b : Block) (o : Outcome) :
    Nudges p (p.settleOutcome b o) := by
  have hcount := measure p fun m => m.countOutcome o.name
  cases o with
  | noParent =>
    exact hcount.trans ((log _ (by simp)).trans ((requeue _ b).trans (measure _ _)))
  | _ => exact hcount.trans ((log _ (by simp)).trans (measure _ _))

theorem settle (p : Pipeline σ) (b : Block) (elapsed : Nat) (v : Verdict) :
    Nudges p (p.settle b elapsed v) := by
  -- the time is measured first, whatever the verdict
  have htime := measure p fun m => m.observe (Float.ofNat elapsed / 1000)
  cases v with
  | outcome o => exact htime.trans (settleOutcome _ b o)
  | failed message => exact htime.trans ((log _ (by simp)).trans (measure _ _))
  | crashed payload => exact htime.trans ((log _ (by simp)).trans (measure _ _))

theorem stopSignalled (h : Nudges p q) : q.importer.stopSignalled = p.importer.stopSignalled := by
  rcases h.importer with hq | ⟨-, hq⟩
  · rw [hq]
  · rw [hq]

theorem backoff (h : Nudges p q) : q.importer.backoff = p.importer.backoff := by
  rcases h.importer with hq | ⟨-, hq⟩
  · rw [hq]
  · rw [hq]

theorem hasEnded (h : Nudges p q) : q.hasEnded = p.hasEnded := by
  unfold Pipeline.hasEnded
  rcases h.importer with hq | ⟨hasleep, hq⟩
  · rw [hq]
  · rw [hq, hasleep]

theorem inFlight (h : Nudges p q) : q.importer.inFlight = p.importer.inFlight := by
  rcases h.importer with hq | ⟨hasleep, hq⟩
  · rw [hq]
  · rw [hq, inFlight_of_resting (i := p.importer) (by simp [hasleep])]
    rfl

end Nudges

/-- The chain, the block in flight and the log so far are left alone. -/
structure Keeps (p q : Pipeline σ) : Prop where
  chain : q.chain = p.chain
  inFlight : q.importer.inFlight = p.importer.inFlight
  journal : p.journal <:+ q.journal

namespace Keeps

variable {p q r : Pipeline σ}

theorem refl (p : Pipeline σ) : Keeps p p := ⟨rfl, rfl, List.suffix_refl _⟩

theorem trans (h : Keeps p q) (h' : Keeps q r) : Keeps p r :=
  ⟨h'.chain.trans h.chain, h'.inFlight.trans h.inFlight, h.journal.trans h'.journal⟩

theorem log (p : Pipeline σ) (events : List Event) : Keeps p (p.log events) :=
  ⟨rfl, rfl, List.suffix_append _ _⟩

theorem moveTo (p : Pipeline σ) (target : Lifecycle) : Keeps p (p.moveTo target) := by
  obtain ⟨life, events, hmove⟩ := p.exists_moveTo_eq target
  rw [hmove]
  exact ⟨rfl, rfl, List.suffix_append _ _⟩

/-- Between phases in which no block is in flight. -/
theorem goTo {p : Pipeline σ} {phase : Phase} (hfrom : p.importer.inFlight = [])
    (hto : ∀ b since, phase ≠ .importing b since) : Keeps p (p.goTo phase) :=
  ⟨rfl, (inFlight_of_resting (i := (p.goTo phase).importer) hto).trans hfrom.symm,
    List.suffix_refl _⟩

theorem stop {p : Pipeline σ} (hfrom : p.importer.inFlight = []) : Keeps p p.stop := by
  have hmove := (moveTo p .stopped).trans (log _ [.importerStopped])
  exact hmove.trans (goTo (hmove.inFlight.trans hfrom) (by simp))

theorem onQueue {α : Type} (p : Pipeline σ) (op : BlockQueue → Reply BlockQueue α) :
    Keeps p (p.onQueue op).2 :=
  ⟨rfl, rfl, List.suffix_append _ _⟩

theorem of_nudges (h : Nudges p q) : Keeps p q := ⟨h.chain, h.inFlight, h.journal⟩

theorem enqueue (p : Pipeline σ) (b : Block) : Keeps p (p.enqueue b).2 :=
  of_nudges (.enqueue p b)

theorem enqueueBatch (p : Pipeline σ) (bs : List Block) : Keeps p (p.enqueueBatch bs).2 :=
  of_nudges (.enqueueBatch p bs)

theorem settle (p : Pipeline σ) (b : Block) (elapsed : Nat) (v : Verdict) :
    Keeps p (p.settle b elapsed v) :=
  of_nudges (.settle p b elapsed v)

end Keeps

/-! ## §3. What becomes of the queue. -/

section Queues

variable (p : Pipeline σ)

theorem queue_moveTo (target : Lifecycle) : (p.moveTo target).queue = p.queue := by
  obtain ⟨life, events, hmove⟩ := p.exists_moveTo_eq target
  rw [hmove]
  rfl

theorem queue_ring : p.ring.queue = p.queue := by
  unfold ring
  split
  · rfl
  · rfl

theorem queue_enqueue (b : Block) : (p.enqueue b).2.queue = (p.queue.enqueue b).next := by
  cases h : (p.queue.enqueue b).answer with
  | ok u =>
    rw [p.enqueue_of_ok h]
    exact queue_ring _
  | error e => rw [p.enqueue_of_error h]; rfl

theorem queue_enqueueBatch (bs : List Block) :
    (p.enqueueBatch bs).2.queue = (p.queue.enqueueBatch bs).next := by
  cases h : (p.queue.enqueueBatch bs).answer with
  | ok kept =>
    rw [p.enqueueBatch_of_ok h]
    show (if kept > 0 then _ else _ : Pipeline σ).queue = _
    split
    · exact queue_ring _
    · rfl
  | error e => rw [p.enqueueBatch_of_error h]; rfl

theorem queue_requeue (b : Block) : (p.requeue b).queue = (p.queue.enqueue b).next := by
  rw [← p.queue_enqueue b]
  unfold requeue
  split
  next heq => rw [heq]
  next heq => rw [heq]; rfl

/-- A block without parent goes back by an append. -/
theorem queue_settle_noParent (b : Block) (elapsed : Nat) :
    (p.settle b elapsed (.outcome .noParent)).queue = (p.queue.enqueue b).next :=
  queue_requeue _ b

/-- No other verdict touches the queue. -/
theorem queue_settle (b : Block) (elapsed : Nat) {v : Verdict} (hv : v ≠ .outcome .noParent) :
    (p.settle b elapsed v).queue = p.queue := by
  cases v with
  | outcome o =>
    cases o with
    | noParent => exact absurd rfl hv
    | _ => rfl
  | failed message => rfl
  | crashed payload => rfl

/-- An append that fails on the way back is logged, after all that was logged before. -/
theorem exists_journal_settle_noParent {b : Block} {e : StoreError} (elapsed : Nat)
    (h : (p.queue.enqueue b).answer = .error e) :
    ∃ earlier, (p.settle b elapsed (.outcome .noParent)).journal
        = .requeueFailed b.number e :: earlier
      ∧ p.journal <:+ earlier := by
  -- the pipeline that the append meets
  let q := ((p.measure fun m => m.observe (Float.ofNat elapsed / 1000)).measure fun m =>
    m.countOutcome Outcome.noParent.name).log [.parentUnknown b.number]
  show ∃ earlier, (q.requeue b).journal = _ ∧ _
  unfold requeue
  rw [q.enqueue_of_error h]
  exact ⟨_, rfl, (List.suffix_cons _ _).trans (List.suffix_append _ _)⟩

theorem mem_journal_settle_noParent {b : Block} {e : StoreError} (elapsed : Nat)
    (h : (p.queue.enqueue b).answer = .error e) :
    .requeueFailed b.number e ∈ (p.settle b elapsed (.outcome .noParent)).journal := by
  obtain ⟨earlier, hjournal, -⟩ := p.exists_journal_settle_noParent elapsed h
  rw [hjournal]
  exact List.mem_cons_self

end Queues

/-! ## §4. The moves of an importer. -/

/-- What follows a verdict: the importer acts on it, and pauses after a block
without parent. -/
def finish (p : Pipeline σ) (b : Block) (since : Nat) (v : Verdict) : Pipeline σ :=
  match v with
  | .outcome .noParent => (p.settle b (p.clock - since) v).pause
  | _ => (p.settle b (p.clock - since) v).goTo .ready

/-- After a verdict the importer has no block in flight. -/
theorem finish_eq_goTo (p : Pipeline σ) (b : Block) (since : Nat) (v : Verdict) :
    ∃ phase : Phase, (∀ d t, phase ≠ .importing d t)
      ∧ p.finish b since v = (p.settle b (p.clock - since) v).goTo phase := by
  cases v with
  | outcome o =>
    cases o with
    | noParent => exact ⟨_, fun _ _ h => (by cases h), rfl⟩
    | _ => exact ⟨.ready, fun _ _ h => (by cases h), rfl⟩
  | _ => exact ⟨.ready, fun _ _ h => (by cases h), rfl⟩

section Finish

variable (p : Pipeline σ) (b : Block) (since : Nat) (v : Verdict)

theorem queue_finish : (p.finish b since v).queue = (p.settle b (p.clock - since) v).queue := by
  obtain ⟨phase, -, hfinish⟩ := p.finish_eq_goTo b since v
  rw [hfinish]
  rfl

theorem chain_finish : (p.finish b since v).chain = p.chain := by
  obtain ⟨phase, -, hfinish⟩ := p.finish_eq_goTo b since v
  rw [hfinish]
  exact (Keeps.settle p b (p.clock - since) v).chain

theorem journal_finish :
    (p.finish b since v).journal = (p.settle b (p.clock - since) v).journal := by
  obtain ⟨phase, -, hfinish⟩ := p.finish_eq_goTo b since v
  rw [hfinish]
  rfl

theorem inFlight_finish : (p.finish b since v).importer.inFlight = [] := by
  obtain ⟨phase, hrest, hfinish⟩ := p.finish_eq_goTo b since v
  rw [hfinish]
  exact inFlight_of_resting hrest

theorem stopSignalled_finish :
    (p.finish b since v).importer.stopSignalled = p.importer.stopSignalled := by
  obtain ⟨phase, -, hfinish⟩ := p.finish_eq_goTo b since v
  rw [hfinish]
  exact (Nudges.settle p b (p.clock - since) v).stopSignalled

theorem lifecycle_finish : (p.finish b since v).lifecycle = p.lifecycle := by
  obtain ⟨phase, -, hfinish⟩ := p.finish_eq_goTo b since v
  rw [hfinish]
  exact (Nudges.settle p b (p.clock - since) v).lifecycle

theorem closings_finish : (p.finish b since v).closings = p.closings := by
  obtain ⟨phase, -, hfinish⟩ := p.finish_eq_goTo b since v
  rw [hfinish]
  exact (Nudges.settle p b (p.clock - since) v).closings

end Finish

/-- The moves of an importer, with the pipelines they lead to. -/
inductive Move (C : Chain σ) (p : Pipeline σ) : Pipeline σ → Prop where
  | started (hphase : p.importer.phase = .unstarted) :
      Move C p ((p.log [.importerStarted p.importer.backoff]).goTo .ready)
  | stopped (hrest : p.importer.inFlight = []) (hstop : p.importer.stopSignalled = true) :
      Move C p p.stop
  | took (hphase : p.importer.phase = .ready) (hstop : p.importer.stopSignalled = false) :
      Move C p (p.take C)
  | finished {b : Block} {since : Nat} {v : Verdict} {chain : σ}
      (hphase : p.importer.phase = .importing b since)
      (hchain : C.conclude p.chain b = some (v, chain)) :
      Move C p ({ p with chain := chain }.finish b since v)
  | woke {wakeAt : Nat} (hphase : p.importer.phase = .pausing wakeAt) (hdue : wakeAt ≤ p.clock) :
      Move C p (p.goTo .ready)

/-- **Every step is one of the moves.** -/
theorem move_of_step {C : Chain σ} {p q : Pipeline σ} (h : p.step C = some q) : Move C p q := by
  unfold step at h
  split at h
  next hphase =>
    cases h
    exact .started hphase
  next hphase =>
    cases h
    split
    next hstop => exact .stopped (inFlight_of_resting (by simp [hphase])) hstop
    next hstop => exact .took hphase (Bool.eq_false_iff.mpr hstop)
  next hphase =>
    split at h
    next hstop =>
      cases h
      exact .stopped (inFlight_of_resting (by simp [hphase])) hstop
    next => cases h
  next b since hphase =>
    obtain ⟨⟨v, chain⟩, hchain, hq⟩ := Option.map_eq_some_iff.mp h
    subst hq
    exact .finished hphase hchain
  next wakeAt hphase =>
    split at h
    next hstop =>
      cases h
      exact .stopped (inFlight_of_resting (by simp [hphase])) hstop
    next =>
      split at h
      next hdue =>
        cases h
        exact .woke hphase hdue
      next => cases h
  next => cases h

section Steps

variable {C : Chain σ} {p : Pipeline σ}

theorem step_of_unstarted (hphase : p.importer.phase = .unstarted) :
    p.step C = some ((p.log [.importerStarted p.importer.backoff]).goTo .ready) := by
  unfold step
  rw [hphase]

theorem step_of_ready (hphase : p.importer.phase = .ready)
    (hstop : p.importer.stopSignalled = false) : p.step C = some (p.take C) := by
  unfold step
  rw [hphase]
  dsimp only
  rw [hstop]
  rfl

theorem step_of_importing {b : Block} {since : Nat} {v : Verdict} {chain : σ}
    (hphase : p.importer.phase = .importing b since)
    (hchain : C.conclude p.chain b = some (v, chain)) :
    p.step C = some ({ p with chain := chain }.finish b since v) := by
  unfold step
  rw [hphase]
  dsimp only
  rw [hchain]
  rfl

theorem step_of_pausing {wakeAt : Nat} (hphase : p.importer.phase = .pausing wakeAt)
    (hstop : p.importer.stopSignalled = false) (hdue : wakeAt ≤ p.clock) :
    p.step C = some (p.goTo .ready) := by
  unfold step
  rw [hphase]
  dsimp only
  rw [hstop, if_neg Bool.false_ne_true, if_pos hdue]

/-- An importer in its loop that nobody stops is asleep, or can go on, perhaps after a while,
or its chain has not ended the attempt. -/
theorem asleep_or_step (hrunning : p.importer.stopSignalled = false)
    (hinLoop : p.importer.phase ≠ .ended) :
    p.importer.phase = .asleep
      ∨ (∃ ms, ((p.wait ms).step C).isSome)
      ∨ ∃ b since, p.importer.phase = .importing b since ∧ C.conclude p.chain b = none := by
  cases hphase : p.importer.phase with
  | asleep => exact Or.inl rfl
  | ended => exact absurd hphase hinLoop
  | unstarted =>
    refine Or.inr (Or.inl ⟨0, ?_⟩)
    rw [step_of_unstarted (p := p.wait 0) hphase]
    rfl
  | ready =>
    refine Or.inr (Or.inl ⟨0, ?_⟩)
    rw [step_of_ready (p := p.wait 0) hphase hrunning]
    rfl
  | importing b since =>
    cases hchain : C.conclude p.chain b with
    | none => exact Or.inr (Or.inr ⟨b, since, rfl, hchain⟩)
    | some ended =>
      refine Or.inr (Or.inl ⟨0, ?_⟩)
      rw [step_of_importing (p := p.wait 0) hphase hchain]
      rfl
  | pausing wakeAt =>
    -- the pause is over when that much time has passed
    refine Or.inr (Or.inl ⟨wakeAt, ?_⟩)
    rw [step_of_pausing (p := p.wait wakeAt) hphase hrunning (Nat.le_add_left _ _)]
    rfl

end Steps

/-- The log of an importer only grows. -/
theorem Move.journal {C : Chain σ} {p q : Pipeline σ} (h : Move C p q) :
    p.journal <:+ q.journal := by
  cases h with
  | started _ => exact List.suffix_append _ _
  | stopped hrest _ => exact (Keeps.stop hrest).journal
  | took _ _ =>
    cases hanswer : p.queue.poll.answer with
    | ok b =>
      rw [p.take_of_ok C hanswer]
      exact List.suffix_append_of_suffix (List.suffix_append _ _)
    | error e =>
      by_cases he : e = .emptyQueue
      · subst he
        rw [p.take_of_empty C hanswer]
        exact List.suffix_append _ _
      · rw [p.take_of_error C he hanswer]
        exact List.suffix_append_of_suffix (List.suffix_append _ _)
  | @finished b since v chain _ _ =>
    rw [journal_finish]
    exact (Keeps.settle { p with chain := chain } b _ v).journal
  | woke _ _ => exact List.suffix_refl _

end BlockSync.Pipeline
