/-
  BlockSync.Proofs.Sync.Stores
  ────────────────────────────
  **WHAT BECOMES OF THE STORES.**

  A synchronizer has no other way to its stores than the calls that they offer.
  `Call.onQueue?` and `onFrontier?` say which call of a store a call of the facade
  comes to, if any.  The importer takes the front block, and may put it back behind
  the others (`Flow`).  Everything else leaves the stores, the block in flight and
  the metrics aside (`Aside`).

  So a state that each store keeps under its own calls is kept under all that may
  happen:

      Pipeline.Sound.after      a queue in good order, and a block in flight that can
                                be put back into it
      exists_holds_happen       a frontier that stands for a list of hashes
-/
import BlockSync.Proofs.Store.BlockQueue.Membership
import BlockSync.Proofs.Store.Frontier
import BlockSync.Proofs.Sync.Closing

namespace BlockSync

namespace Pipeline

variable {σ : Type} {C : Chain σ} {p q : Pipeline σ}

/-! ## §1. The importer and the queue. -/

/-- A take leaves the rest of the queue, and in flight what was taken. -/
theorem take_leaves (C : Chain σ) (p : Pipeline σ) :
    (p.take C).queue = p.queue.poll.next
      ∧ (p.take C).importer.inFlight = p.queue.poll.answer.toOption.toList
      ∧ (p.take C).metrics = p.metrics := by
  cases hanswer : p.queue.poll.answer with
  | ok b =>
    rw [p.take_of_ok C hanswer]
    exact ⟨rfl, rfl, rfl⟩
  | error e =>
    -- an empty queue sends the importer to wait, any other error to back off
    by_cases he : e = .emptyQueue
    · subst he
      rw [p.take_of_empty C hanswer]
      exact ⟨rfl, rfl, rfl⟩
    · rw [p.take_of_error C he hanswer]
      exact ⟨rfl, rfl, rfl⟩

/-- The ways of a block: it leaves the queue, it is done with, or it goes back. -/
inductive Flow (p q : Pipeline σ) : Prop where
  | idle (hqueue : q.queue = p.queue) (hflight : q.importer.inFlight = p.importer.inFlight)
  | took (hrest : p.importer.inFlight = []) (hqueue : q.queue = p.queue.poll.next)
      (hflight : q.importer.inFlight = p.queue.poll.answer.toOption.toList)
  | done {b : Block} (hb : p.importer.inFlight = [b]) (hqueue : q.queue = p.queue)
      (hflight : q.importer.inFlight = [])
  | back {b : Block} (hb : p.importer.inFlight = [b])
      (hqueue : q.queue = (p.queue.enqueue b).next) (hflight : q.importer.inFlight = [])

theorem Move.flow (h : Move C p q) : Flow p q := by
  cases h with
  | started hphase =>
    have hrest : p.importer.inFlight = [] := inFlight_of_resting (by simp [hphase])
    exact .idle rfl (Keeps.goTo (p := p.log _) hrest (by simp)).inFlight
  | stopped hrest _ => exact .idle (p.queue_moveTo .stopped) (Keeps.stop hrest).inFlight
  | took hphase _ =>
    obtain ⟨hqueue, hflight, -⟩ := take_leaves C p
    exact .took (inFlight_of_resting (by simp [hphase])) hqueue hflight
  | @finished b since v chain hphase _ =>
    have hflight := inFlight_finish { p with chain := chain } b since v
    by_cases hv : v = .outcome .noParent
    · subst hv
      refine .back (inFlight_of_importing hphase) ?_ hflight
      rw [queue_finish, queue_settle_noParent]
    · refine .done (inFlight_of_importing hphase) ?_ hflight
      rw [queue_finish, queue_settle _ _ _ hv]
  | woke hphase _ =>
    have hrest : p.importer.inFlight = [] := inFlight_of_resting (by simp [hphase])
    exact .idle rfl (Keeps.goTo hrest (by simp)).inFlight

/-- A queue that was opened and used, and a block in flight that can be stored. -/
structure Sound (p : Pipeline σ) : Prop where
  queue : p.queue.Reachable
  storable : ∀ b ∈ p.importer.inFlight, b.Storable

namespace Sound

theorem keep (h : Sound p) (hqueue : q.queue = p.queue)
    (hflight : q.importer.inFlight = p.importer.inFlight) : Sound q :=
  ⟨by rw [hqueue]; exact h.queue, by rw [hflight]; exact h.storable⟩

/-- The queue stands for its blocks. -/
theorem holds (h : Sound p) : p.queue.Holds p.queue.blocks := by
  obtain ⟨bs, hbs⟩ := h.queue.holds
  rw [hbs.blocks_eq]
  exact hbs

theorem flow (h : Sound p) (hflow : Flow p q) : Sound q := by
  cases hflow with
  | idle hqueue hflight => exact h.keep hqueue hflight
  | took _ hqueue hflight =>
    refine ⟨?_, ?_⟩
    · rw [hqueue]
      exact h.queue.performed .poll fun b hb => (by cases hb)
    · intro b hb
      rw [hflight] at hb
      have hholds := h.holds
      cases hblocks : p.queue.blocks with
      | nil =>
        rw [hblocks] at hholds
        rw [hholds.poll_nil.1] at hb
        cases hb
      | cons front rest =>
        rw [hblocks] at hholds
        rw [hholds.poll_cons.1] at hb
        rw [List.mem_singleton.mp hb]
        exact hholds.storable front List.mem_cons_self
  | done _ hqueue hflight =>
    refine ⟨by rw [hqueue]; exact h.queue, ?_⟩
    rw [hflight]
    exact fun b hb => by cases hb
  | @back b hb hqueue hflight =>
    have hstorable : b.Storable := h.storable b (by rw [hb]; exact List.mem_singleton_self b)
    refine ⟨?_, ?_⟩
    · rw [hqueue]
      exact h.queue.performed (.enqueue b) fun d hd => List.mem_singleton.mp hd ▸ hstorable
    · rw [hflight]
      exact fun b hb => by cases hb

end Sound
end Pipeline

namespace Synchronizer

variable {σ : Type} {C : Chain σ}

/-! ## §2. Calls of the facade are calls to the stores. -/

theorem frontier_start {settings : Settings} {canRun : Bool} {site : Site σ}
    {s : Synchronizer σ} (h : start settings canRun site = .ok s) : s.frontier = site.frontier := by
  unfold start at h
  obtain ⟨-, -, h⟩ := exists_of_bind_ok h
  dsimp only at h
  split at h
  · cases h
  · obtain ⟨last, -, h⟩ := exists_of_bind_ok h
    cases h
    rfl

/-- What a call asks of the queue. -/
def Call.onQueue? : Call → Option BlockQueue.Call
  | .addBlocks bs => if bs.isEmpty then none else some (.enqueueBatch bs)
  | .addBlock b => some (.enqueue b)
  | .clear => some .clear
  | _ => none

/-- What a call asks of the frontier. -/
def onFrontier? (s : Synchronizer σ) : Call → Option Frontier.Call
  | .setBestHash h => some (.reset h)
  | .addHash h => some (.pushFront h)
  | .addHashes hs => some (.pushFrontBatch (s.pipeline.queue.filterExisting hs))
  | .addNewBlockHash h => some (.pushBack h)
  | .returnHashes hs => if hs.isEmpty then none else some (.returnBatch hs)
  | .takeHashes => some (.drainFront s.settings.maxBlocksAsk)
  | .clear => some .clear
  | _ => none

/-- The blocks that a call hands over. -/
def Call.blocks : Call → List Block
  | .addBlocks bs => bs
  | .addBlock b => [b]
  | _ => []

/-- The blocks that a deed hands over. -/
def Deed.blocks : Deed σ → List Block
  | .call c => c.blocks
  | _ => []

section Facade

variable (s : Synchronizer σ)

theorem onFrontier_of_answer {α : Type} (op : Frontier → Reply Frontier α)
    {a : Except StoreError α} (h : (op s.frontier).answer = a) :
    s.onFrontier op = (a.mapError .ofStore, (s.onFrontier op).2) :=
  congrArg (fun answer => (answer.mapError SyncError.ofStore, (s.onFrontier op).2)) h

theorem onFrontierGauged_of_ok {α : Type} {op : Frontier → Reply Frontier α} {a : α}
    (h : (op s.frontier).answer = .ok a) :
    s.onFrontierGauged op = (.ok a, (s.onFrontier op).2.updateHashGauge) := by
  unfold onFrontierGauged
  rw [s.onFrontier_of_answer op h]
  rfl

theorem onFrontierGauged_of_error {α : Type} {op : Frontier → Reply Frontier α} {e : StoreError}
    (h : (op s.frontier).answer = .error e) :
    s.onFrontierGauged op = (.error (.ofStore e), (s.onFrontier op).2) := by
  unfold onFrontierGauged
  rw [s.onFrontier_of_answer op h]
  rfl

theorem stores_onFrontierGauged {α : Type} (op : Frontier → Reply Frontier α) :
    (s.onFrontierGauged op).2.frontier = (op s.frontier).next
      ∧ (s.onFrontierGauged op).2.pipeline.queue = s.pipeline.queue := by
  cases h : (op s.frontier).answer with
  | ok a => rw [s.onFrontierGauged_of_ok h]; exact ⟨rfl, rfl⟩
  | error e => rw [s.onFrontierGauged_of_error h]; exact ⟨rfl, rfl⟩

theorem addHash_of_ok {h : BlockHash} (hok : (s.frontier.pushFront h).answer = .ok ()) :
    ∃ events, s.addHash h = (.ok (), (s.onFrontier (·.pushFront h)).2.log events) := by
  unfold addHash
  rw [s.onFrontier_of_answer (·.pushFront h) hok]
  exact ⟨_, rfl⟩

theorem addHash_of_error {h : BlockHash} {e : StoreError}
    (herror : (s.frontier.pushFront h).answer = .error e) :
    s.addHash h = (.error (.ofStore e), (s.onFrontier (·.pushFront h)).2) := by
  unfold addHash
  rw [s.onFrontier_of_answer (·.pushFront h) herror]
  rfl

theorem stores_addHash (h : BlockHash) :
    (s.addHash h).2.frontier = (s.frontier.pushFront h).next
      ∧ (s.addHash h).2.pipeline.queue = s.pipeline.queue := by
  cases hanswer : (s.frontier.pushFront h).answer with
  | ok u =>
    obtain ⟨events, hadd⟩ := s.addHash_of_ok hanswer
    rw [hadd]
    exact ⟨rfl, rfl⟩
  | error e => rw [s.addHash_of_error hanswer]; exact ⟨rfl, rfl⟩

theorem log_log (events more : List Event) : (s.log events).log more = s.log (events ++ more) := by
  unfold log Pipeline.log
  simp

/-- Announced hashes are filtered and go to the front as one batch. -/
theorem exists_addHashes_eq (hs : List BlockHash) :
    ∃ events, s.addHashes hs = (s.log events).onFrontierGauged
      (·.pushFrontBatch (s.pipeline.queue.filterExisting hs)) := by
  unfold addHashes
  dsimp only
  split
  · rw [log_log]
    exact ⟨_, rfl⟩
  · exact ⟨_, rfl⟩

theorem exists_returnHashes_eq {hs : List BlockHash} (hne : hs ≠ []) :
    ∃ events, s.returnHashes hs = (s.log events).onFrontierGauged (·.returnBatch hs) := by
  unfold returnHashes
  rw [if_neg (by simpa using hne)]
  exact ⟨_, rfl⟩

theorem stores_addHashes (hs : List BlockHash) :
    (s.addHashes hs).2.frontier
        = (s.frontier.pushFrontBatch (s.pipeline.queue.filterExisting hs)).next
      ∧ (s.addHashes hs).2.pipeline.queue = s.pipeline.queue := by
  obtain ⟨events, hadd⟩ := s.exists_addHashes_eq hs
  rw [hadd]
  exact (s.log events).stores_onFrontierGauged _

theorem stores_returnHashes {hs : List BlockHash} (hne : hs ≠ []) :
    (s.returnHashes hs).2.frontier = (s.frontier.returnBatch hs).next
      ∧ (s.returnHashes hs).2.pipeline.queue = s.pipeline.queue := by
  obtain ⟨events, hreturn⟩ := s.exists_returnHashes_eq hne
  rw [hreturn]
  exact (s.log events).stores_onFrontierGauged _

theorem frontier_addBlock (b : Block) : (s.addBlock b).2.frontier = s.frontier := by
  unfold addBlock
  split
  · rfl
  · rfl

theorem frontier_addBlocks (bs : List Block) : (s.addBlocks bs).2.frontier = s.frontier := by
  unfold addBlocks
  split
  · rfl
  · split
    · rfl
    · rfl

/-- **A call changes the queue by a call to the queue**, or not at all. -/
theorem queue_call (c : Call) :
    (s.call c).pipeline.queue
      = c.onQueue?.elim s.pipeline.queue fun k => (s.pipeline.queue.perform k).2 := by
  cases c with
  | addBlocks bs =>
    cases bs with
    | nil => rfl
    | cons b bs => exact s.queue_addBlocks (List.cons_ne_nil b bs)
  | addBlock b => exact s.queue_addBlock b
  | addHash h => exact (s.stores_addHash h).2
  | addHashes hs => exact (s.stores_addHashes hs).2
  | returnHashes hs =>
    cases hs with
    | nil => rfl
    | cons h hs => exact (s.stores_returnHashes (List.cons_ne_nil h hs)).2
  | logFrontierSize => rfl
  | setHighestDifficulty d => rfl
  | clear => rfl
  | _ => exact (s.stores_onFrontierGauged _).2

/-- **A call changes the frontier by a call to the frontier**, or not at all. -/
theorem frontier_call (c : Call) :
    (s.call c).frontier = (s.onFrontier? c).elim s.frontier fun k => (s.frontier.perform k).2 := by
  cases c with
  | addBlocks bs => exact s.frontier_addBlocks bs
  | addBlock b => exact s.frontier_addBlock b
  | addHash h => exact (s.stores_addHash h).1
  | addHashes hs => exact (s.stores_addHashes hs).1
  | returnHashes hs =>
    cases hs with
    | nil => rfl
    | cons h hs => exact (s.stores_returnHashes (List.cons_ne_nil h hs)).1
  | logFrontierSize => rfl
  | setHighestDifficulty d => rfl
  | clear => rfl
  | _ => exact (s.stores_onFrontierGauged _).1

theorem exists_onFrontierGauged_eq {α : Type} (op : Frontier → Reply Frontier α) :
    ∃ frontier metrics journal, (s.onFrontierGauged op).2 = { s with
      frontier := frontier
      pipeline := { s.pipeline with metrics := metrics, journal := journal } } := by
  cases h : (op s.frontier).answer with
  | ok a => rw [s.onFrontierGauged_of_ok h]; exact ⟨_, _, _, rfl⟩
  | error e => rw [s.onFrontierGauged_of_error h]; exact ⟨_, _, _, rfl⟩

/-- **A call that asks nothing of the queue** changes the frontier, the highest difficulty,
the metrics and the log, and nothing else. -/
theorem exists_call_eq_of_unqueued {c : Call} (h : c.onQueue? = none) :
    ∃ frontier metrics journal d, s.call c = { s with
      frontier := frontier
      pipeline := { s.pipeline with metrics := metrics, journal := journal }
      highestDifficulty := d } := by
  cases c with
  | addBlocks bs =>
    cases bs with
    | nil => exact ⟨_, _, _, _, rfl⟩
    | cons b bs => cases h
  | addBlock b => cases h
  | clear => cases h
  | addHash k =>
    show ∃ frontier metrics journal d, (s.addHash k).2 = _
    cases hanswer : (s.frontier.pushFront k).answer with
    | ok u =>
      obtain ⟨events, hadd⟩ := s.addHash_of_ok hanswer
      rw [hadd]
      exact ⟨_, _, _, _, rfl⟩
    | error e =>
      rw [s.addHash_of_error hanswer]
      exact ⟨_, _, _, _, rfl⟩
  | addHashes hs =>
    obtain ⟨events, hadd⟩ := s.exists_addHashes_eq hs
    obtain ⟨frontier, metrics, journal, heq⟩ := (s.log events).exists_onFrontierGauged_eq
      (·.pushFrontBatch (s.pipeline.queue.filterExisting hs))
    exact ⟨_, _, _, _, (congrArg Prod.snd hadd).trans heq⟩
  | returnHashes hs =>
    by_cases hne : hs = []
    · subst hne
      exact ⟨_, _, _, _, rfl⟩
    · obtain ⟨events, hreturn⟩ := s.exists_returnHashes_eq hne
      obtain ⟨frontier, metrics, journal, heq⟩ :=
        (s.log events).exists_onFrontierGauged_eq (·.returnBatch hs)
      exact ⟨_, _, _, _, (congrArg Prod.snd hreturn).trans heq⟩
  | logFrontierSize => exact ⟨_, _, _, _, rfl⟩
  | setHighestDifficulty d => exact ⟨_, _, _, _, rfl⟩
  | _ =>
    obtain ⟨frontier, metrics, journal, heq⟩ := s.exists_onFrontierGauged_eq _
    exact ⟨_, _, _, _, heq⟩

end Facade

/-! ## §3. Whatever happens. -/

/-- What is left aside by all deeds but calls and work. -/
structure Aside (s t : Synchronizer (Recorded σ)) : Prop where
  frontier : t.frontier = s.frontier
  queue : t.pipeline.queue = s.pipeline.queue
  metrics : t.pipeline.metrics = s.pipeline.metrics
  inFlight : t.pipeline.importer.inFlight = s.pipeline.importer.inFlight
  concluded : t.pipeline.chain.concluded = s.pipeline.chain.concluded

namespace Aside

variable (s : Synchronizer (Recorded σ))

theorem close : Aside s s.close := by
  cases hjoin : s.joinable with
  | true =>
    obtain ⟨life, -, hclose⟩ := exists_close_of_joinable hjoin
    rw [hclose]
    exact ⟨rfl, rfl, rfl, rfl, rfl⟩
  | false =>
    rw [close_of_joined hjoin]
    exact ⟨rfl, rfl, rfl, rfl, rfl⟩

theorem resume : Aside s (s.onSite Site.resumeClose) := by
  rcases s.resume_eq with hresume | ⟨-, -, hresume⟩
  · rw [hresume]
    exact ⟨rfl, rfl, rfl, rfl, rfl⟩
  · rw [hresume]
    exact ⟨rfl, rfl, rfl, rfl, rfl⟩

end Aside

/-- **A deed is a call, or work of the importer, or beside the point.** -/
theorem deed_cases (C : Chain σ) (s : Synchronizer (Recorded σ)) (d : Deed σ) :
    (∃ c, d = .call c) ∨ d = .work ∨ Aside s (s.happen C d) := by
  cases d with
  | call c => exact Or.inl ⟨c, rfl⟩
  | close => exact Or.inr (Or.inr (.close s))
  | resume => exact Or.inr (Or.inr (.resume s))
  | work => exact Or.inr (Or.inl rfl)
  | wait ms => exact Or.inr (Or.inr ⟨rfl, rfl, rfl, rfl, rfl⟩)
  | stir f => exact Or.inr (Or.inr ⟨rfl, rfl, rfl, rfl, rfl⟩)

/-- The importer goes on by a move, or it rests. -/
theorem work_eq_or_move (C : Chain σ) (s : Synchronizer σ) :
    s.work C = s ∨ Pipeline.Move C s.pipeline (s.work C).pipeline := by
  cases hstep : s.pipeline.step C with
  | none => exact Or.inl (work_of_rest hstep)
  | some p =>
    rw [work_of_step hstep]
    exact Or.inr (Pipeline.move_of_step hstep)

/-- **From one deed to all deeds.**  What every allowed deed keeps, up to one more
for each deed that counts, all of them keep. -/
theorem after_counted (Inv : Nat → Synchronizer (Recorded σ) → Prop) (counts : Deed σ → Bool)
    (Allowed : Deed σ → Prop)
    (hstep : ∀ {n s} d, Allowed d → Inv n s → Inv (n + if counts d then 1 else 0) (s.happen C d))
    (deeds : List (Deed σ)) :
    ∀ {n s}, (∀ d ∈ deeds, Allowed d) → Inv n s →
      Inv (n + deeds.countP counts) (s.after C deeds) := by
  induction deeds with
  | nil => intro n s _ h; exact h
  | cons d deeds ih =>
    intro n s hallowed h
    have hrest := ih (fun e he => hallowed e (List.mem_cons_of_mem d he))
      (hstep d (hallowed d List.mem_cons_self) h)
    rw [List.countP_cons, Nat.add_comm (deeds.countP counts), ← Nat.add_assoc]
    exact hrest

/-- If no deed counts, then a state is kept. -/
theorem after_kept (Inv : Synchronizer (Recorded σ) → Prop) {Allowed : Deed σ → Prop}
    (hstep : ∀ {s} d, Allowed d → Inv s → Inv (s.happen C d)) {deeds : List (Deed σ)}
    (hdeeds : ∀ d ∈ deeds, Allowed d) {s : Synchronizer (Recorded σ)} (h : Inv s) :
    Inv (s.after C deeds) :=
  after_counted (fun _ => Inv) (fun _ => false) Allowed hstep deeds (n := 0) hdeeds h

end Synchronizer

/-! ## §4. What the stores stay. -/

namespace Pipeline.Sound

open Synchronizer

variable {σ : Type} {C : Chain σ} {s : Synchronizer (Recorded σ)}

theorem call (h : Sound s.pipeline) {c : Call} (hc : ∀ b ∈ c.blocks, b.Storable) :
    Sound (s.call c).pipeline := by
  refine ⟨?_, ?_⟩
  · rw [s.queue_call c]
    cases c with
    | addBlocks bs =>
      cases bs with
      | nil => exact h.queue
      | cons b bs => exact h.queue.performed (.enqueueBatch (b :: bs)) hc
    | addBlock b => exact h.queue.performed (.enqueue b) hc
    | clear => exact h.queue.performed .clear fun b hb => (by cases hb)
    | _ => exact h.queue
  · rw [(Served.call s c).pipeline.inFlight]
    exact h.storable

theorem work (h : Sound s.pipeline) : Sound (s.work C.recorded).pipeline := by
  rcases s.work_eq_or_move C.recorded with hrest | hmove
  · rw [hrest]
    exact h
  · exact h.flow hmove.flow

theorem happen (h : Sound s.pipeline) (d : Deed σ) (hd : ∀ b ∈ d.blocks, b.Storable) :
    Sound (s.happen C d).pipeline := by
  rcases s.deed_cases C d with ⟨c, rfl⟩ | rfl | haside
  · exact h.call hd
  · exact h.work
  · exact h.keep haside.queue haside.inFlight

/-- **In good order once, in good order ever after.** -/
theorem after (h : Sound s.pipeline) (deeds : List (Deed σ))
    (hdeeds : ∀ d ∈ deeds, ∀ b ∈ d.blocks, b.Storable) : Sound (s.after C deeds).pipeline :=
  after_kept (fun t => Sound t.pipeline) (fun d hd h => h.happen d hd) hdeeds h

/-- A synchronizer that starts takes its queue over, and nothing is in flight. -/
theorem of_start {settings : Settings} {canRun : Bool} {site : Site (Recorded σ)}
    (hqueue : site.pipeline.queue.Reachable) (hstart : start settings canRun site = .ok s) :
    Sound s.pipeline := by
  obtain ⟨events, hpipeline⟩ := exists_pipeline_start hstart
  rw [hpipeline]
  exact ⟨hqueue, fun b hb => by cases hb⟩

end Pipeline.Sound

namespace Synchronizer

variable {σ : Type} {C : Chain σ} {s : Synchronizer (Recorded σ)}

theorem exists_holds_call (h : ∃ hs, s.frontier.Holds hs) (c : Call) :
    ∃ hs, (s.call c).frontier.Holds hs := by
  rw [s.frontier_call c]
  cases s.onFrontier? c with
  | none => exact h
  | some k => exact Frontier.exists_holds_perform h k

theorem exists_holds_happen (h : ∃ hs, s.frontier.Holds hs) (d : Deed σ) :
    ∃ hs, (s.happen C d).frontier.Holds hs := by
  rcases s.deed_cases C d with ⟨c, rfl⟩ | rfl | haside
  · exact exists_holds_call h c
  · exact h
  · rw [haside.frontier]
    exact h

end Synchronizer
end BlockSync
