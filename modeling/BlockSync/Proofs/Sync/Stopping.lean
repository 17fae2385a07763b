/-
  BlockSync.Proofs.Sync.Stopping
  ──────────────────────────────
  **A SIGNAL TO STOP LOSES NO BLOCK AND STARTS NO IMPORT.**

  The signal may come at any moment: before the importer has started, while it
  waits for a block, in an import or in a pause.  From then on the importer only
  rests, leaves its loop, or ends the import that it is in (`Move.signalled`); it
  takes nothing from the queue.

  Giving up the synchronizer signals the importer just as closing it does.

  So at any later moment the queue has what it had at the signal, then what was
  appended since (`signalStop_keeps_blocks`).  The block in flight is among that
  exactly if its import ended without parent, at the place where it ended.  And if
  the chain lets the import end, the importer is out of its loop two steps later.

  The importer waits as any consumer does (`take_eq_waiterStep`), and a consumer that
  is given up before it was served has taken nothing (`queue_steps_of_unserved`).
-/
import BlockSync.Chain.Scripted
import BlockSync.Proofs.Store.BlockQueue.Placement
import BlockSync.Proofs.Sync.Recording
import BlockSync.Store.WaitingRoom

namespace BlockSync

/-! ## §1. A consumer that gives up. -/

theorem Waiter.result?_step_of_served {w : Waiter} (q : BlockQueue) (h : w.result? ≠ none) :
    (w.step q).1.result? ≠ none := by
  unfold Waiter.result? at h
  split at h
  next r hphase =>
    unfold Waiter.step
    rw [hphase]
    unfold Waiter.result?
    rw [hphase]
    exact fun hnone => by cases hnone
  next => exact absurd rfl h

theorem Waiter.result?_steps_of_served (n : Nat) :
    ∀ {w : Waiter} (q : BlockQueue), w.result? ≠ none → (w.steps n q).1.result? ≠ none := by
  induction n with
  | zero => intro w q h; exact h
  | succ n ih => intro w q h; exact ih _ (w.result?_step_of_served q h)

namespace BlockQueue.Placed

/-- A waiter looks at the queue and takes the front entry, or there is none. -/
theorem queue_step_of_unserved {q : BlockQueue} (h : q.Placed) {w : Waiter}
    (hw : (w.step q).1.result? = none) : (w.step q).2.1 = q := by
  unfold Waiter.step at hw ⊢
  cases hphase : w.phase with
  | listening rung =>
    rw [hphase] at hw
    dsimp only at hw ⊢
    cases hcontents : q.contents with
    | nil =>
      obtain ⟨hanswer, hnext⟩ := BlockQueue.poll_of_contents_nil hcontents
      rw [hanswer]
      exact hnext
    | cons e rest =>
      -- whatever is there, the waiter gets it
      exfalso
      cases e with
      | ok b =>
        rw [(h.poll_block hcontents).1] at hw
        cases hw
      | error e =>
        obtain ⟨damage, rfl⟩ := corruption_of_mem_contents (hcontents ▸ List.mem_cons_self)
        rw [(h.poll_damage hcontents).1] at hw
        cases hw
  | asleep rung => cases rung with
    | true => rfl
    | false => rfl
  | _ => rfl

/-- **A consumer that was not served has taken nothing**, so it can be given up. -/
theorem queue_steps_of_unserved {q : BlockQueue} (h : q.Placed) (n : Nat) :
    ∀ {w : Waiter}, (w.steps n q).1.result? = none → (w.steps n q).2.1 = q := by
  induction n with
  | zero => intro w _; rfl
  | succ n ih =>
    intro w hw
    have hfirst : (w.step q).2.1 = q := by
      refine h.queue_step_of_unserved (Decidable.by_contra fun hserved => ?_)
      exact (w.step q).1.result?_steps_of_served n _ hserved hw
    have hsplit : (w.steps (n + 1) q).2.1 = ((w.step q).1.steps n (w.step q).2.1).2.1 := rfl
    have hsplit' : (w.steps (n + 1) q).1 = ((w.step q).1.steps n (w.step q).2.1).1 := rfl
    rw [hsplit', hfirst] at hw
    rw [hsplit, hfirst]
    exact ih hw

end BlockQueue.Placed

namespace Pipeline

variable {σ : Type} {C : Chain σ}

/-- An importer looks at the queue as a waiter does that has its ticket: it takes
what the waiter would be served, and sleeps where the waiter would. -/
theorem take_eq_waiterStep (C : Chain σ) (p : Pipeline σ) {w : Waiter} {rung : Bool}
    (hw : w.phase = .listening rung) :
    (p.take C).queue = (w.step p.queue).2.1
      ∧ ((p.take C).importer.phase = .asleep ↔ (w.step p.queue).1.result? = none) := by
  unfold Waiter.step
  rw [hw]
  dsimp only
  cases hanswer : p.queue.poll.answer with
  | ok b =>
    rw [p.take_of_ok C hanswer]
    exact ⟨rfl, fun h => (by cases h), fun h => (by cases h)⟩
  | error e =>
    by_cases he : e = .emptyQueue
    · subst he
      rw [p.take_of_empty C hanswer]
      exact ⟨rfl, fun _ => rfl, fun _ => rfl⟩
    · rw [p.take_of_error C he hanswer]
      cases e with
      | emptyQueue => exact absurd rfl he
      | _ => exact ⟨rfl, fun h => (by cases h), fun h => (by cases h)⟩

/-! ## §2. What may happen after a signal. -/

/-- The blocks of an append that was not refused. -/
def admitted {α : Type} (answer : Except StoreError α) (bs : List Block) : List Block :=
  match answer with
  | .ok _ => bs
  | .error _ => []

/-- What a pipeline becomes while the importer works and producers append, with the
blocks that they appended in between. -/
inductive Later (C : Chain σ) (p : Pipeline (Recorded σ)) :
    Pipeline (Recorded σ) → List Block → Prop where
  | now : Later C p p []
  | worked {q r : Pipeline (Recorded σ)} {ds : List Block} (h : Later C p q ds)
      (hstep : q.step C.recorded = some r) : Later C p r ds
  | appended {q : Pipeline (Recorded σ)} {ds : List Block} (h : Later C p q ds) (b : Block)
      (hb : b.Storable) : Later C p (q.enqueue b).2 (ds ++ admitted (q.enqueue b).1 [b])
  /-- Of a bulk append the beginning counts that the capacity leaves room for. -/
  | appendedAll {q : Pipeline (Recorded σ)} {ds : List Block} (h : Later C p q ds)
      (bs : List Block) (hbs : ∀ b ∈ bs, b.Storable) :
      Later C p (q.enqueueBatch bs).2 (ds ++ admitted (q.enqueueBatch bs).1
        (bs.take (Capacity.admissible q.queue.capacity q.queue.length bs.length)))
  /-- Anything else happens: time passes, the chain changes by itself. -/
  | passed {q r : Pipeline (Recorded σ)} {ds : List Block} (h : Later C p q ds)
      (hqueue : r.queue = q.queue) (himporter : r.importer = q.importer)
      (hreceived : r.chain.received = q.chain.received)
      (hconcluded : r.chain.concluded = q.chain.concluded) : Later C p r ds

/-- What goes back into the queue when an import ends: a block without parent, if
there is room for it. -/
def putBack (p : Pipeline σ) (b : Block) (v : Verdict) : List Block :=
  if v = .outcome .noParent then admitted (p.queue.enqueue b).answer [b] else []

/-- **After a signal to stop** the importer takes no block. -/
theorem Move.signalled {p q : Pipeline σ} (h : Move C p q)
    (hstop : p.importer.stopSignalled = true) :
    q.importer.stopSignalled = true
      ∧ ((Keeps p q ∧ q.queue = p.queue)
        ∨ ∃ b since v chain, p.importer.phase = .importing b since
          ∧ C.conclude p.chain b = some (v, chain)
          ∧ q = { p with chain := chain }.finish b since v) := by
  cases h with
  | started hphase =>
    have hrest : p.importer.inFlight = [] := inFlight_of_resting (by simp [hphase])
    exact ⟨hstop, Or.inl ⟨(Keeps.log p _).trans (Keeps.goTo hrest (by simp)), rfl⟩⟩
  | stopped hrest _ =>
    refine ⟨?_, Or.inl ⟨Keeps.stop hrest, p.queue_moveTo .stopped⟩⟩
    obtain ⟨life, events, hmove⟩ := p.exists_moveTo_eq .stopped
    unfold stop
    rw [hmove]
    exact hstop
  | took _ hrunning =>
    -- the signal is looked at before the queue is
    rw [hstop] at hrunning
    cases hrunning
  | finished hphase hchain =>
    refine ⟨?_, Or.inr ⟨_, _, _, _, hphase, hchain, rfl⟩⟩
    rw [stopSignalled_finish]
    exact hstop
  | woke hphase _ =>
    have hrest : p.importer.inFlight = [] := inFlight_of_resting (by simp [hphase])
    exact ⟨hstop, Or.inl ⟨Keeps.goTo hrest (by simp), rfl⟩⟩

/-! ## §3. What is in the queue. -/

/-- The end of an import appends what goes back. -/
theorem contents_finish {p : Pipeline σ} {b : Block} (since : Nat) (v : Verdict) (chain : σ)
    (h : p.queue.Placed) (hb : b.Storable) :
    ({ p with chain := chain }.finish b since v).queue.Placed
      ∧ ({ p with chain := chain }.finish b since v).queue.contents
        = p.queue.contents ++ (p.putBack b v).map .ok := by
  rw [queue_finish]
  unfold putBack
  by_cases hv : v = .outcome .noParent
  · subst hv
    rw [queue_settle_noParent, if_pos rfl]
    show (p.queue.enqueue b).next.Placed ∧ (p.queue.enqueue b).next.contents = _
    rcases h.enqueue hb with ⟨hanswer, hnext⟩ | ⟨hanswer, hnext⟩
    · rw [hanswer]
      exact ⟨hnext.placed, hnext.contents⟩
    · rw [hanswer, hnext]
      exact ⟨h, (List.append_nil _).symm⟩
  · rw [queue_settle _ _ _ hv, if_neg hv]
    exact ⟨h, (List.append_nil _).symm⟩

theorem contents_enqueue {p : Pipeline σ} {b : Block} (h : p.queue.Placed) (hb : b.Storable) :
    (p.enqueue b).2.queue.Placed
      ∧ (p.enqueue b).2.queue.contents
        = p.queue.contents ++ (admitted (p.enqueue b).1 [b]).map .ok := by
  rw [p.queue_enqueue b]
  rcases h.enqueue hb with ⟨hanswer, hnext⟩ | ⟨hanswer, hnext⟩
  · rw [p.enqueue_of_ok hanswer]
    exact ⟨hnext.placed, hnext.contents⟩
  · rw [p.enqueue_of_error hanswer, hnext]
    exact ⟨h, (List.append_nil _).symm⟩

theorem contents_enqueueBatch {p : Pipeline σ} {bs : List Block} (h : p.queue.Placed)
    (hbs : ∀ b ∈ bs, b.Storable) :
    (p.enqueueBatch bs).2.queue.Placed
      ∧ (p.enqueueBatch bs).2.queue.contents = p.queue.contents
        ++ (admitted (p.enqueueBatch bs).1
          (bs.take (Capacity.admissible p.queue.capacity p.queue.length bs.length))).map .ok := by
  rw [p.queue_enqueueBatch bs]
  rcases h.enqueueBatch bs hbs with ⟨hanswer, hnext⟩ | ⟨hanswer, hnext⟩
  · rw [p.enqueueBatch_of_ok hanswer]
    exact ⟨hnext.placed, hnext.contents⟩
  · rw [p.enqueueBatch_of_error hanswer, hnext]
    exact ⟨h, (List.append_nil _).symm⟩

/-- The import that was in progress, if any, has not ended yet. -/
structure Pending (p q : Pipeline (Recorded σ)) (ds : List Block) : Prop where
  inFlight : q.importer.inFlight = p.importer.inFlight
  concluded : q.chain.concluded = p.chain.concluded
  contents : q.queue.contents = p.queue.contents ++ ds.map .ok

/-- The import that was in progress was pending until a step in which it ended, and
since then the importer has nothing in its hands. -/
structure Done (C : Chain σ) (p q : Pipeline (Recorded σ)) (ds : List Block) (b : Block)
    (v : Verdict) (m m' : Pipeline (Recorded σ)) (before after : List Block) : Prop where
  begun : p.importer.inFlight = [b]
  first : Later C p m before
  pending : Pending p m before
  ended : m.step C.recorded = some m'
  released : m'.importer.inFlight = []
  rest : Later C m' q after
  appended : ds = before ++ after
  inFlight : q.importer.inFlight = []
  concluded : q.chain.concluded = p.chain.concluded ++ [(b, v)]
  contents : q.queue.contents
    = p.queue.contents ++ (before ++ m.putBack b v ++ after).map .ok

/-- How it stands with a pipeline since a moment at which it was told to stop. -/
structure Halting (C : Chain σ) (p q : Pipeline (Recorded σ)) (ds : List Block) : Prop where
  signalled : q.importer.stopSignalled = true
  placed : q.queue.Placed
  received : q.chain.received = p.chain.received
  state : Pending p q ds ∨ ∃ b v m m' before after, Done C p q ds b v m m' before after

namespace Halting

variable {p q r : Pipeline (Recorded σ)} {ds : List Block}

/-- Blocks behind the others, and nothing else. -/
theorem append (h : Halting C p q ds) (new : List Block)
    (hlater : ∀ {m after}, Later C m q after → Later C m r (after ++ new))
    (hplaced : r.queue.Placed)
    (hcontents : r.queue.contents = q.queue.contents ++ new.map .ok)
    (hsignalled : r.importer.stopSignalled = q.importer.stopSignalled)
    (hinFlight : r.importer.inFlight = q.importer.inFlight)
    (hreceived : r.chain.received = q.chain.received)
    (hconcluded : r.chain.concluded = q.chain.concluded) : Halting C p r (ds ++ new) := by
  refine ⟨hsignalled.trans h.signalled, hplaced, hreceived.trans h.received, ?_⟩
  rcases h.state with hp | ⟨b, v, m, m', before, after, hd⟩
  · refine Or.inl ⟨hinFlight.trans hp.inFlight, hconcluded.trans hp.concluded, ?_⟩
    rw [hcontents, hp.contents, List.map_append, List.append_assoc]
  · have happended : ds ++ new = before ++ (after ++ new) := by
      rw [hd.appended, List.append_assoc]
    refine Or.inr ⟨b, v, m, m', before, after ++ new, { hd with
      rest := hlater hd.rest
      appended := happended
      inFlight := hinFlight.trans hd.inFlight
      concluded := hconcluded.trans hd.concluded
      contents := ?_ }⟩
    rw [hcontents, hd.contents]
    simp only [List.map_append, List.append_assoc]

/-- A step of the importer: it rests, or the import that was in progress ends. -/
theorem step (h : Halting C p q ds) (hflight : ∀ b ∈ p.importer.inFlight, b.Storable)
    (hlater : Later C p q ds) (hstep : q.step C.recorded = some r) : Halting C p r ds := by
  obtain ⟨hsignalled, hrest | ⟨b, since, v, chain, hphase, hchain, rfl⟩⟩ :=
    (move_of_step hstep).signalled h.signalled
  · obtain ⟨hkeeps, hqueue⟩ := hrest
    have happend := h.append (r := r) [] (fun hm => by
        rw [List.append_nil]
        exact hm.worked hstep) (by rw [hqueue]; exact h.placed)
      (by rw [hqueue]; exact (List.append_nil _).symm)
      (hsignalled.trans h.signalled.symm) hkeeps.inFlight (congrArg Recorded.received hkeeps.chain)
      (congrArg Recorded.concluded hkeeps.chain)
    rwa [List.append_nil] at happend
  · have hnow : q.importer.inFlight = [b] := inFlight_of_importing hphase
    rcases h.state with hp | ⟨_, _, _, _, _, _, hd⟩
    · -- the block in flight is the one that was in flight at the signal
      have hbegun : p.importer.inFlight = [b] := hp.inFlight.symm.trans hnow
      have hb : b.Storable := hflight b (by rw [hbegun]; exact List.mem_singleton_self b)
      obtain ⟨hreceived, hconcluded⟩ := Chain.recorded_conclude hchain
      obtain ⟨hplaced, hcontents⟩ := contents_finish since v chain h.placed hb
      have hrecord : ({ q with chain := chain }.finish b since v).chain = chain :=
        chain_finish _ b since v
      have hreleased := inFlight_finish { q with chain := chain } b since v
      refine ⟨hsignalled, hplaced, ?_, Or.inr ⟨b, v, q, _, ds, [], {
        begun := hbegun
        first := hlater
        pending := hp
        ended := hstep
        released := hreleased
        rest := .now
        appended := (List.append_nil ds).symm
        inFlight := hreleased
        concluded := ?_
        contents := ?_ }⟩⟩
      · rw [hrecord, hreceived]
        exact h.received
      · rw [hrecord, hconcluded, hp.concluded]
      · rw [hcontents, hp.contents, List.append_nil, List.map_append, List.append_assoc]
    · -- that import has ended already
      rw [hd.inFlight] at hnow
      cases hnow

end Halting

/-- **Whatever comes later, a pipeline that was told to stop is halting.** -/
theorem Later.halting {p q : Pipeline (Recorded σ)} {ds : List Block} (h : Later C p q ds)
    (hsignalled : p.importer.stopSignalled = true) (hplaced : p.queue.Placed)
    (hflight : ∀ b ∈ p.importer.inFlight, b.Storable) : Halting C p q ds := by
  induction h with
  | now =>
    exact ⟨hsignalled, hplaced, rfl, Or.inl ⟨rfl, rfl, (List.append_nil _).symm⟩⟩
  | worked hlater hstep ih => exact ih.step hflight hlater hstep
  | @appended q ds _ b hb ih =>
    obtain ⟨hnext, hcontents⟩ := contents_enqueue ih.placed hb
    have hnudges := Nudges.enqueue q b
    exact ih.append _ (fun hm => hm.appended b hb) hnext hcontents hnudges.stopSignalled
      hnudges.inFlight (congrArg Recorded.received hnudges.chain)
      (congrArg Recorded.concluded hnudges.chain)
  | @appendedAll q ds _ bs hbs ih =>
    obtain ⟨hnext, hcontents⟩ := contents_enqueueBatch ih.placed hbs
    have hnudges := Nudges.enqueueBatch q bs
    exact ih.append _ (fun hm => hm.appendedAll bs hbs) hnext hcontents hnudges.stopSignalled
      hnudges.inFlight (congrArg Recorded.received hnudges.chain)
      (congrArg Recorded.concluded hnudges.chain)
  | @passed q r ds _ hqueue himporter hreceived hconcluded ih =>
    have happend := ih.append (r := r) [] (fun hm => by
        rw [List.append_nil]
        exact hm.passed hqueue himporter hreceived hconcluded) (by rw [hqueue]; exact ih.placed)
      (by rw [hqueue]; exact (List.append_nil _).symm) (by rw [himporter]) (by rw [himporter])
      hreceived hconcluded
    rwa [List.append_nil] at happend

/-! ## §4. The end of the loop. -/

theorem hasEnded_stop (p : Pipeline σ) : p.stop.hasEnded = true := rfl

theorem step_of_signalled {p : Pipeline σ} (hstop : p.importer.stopSignalled = true)
    (hphase : p.importer.phase = .ready ∨ ∃ wakeAt, p.importer.phase = .pausing wakeAt) :
    p.step C = some p.stop := by
  unfold step
  rcases hphase with hphase | ⟨wakeAt, hphase⟩
  · rw [hphase]
    dsimp only
    rw [if_pos hstop]
  · rw [hphase]
    dsimp only
    rw [if_pos hstop]

theorem run_of_step {p q : Pipeline σ} (h : p.step C = some q) (n : Nat) :
    p.run C (n + 1) = q.run C n := by
  rw [run, h]

theorem run_of_hasEnded {p : Pipeline σ} (h : p.hasEnded = true) (n : Nat) : p.run C n = p := by
  cases n with
  | zero => rfl
  | succ n =>
    rw [run, step_of_hasEnded h]

/-- After a verdict the importer will look at the queue, or it pauses. -/
theorem phase_finish (p : Pipeline σ) (b : Block) (since : Nat) (v : Verdict) :
    (p.finish b since v).importer.phase = .ready
      ∨ ∃ wakeAt, (p.finish b since v).importer.phase = .pausing wakeAt := by
  cases v with
  | outcome o =>
    cases o with
    | noParent => exact Or.inr ⟨_, rfl⟩
    | _ => exact Or.inl rfl
  | _ => exact Or.inl rfl

theorem awake_finish (p : Pipeline σ) (b : Block) (since : Nat) (v : Verdict) :
    (p.finish b since v).importer.phase ≠ .ended
      ∧ (p.finish b since v).importer.phase ≠ .asleep := by
  rcases p.phase_finish b since v with hready | ⟨wakeAt, hpause⟩
  · rw [hready]
    exact ⟨nofun, nofun⟩
  · rw [hpause]
    exact ⟨nofun, nofun⟩

/-- **An importer that was told to stop leaves its loop in two steps**, if the chain
lets the import end that is in progress. -/
theorem hasEnded_run_of_signalled {p : Pipeline σ} (hstop : p.importer.stopSignalled = true)
    (hready : ∀ b ∈ p.importer.inFlight, (C.conclude p.chain b).isSome) :
    (p.run C 2).hasEnded = true := by
  -- wherever it would look at the queue or wake up, one step is enough
  have hlast : ∀ {q : Pipeline σ} (n : Nat), q.importer.stopSignalled = true →
      (q.importer.phase = .ready ∨ ∃ wakeAt, q.importer.phase = .pausing wakeAt) →
      (q.run C (n + 1)).hasEnded = true := by
    intro q n hq hphase
    rw [run_of_step (step_of_signalled hq hphase), run_of_hasEnded q.hasEnded_stop]
    exact q.hasEnded_stop
  cases hphase : p.importer.phase with
  | unstarted =>
    rw [run_of_step (step_of_unstarted hphase)]
    exact hlast 0 hstop (Or.inl rfl)
  | ready => exact hlast 1 hstop (Or.inl hphase)
  | asleep =>
    have hstep : p.step C = some p.stop := by
      unfold step
      rw [hphase]
      dsimp only
      rw [if_pos hstop]
    rw [run_of_step hstep, run_of_hasEnded p.hasEnded_stop]
    exact p.hasEnded_stop
  | importing b since =>
    obtain ⟨⟨v, chain⟩, hchain⟩ := Option.isSome_iff_exists.mp
      (hready b (by rw [inFlight_of_importing hphase]; exact List.mem_singleton_self b))
    rw [run_of_step (step_of_importing hphase hchain)]
    exact hlast 0 ((stopSignalled_finish _ b since v).trans hstop) (phase_finish _ b since v)
  | pausing wakeAt => exact hlast 1 hstop (Or.inr ⟨wakeAt, hphase⟩)
  | ended =>
    have hended : p.hasEnded = true := hasEnded_iff.mpr hphase
    rw [run_of_hasEnded hended]
    exact hended

/-- **A SIGNAL TO STOP LOSES NO BLOCK AND STARTS NO IMPORT.**  Whenever it comes, the
chain is handed nothing more, and the import that is in progress, if there is one,
goes on to its end.  Until then the queue has what it had and what was appended
since; after that also the block of that import, at the place where it ended and
exactly if it ended without parent and there was room.  The loop ends as soon as
the chain lets that import end, and a consumer that has not been served when it
gives up has taken nothing. -/
theorem signalStop_keeps_blocks {p q : Pipeline (Recorded σ)} {ds : List Block}
    (hplaced : p.queue.Placed) (hflight : ∀ b ∈ p.importer.inFlight, b.Storable)
    (hlater : Later C p.signalStop q ds) :
    q.chain.received = p.chain.received
      ∧ (Pending p.signalStop q ds
        ∨ ∃ b v m m' before after, Done C p.signalStop q ds b v m m' before after)
      ∧ (q.hasEnded = true → q.importer.inFlight = [])
      ∧ ((∀ b ∈ q.importer.inFlight, (C.recorded.conclude q.chain b).isSome) →
        (q.run C.recorded 2).hasEnded = true)
      ∧ ∀ (w : Waiter) (n : Nat), (w.steps n q.queue).1.result? = none →
        (w.steps n q.queue).2.1 = q.queue := by
  have h := hlater.halting rfl hplaced hflight
  refine ⟨h.received, h.state, inFlight_of_hasEnded, hasEnded_run_of_signalled h.signalled, ?_⟩
  intro w n hw
  exact h.placed.queue_steps_of_unserved n hw

/-- A block whose parent is unknown. -/
def orphan : Block := .linking 2 (.replicate 2) (.replicate 1)

/-- Its import is in progress, and the queue is an empty tree. -/
def orphanInFlight : Pipeline (Recorded ScriptedChain) where
  queue := .stored ⟨.empty, .fresh, .empty, 2⟩
  chain := ⟨.start (.linking 0 (.replicate 0) (.replicate 0)) true false, [orphan], []⟩
  metrics := none
  lifecycle := .running
  importer := ⟨.importing orphan 0, 5, false⟩
  clock := 0
  journal := []

theorem Later.worked_getD {p q : Pipeline (Recorded σ)} {ds : List Block} (h : Later C p q ds)
    (hstep : (q.step C.recorded).isSome) : Later C p ((q.step C.recorded).getD q) ds := by
  obtain ⟨r, hr⟩ := Option.isSome_iff_exists.mp hstep
  rw [hr]
  exact h.worked hr

/-- Its parent is appended after the signal and before the import ends. -/
theorem signalStop_keeps_blocks_orphanInFlight :
    ∃ q parent, Later ScriptedChain.chain orphanInFlight.signalStop q [parent]
      ∧ q.hasEnded = true ∧ q.queue.contents.map Except.toOption = [some parent, some orphan]
      ∧ q.chain.received = orphanInFlight.chain.received ∧ q.importer.inFlight = [] := by
  let parent : Block := .linking 1 (.replicate 1) (.replicate 0)
  let m := (orphanInFlight.signalStop.enqueue parent).2
  let m' := (m.step ScriptedChain.chain.recorded).getD m
  have hplaced : orphanInFlight.queue.Placed := Tree.Fills.empty
  have hflight : ∀ b ∈ orphanInFlight.importer.inFlight, b.Storable := by decide +kernel
  have happended : Later ScriptedChain.chain orphanInFlight.signalStop m [parent] :=
    .appended .now parent (by decide +kernel)
  have hlater := (happended.worked_getD (by decide +kernel)).worked_getD (q := m')
    (by decide +kernel)
  obtain ⟨hreceived, -, hended, -, -⟩ := signalStop_keeps_blocks hplaced hflight hlater
  exact ⟨_, parent, hlater, by decide +kernel, by decide +kernel, hreceived,
    hended (by decide +kernel)⟩

end Pipeline
end BlockSync
