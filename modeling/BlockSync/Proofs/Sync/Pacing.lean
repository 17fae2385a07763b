/-
  BlockSync.Proofs.Sync.Pacing
  ────────────────────────────
  **ORPHANS THROTTLE THE IMPORTER, AND NOTHING ELSE DOES.**

  The importer pauses after a block without parent, and when it was refused a block.  Until
  the pause is over it only rests or leaves its loop, whatever producers append and however
  the chain changes (`still_after`).  After any other end of an attempt it looks at the
  queue next.

  Time passes on its own, but only while the importer rests (`Prompt`).  So what the
  importer can do at once, it does at the same time: it takes the next block (`Due`), and
  a signal to stop ends its pause.
-/
import BlockSync.Proofs.Sync.Conservation
import BlockSync.Proofs.Sync.Stopping
import BlockSync.Proofs.Sync.Stores

namespace BlockSync

/-- The queue after some calls. -/
def BlockQueue.performAll (q : BlockQueue) (ks : List BlockQueue.Call) : BlockQueue :=
  ks.foldl (fun q k => (q.perform k).2) q

namespace Pipeline

variable {σ : Type} {C : Chain σ} (p : Pipeline σ)

/-! ## §1. What takes no time. -/

@[simp] theorem clock_ring : p.ring.clock = p.clock := by
  unfold ring
  split
  · rfl
  · rfl

@[simp] theorem clock_enqueue (b : Block) : (p.enqueue b).2.clock = p.clock := by
  cases h : (p.queue.enqueue b).answer with
  | ok u => rw [p.enqueue_of_ok h]; exact clock_ring _
  | error e => rw [p.enqueue_of_error h]; rfl

@[simp] theorem clock_enqueueBatch (bs : List Block) : (p.enqueueBatch bs).2.clock = p.clock := by
  cases h : (p.queue.enqueueBatch bs).answer with
  | ok kept =>
    rw [p.enqueueBatch_of_ok h]
    show (if kept > 0 then _ else _ : Pipeline σ).clock = _
    split
    · exact clock_ring _
    · rfl
  | error e => rw [p.enqueueBatch_of_error h]; rfl

@[simp] theorem clock_requeue (b : Block) : (p.requeue b).clock = p.clock := by
  rw [← p.clock_enqueue b]
  unfold requeue
  split
  next heq => rw [heq]
  next heq => rw [heq]; rfl

@[simp] theorem clock_settle (b : Block) (elapsed : Nat) (v : Verdict) :
    (p.settle b elapsed v).clock = p.clock := by
  cases v with
  | outcome o =>
    cases o with
    | noParent => exact clock_requeue _ b
    | _ => rfl
  | _ => rfl

@[simp] theorem clock_finish (b : Block) (since : Nat) (v : Verdict) :
    (p.finish b since v).clock = p.clock := by
  obtain ⟨phase, -, hfinish⟩ := p.finish_eq_goTo b since v
  rw [hfinish]
  exact p.clock_settle b _ v

@[simp] theorem clock_stop : p.stop.clock = p.clock := by
  obtain ⟨life, events, hmove⟩ := p.exists_moveTo_eq .stopped
  unfold stop
  rw [hmove]
  rfl

@[simp] theorem clock_take (C : Chain σ) : (p.take C).clock = p.clock := by
  obtain ⟨queue, chain, journal, phase, htake, -⟩ := p.exists_take_eq C
  rw [htake]

/-- **The importer takes no time**; only the end of an import and of a pause are waited
for. -/
theorem Move.clock {p q : Pipeline σ} (h : Move C p q) : q.clock = p.clock := by
  cases h with
  | started _ => rfl
  | stopped _ _ => exact p.clock_stop
  | took _ _ => exact p.clock_take C
  | finished _ _ => exact clock_finish _ _ _ _
  | woke _ _ => rfl

/-- How long it pauses is the importer's for life. -/
theorem Move.backoff {p q : Pipeline σ} (h : Move C p q) :
    q.importer.backoff = p.importer.backoff := by
  cases h with
  | started _ => rfl
  | stopped _ _ =>
    obtain ⟨life, events, hmove⟩ := p.exists_moveTo_eq .stopped
    unfold stop
    rw [hmove]
    rfl
  | took _ _ =>
    obtain ⟨queue, chain, journal, phase, htake, -⟩ := p.exists_take_eq C
    rw [htake]
  | @finished b since v chain _ _ =>
    obtain ⟨phase, -, hfinish⟩ := finish_eq_goTo { p with chain := chain } b since v
    rw [hfinish]
    exact (Nudges.settle { p with chain := chain } b _ v).backoff
  | woke _ _ => rfl

end Pipeline

namespace Synchronizer

variable {σ : Type} {C : Chain σ}

theorem clock_call (s : Synchronizer σ) (c : Call) :
    (s.call c).pipeline.clock = s.pipeline.clock := by
  cases hc : c.onQueue? with
  | none =>
    obtain ⟨frontier, metrics, journal, d, hcall⟩ := s.exists_call_eq_of_unqueued hc
    rw [hcall]
  | some k =>
    cases c with
    | addBlocks bs =>
      rw [← s.pipeline.clock_enqueueBatch bs]
      show (s.addBlocks bs).2.pipeline.clock = _
      unfold addBlocks
      split
      next hnil =>
        rw [List.getLast?_eq_none_iff.mp hnil] at hc
        cases hc
      next =>
        split
        next heq => rw [heq]
        next heq => rw [heq]; rfl
    | addBlock b =>
      rw [← s.pipeline.clock_enqueue b]
      show (s.addBlock b).2.pipeline.clock = _
      unfold addBlock
      split
      next heq => rw [heq]
      next heq => rw [heq]; rfl
    | clear => rfl
    | _ => cases hc

/-! ## §2. What is beside the importer's work. -/

/-- What a deed asks of the queue. -/
def Deed.onQueue? : Deed σ → Option BlockQueue.Call
  | .call c => c.onQueue?
  | _ => none

/-- What deeds other than work leave alone: the importer at most wakes up, or is told to
stop. -/
structure Beside (s t : Synchronizer (Recorded σ)) : Prop where
  phase : s.pipeline.importer.phase ≠ .asleep →
    t.pipeline.importer.phase = s.pipeline.importer.phase
  backoff : t.pipeline.importer.backoff = s.pipeline.importer.backoff
  signalled : s.pipeline.importer.stopSignalled = true →
    t.pipeline.importer.stopSignalled = true
  received : t.pipeline.chain.received = s.pipeline.chain.received
  concluded : t.pipeline.chain.concluded = s.pipeline.chain.concluded

namespace Beside

variable {s t u : Synchronizer (Recorded σ)}

theorem refl (s : Synchronizer (Recorded σ)) : Beside s s := ⟨fun _ => rfl, rfl, id, rfl, rfl⟩

/-- Who is awake stays awake, so one thing may follow another. -/
theorem trans (h : Beside s t) (h' : Beside t u) (hawake : s.pipeline.importer.phase ≠ .asleep) :
    Beside s u := by
  have hphase := h.phase hawake
  refine ⟨fun _ => ?_, h'.backoff.trans h.backoff, fun hstop => h'.signalled (h.signalled hstop),
    h'.received.trans h.received, h'.concluded.trans h.concluded⟩
  exact (h'.phase (by rw [hphase]; exact hawake)).trans hphase

theorem call (s : Synchronizer (Recorded σ)) (c : Call) : Beside s (s.call c) := by
  have hnudges := (Served.call s c).pipeline
  refine ⟨fun hawake => ?_, hnudges.backoff, hnudges.stopSignalled.trans,
    congrArg Recorded.received hnudges.chain, congrArg Recorded.concluded hnudges.chain⟩
  rcases hnudges.importer with hsame | ⟨hasleep, -⟩
  · rw [hsame]
  · exact absurd hasleep hawake

theorem close (s : Synchronizer (Recorded σ)) : Beside s s.close := by
  cases hjoin : s.joinable with
  | true =>
    obtain ⟨life, -, hclose⟩ := exists_close_of_joinable hjoin
    rw [hclose]
    exact ⟨fun _ => rfl, rfl, fun _ => rfl, rfl, rfl⟩
  | false =>
    rw [close_of_joined hjoin]
    exact ⟨fun _ => rfl, rfl, fun _ => rfl, rfl, rfl⟩

theorem resume (s : Synchronizer (Recorded σ)) : Beside s (s.onSite Site.resumeClose) := by
  rcases s.resume_eq with hresume | ⟨-, -, hresume⟩
  · rw [hresume]
    exact ⟨fun _ => rfl, rfl, id, rfl, rfl⟩
  · rw [hresume]
    exact ⟨fun _ => rfl, rfl, id, rfl, rfl⟩

theorem happen (s : Synchronizer (Recorded σ)) {d : Deed σ} (hd : d ≠ .work) :
    Beside s (s.happen C d) := by
  cases d with
  | call c => exact call s c
  | close => exact close s
  | resume => exact resume s
  | work => exact absurd rfl hd
  | wait ms => exact ⟨fun _ => rfl, rfl, id, rfl, rfl⟩
  | stir f => exact ⟨fun _ => rfl, rfl, id, rfl, rfl⟩

end Beside

theorem queue_happen (s : Synchronizer (Recorded σ)) {d : Deed σ} (hd : d ≠ .work) :
    (s.happen C d).pipeline.queue
      = s.pipeline.queue.performAll d.onQueue?.toList := by
  cases d with
  | call c =>
    show (s.call c).pipeline.queue = s.pipeline.queue.performAll c.onQueue?.toList
    rw [s.queue_call c]
    cases c.onQueue? with
    | none => rfl
    | some k => rfl
  | close => exact (Aside.close s).queue
  | resume => exact (Aside.resume s).queue
  | work => exact absurd rfl hd
  | _ => rfl

theorem clock_close (s : Synchronizer σ) : s.close.pipeline.clock = s.pipeline.clock := by
  cases hjoin : s.joinable with
  | true =>
    obtain ⟨life, -, hclose⟩ := exists_close_of_joinable hjoin
    rw [hclose]
    rfl
  | false =>
    rw [close_of_joined hjoin]
    rfl

theorem clock_work (s : Synchronizer σ) : (s.work C).pipeline.clock = s.pipeline.clock := by
  rcases s.work_eq_or_move C with hrest | hmove
  · rw [hrest]
  · exact hmove.clock

/-- How much time a deed takes. -/
def Deed.duration : Deed σ → Nat
  | .wait ms => ms
  | _ => 0

/-- **Nothing takes time but waiting.** -/
theorem clock_happen (s : Synchronizer (Recorded σ)) (d : Deed σ) :
    (s.happen C d).pipeline.clock = s.pipeline.clock + d.duration := by
  cases d with
  | call c => exact s.clock_call c
  | close => exact s.clock_close
  | resume =>
    show (s.onSite Site.resumeClose).pipeline.clock = s.pipeline.clock
    rcases s.resume_eq with hresume | ⟨-, -, hresume⟩
    · rw [hresume]
    · rw [hresume]
      rfl
  | work => exact s.clock_work
  | _ => rfl

theorem clock_le_after (deeds : List (Deed σ)) :
    ∀ s : Synchronizer (Recorded σ), s.pipeline.clock ≤ (s.after C deeds).pipeline.clock := by
  induction deeds with
  | nil => intro s; exact Nat.le_refl _
  | cons d deeds ih =>
    intro s
    have hrest := ih (s.happen C d)
    have hfirst := clock_happen (C := C) s d
    show s.pipeline.clock ≤ ((s.happen C d).after C deeds).pipeline.clock
    omega

/-! ## §3. In a pause. -/

/-- The importer pauses until some time, unless it leaves its loop before. -/
def Pausing (wakeAt : Nat) (s : Synchronizer (Recorded σ)) : Prop :=
  s.pipeline.importer.phase = .pausing wakeAt ∨ s.pipeline.importer.phase = .ended

/-- Nothing is taken and nothing is attempted: the queue changes by calls only. -/
structure Still (s t : Synchronizer (Recorded σ)) (ks : List BlockQueue.Call) : Prop where
  received : t.pipeline.chain.received = s.pipeline.chain.received
  concluded : t.pipeline.chain.concluded = s.pipeline.chain.concluded
  queue : t.pipeline.queue = s.pipeline.queue.performAll ks

theorem Still.trans {s t u : Synchronizer (Recorded σ)} {ks ls : List BlockQueue.Call}
    (h : Still s t ks) (h' : Still t u ls) : Still s u (ks ++ ls) := by
  refine ⟨h'.received.trans h.received, h'.concluded.trans h.concluded, ?_⟩
  rw [h'.queue, h.queue]
  exact List.foldl_append.symm

/-- A step of the importer in its pause: it rests, or it leaves its loop. -/
theorem Pausing.work {wakeAt : Nat} {s : Synchronizer (Recorded σ)} (h : Pausing wakeAt s)
    (hearly : s.pipeline.clock < wakeAt) :
    Pausing wakeAt (s.work C.recorded) ∧ Still s (s.work C.recorded) [] := by
  have hrest : s.pipeline.step C.recorded = none →
      Pausing wakeAt (s.work C.recorded) ∧ Still s (s.work C.recorded) [] := by
    intro hstep
    rw [work_of_rest hstep]
    exact ⟨h, rfl, rfl, rfl⟩
  rcases h with hphase | hphase
  · cases hstop : s.pipeline.importer.stopSignalled with
    | true =>
      rw [work_of_step (Pipeline.step_of_signalled hstop (Or.inr ⟨wakeAt, hphase⟩))]
      have hkeeps : s.pipeline.Keeps s.pipeline.stop :=
        .stop (Pipeline.inFlight_of_resting (by simp [hphase]))
      exact ⟨Or.inr rfl, congrArg Recorded.received hkeeps.chain,
        congrArg Recorded.concluded hkeeps.chain, s.pipeline.queue_moveTo .stopped⟩
    | false =>
      refine hrest ?_
      unfold Pipeline.step
      rw [hphase]
      dsimp only
      rw [hstop, if_neg Bool.false_ne_true, if_neg (Nat.not_le.mpr hearly)]
  · exact hrest (Pipeline.step_of_hasEnded (Pipeline.hasEnded_iff.mpr hphase))

theorem Pausing.happen {wakeAt : Nat} {s : Synchronizer (Recorded σ)} (h : Pausing wakeAt s)
    (hearly : s.pipeline.clock < wakeAt) (d : Deed σ) :
    Pausing wakeAt (s.happen C d) ∧ Still s (s.happen C d) d.onQueue?.toList := by
  by_cases hd : d = .work
  · subst hd
    exact h.work hearly
  · have hbeside : Beside s (s.happen C d) := .happen s hd
    have hphase : (s.happen C d).pipeline.importer.phase = s.pipeline.importer.phase :=
      hbeside.phase (by rcases h with h | h <;> rw [h] <;> exact fun hasleep => by cases hasleep)
    exact ⟨by unfold Pausing; rw [hphase]; exact h, hbeside.received, hbeside.concluded,
      queue_happen s hd⟩

/-- **Until the pause is over nothing is taken**, whatever happens. -/
theorem still_after {wakeAt : Nat} (deeds : List (Deed σ)) :
    ∀ {s : Synchronizer (Recorded σ)}, Pausing wakeAt s →
      (s.after C deeds).pipeline.clock < wakeAt →
      Pausing wakeAt (s.after C deeds)
        ∧ Still s (s.after C deeds) (deeds.filterMap Deed.onQueue?) := by
  induction deeds with
  | nil => intro s h _; exact ⟨h, rfl, rfl, rfl⟩
  | cons d deeds ih =>
    intro s h hlate
    -- the clock does not go back, so it is early at every moment
    have hnow : s.pipeline.clock < wakeAt :=
      Nat.lt_of_le_of_lt (clock_le_after (C := C) (d :: deeds) s) hlate
    obtain ⟨hpausing, hfirst⟩ := h.happen (C := C) hnow d
    obtain ⟨hlast, hrest⟩ := ih hpausing hlate
    have hcalls : (d :: deeds).filterMap Deed.onQueue?
        = d.onQueue?.toList ++ deeds.filterMap Deed.onQueue? := by
      rw [List.filterMap_cons]
      cases d.onQueue? with
      | none => rfl
      | some k => rfl
    rw [hcalls]
    exact ⟨hlast, hfirst.trans hrest⟩

/-- The importer is about to be set back: its attempt ends without parent, or it looks at
the queue and is refused a block that is there. -/
inductive Setback (C : Chain σ) (s : Synchronizer (Recorded σ)) : Prop where
  | orphaned {b : Block} {since : Nat} {chain : Recorded σ}
      (hphase : s.pipeline.importer.phase = .importing b since)
      (hchain : C.recorded.conclude s.pipeline.chain b = some (.outcome .noParent, chain))
  | refused {e : StoreError} (hphase : s.pipeline.importer.phase = .ready)
      (hstop : s.pipeline.importer.stopSignalled = false) (he : e ≠ .emptyQueue)
      (hanswer : s.pipeline.queue.poll.answer = .error e)

/-- **A setback begins a pause.** -/
theorem Setback.pausing {s : Synchronizer (Recorded σ)} (h : Setback C s) :
    (s.work C.recorded).pipeline.importer.phase
      = .pausing (s.pipeline.clock + s.pipeline.importer.backoff) := by
  cases h with
  | @orphaned b since chain hphase hchain =>
    rw [work_of_step (Pipeline.step_of_importing hphase hchain)]
    let p := { s.pipeline with chain := chain }
    let q := p.settle b (p.clock - since) (.outcome .noParent)
    have hclock : q.clock = s.pipeline.clock := p.clock_settle b _ _
    have hbackoff : q.importer.backoff = s.pipeline.importer.backoff :=
      (Pipeline.Nudges.settle p b _ _).backoff
    show Phase.pausing (q.clock + q.importer.backoff) = _
    rw [hclock, hbackoff]
  | refused hphase hstop he hanswer =>
    rw [work_of_step (Pipeline.step_of_ready hphase hstop),
      s.pipeline.take_of_error C.recorded he hanswer]
    rfl

/-! ## §4. At the same time. -/

/-- Time passes only while the importer rests. -/
def Prompt (C : Chain σ) : List (Deed σ) → Synchronizer (Recorded σ) → Prop
  | [], _ => True
  | d :: deeds, s =>
    (0 < d.duration → s.pipeline.step C.recorded = none) ∧ Prompt C deeds (s.happen C d)

/-- It is the importer's turn: it will look at the queue, or it was told to stop in its
pause. -/
def Due (s : Synchronizer (Recorded σ)) : Prop :=
  s.pipeline.importer.phase = .ready
    ∨ (s.pipeline.importer.stopSignalled = true
      ∧ ∃ wakeAt, s.pipeline.importer.phase = .pausing wakeAt)

namespace Due

variable {s : Synchronizer (Recorded σ)}

theorem step_ne_none (h : Due s) : s.pipeline.step C.recorded ≠ none := by
  rcases h with hphase | ⟨hstop, hphase⟩
  · unfold Pipeline.step
    rw [hphase]
    exact Option.some_ne_none _
  · rw [Pipeline.step_of_signalled hstop (Or.inr hphase)]
    exact Option.some_ne_none _

theorem phase_ne_asleep (h : Due s) : s.pipeline.importer.phase ≠ .asleep := by
  rcases h with hphase | ⟨-, wakeAt, hphase⟩
  · rw [hphase]
    exact fun hasleep => by cases hasleep
  · rw [hphase]
    exact fun hasleep => by cases hasleep

theorem of_beside {t : Synchronizer (Recorded σ)} (h : Due s) (hbeside : Beside s t) : Due t := by
  have hphase := hbeside.phase h.phase_ne_asleep
  rcases h with hready | ⟨hstop, wakeAt, hpausing⟩
  · exact Or.inl (hphase.trans hready)
  · exact Or.inr ⟨hbeside.signalled hstop, wakeAt, hphase.trans hpausing⟩

/-- **When it is the importer's turn, no time passes before it works.** -/
theorem after (deeds : List (Deed σ)) :
    ∀ {s : Synchronizer (Recorded σ)}, Due s → Prompt C deeds s → (∀ d ∈ deeds, d ≠ .work) →
      (s.after C deeds).pipeline.clock = s.pipeline.clock
        ∧ Beside s (s.after C deeds) := by
  induction deeds with
  | nil => intro s h _ _; exact ⟨rfl, .refl s⟩
  | cons d deeds ih =>
    intro s h hprompt hwork
    have hbeside : Beside s (s.happen C d) := .happen s (hwork d List.mem_cons_self)
    obtain ⟨hclock, hrest⟩ := ih (h.of_beside hbeside) hprompt.2
      fun e he => hwork e (List.mem_cons_of_mem d he)
    have htime := clock_happen (C := C) s d
    have hnone : d.duration = 0 :=
      Nat.eq_zero_of_not_pos fun hpos => h.step_ne_none (hprompt.1 hpos)
    refine ⟨?_, ?_⟩
    · show ((s.happen C d).after C deeds).pipeline.clock = _
      omega
    · exact hbeside.trans hrest h.phase_ne_asleep

end Due

/-- After a final verdict it is the importer's turn. -/
theorem ready_work {s : Synchronizer (Recorded σ)} {b : Block} {since : Nat} {v : Verdict}
    {chain : Recorded σ} (hphase : s.pipeline.importer.phase = .importing b since)
    (hchain : C.recorded.conclude s.pipeline.chain b = some (v, chain))
    (hv : v ≠ .outcome .noParent) :
    (s.work C.recorded).pipeline.importer.phase = .ready
      ∧ (s.work C.recorded).pipeline.chain.received = s.pipeline.chain.received := by
  rw [work_of_step (Pipeline.step_of_importing hphase hchain)]
  refine ⟨?_, ?_⟩
  · cases v with
    | outcome o =>
      cases o with
      | noParent => exact absurd rfl hv
      | _ => rfl
    | _ => rfl
  · show ({ s.pipeline with chain := chain }.finish b since v).chain.received = _
    rw [Pipeline.chain_finish]
    exact (Chain.recorded_conclude hchain).1

/-- The block at the front is attempted. -/
theorem work_of_front {s : Synchronizer (Recorded σ)} {b : Block}
    (hphase : s.pipeline.importer.phase = .ready)
    (hstop : s.pipeline.importer.stopSignalled = false)
    (hfront : s.pipeline.queue.poll.answer = .ok b) :
    (s.work C.recorded).pipeline.importer.phase = .importing b s.pipeline.clock
      ∧ (s.work C.recorded).pipeline.chain.received = s.pipeline.chain.received ++ [b] := by
  rw [work_of_step (Pipeline.step_of_ready hphase hstop),
    s.pipeline.take_of_ok C.recorded hfront]
  exact ⟨rfl, rfl⟩

theorem hasEnded_work {s : Synchronizer (Recorded σ)} {wakeAt : Nat}
    (hphase : s.pipeline.importer.phase = .pausing wakeAt)
    (hstop : s.pipeline.importer.stopSignalled = true) :
    (s.work C.recorded).pipeline.hasEnded = true := by
  rw [work_of_step (Pipeline.step_of_signalled hstop (Or.inr ⟨wakeAt, hphase⟩))]
  exact s.pipeline.hasEnded_stop

theorem stopSignalled_close (s : Synchronizer σ) :
    s.close.pipeline.importer.stopSignalled = true := by
  cases hjoin : s.joinable with
  | true =>
    obtain ⟨life, -, hclose⟩ := exists_close_of_joinable hjoin
    rw [hclose]
    rfl
  | false =>
    rw [close_of_joined hjoin]
    rfl

/-- How long the importer pauses was set when the synchronizer started. -/
theorem backoff_after {settings : Settings} {canRun : Bool} {site : Site (Recorded σ)}
    {s₀ : Synchronizer (Recorded σ)} (hstart : start settings canRun site = .ok s₀)
    (deeds : List (Deed σ)) :
    (s₀.after C deeds).pipeline.importer.backoff = settings.noParentBackoff := by
  refine after_kept (fun s => s.pipeline.importer.backoff = settings.noParentBackoff)
    (fun {s} d (_ : True) h => ?_) (fun _ _ => trivial) ?_
  · refine Eq.trans ?_ h
    by_cases hd : d = .work
    · subst hd
      show (s.work C.recorded).pipeline.importer.backoff = _
      rcases s.work_eq_or_move C.recorded with hrest | hmove
      · rw [hrest]
      · exact hmove.backoff
    · exact (Beside.happen s hd).backoff
  · obtain ⟨events, hpipeline⟩ := exists_pipeline_start hstart
    rw [hpipeline]
    rfl

/-- **ORPHANS THROTTLE THE IMPORTER, AND NOTHING ELSE DOES.**  At any moment of the life of
a synchronizer, over whatever queue and whatever chain:

If an attempt ends without parent, or the importer is refused a block, then before its
pause is over it takes nothing and attempts nothing, and the queue changes by calls only,
however many there are.

If an attempt ends in any other way, then no time passes until the importer works again,
whatever happens in between; and if it was not told to stop by then and there is a block
at the front, it attempts that block, at the same time still.

If somebody closes while the importer pauses, or gives the synchronizer up, then no time
passes until it works again, and it leaves its loop. -/
theorem pace_of_importer {settings : Settings} {canRun : Bool} {site : Site (Recorded σ)}
    {s₀ : Synchronizer (Recorded σ)} (hstart : start settings canRun site = .ok s₀)
    (earlier : List (Deed σ)) :
    let s := s₀.after C earlier
    let now := s.pipeline.clock
    let next := s.work C.recorded
    (Setback C s → ∀ deeds t, next.after C deeds = t →
        t.pipeline.clock < now + settings.noParentBackoff →
        t.pipeline.importer.inFlight = [] ∧ Still next t (deeds.filterMap Deed.onQueue?))
      ∧ (∀ b since v chain, s.pipeline.importer.phase = .importing b since →
        C.recorded.conclude s.pipeline.chain b = some (v, chain) → v ≠ .outcome .noParent →
        ∀ deeds t, next.after C deeds = t → Prompt C deeds next → (∀ d ∈ deeds, d ≠ .work) →
          t.pipeline.clock = now ∧ t.pipeline.chain.received = s.pipeline.chain.received
            ∧ (t.pipeline.importer.stopSignalled = false →
              ∀ front, t.pipeline.queue.poll.answer = .ok front →
                (t.work C.recorded).pipeline.clock = now
                  ∧ (t.work C.recorded).pipeline.importer.phase = .importing front now
                  ∧ (t.work C.recorded).pipeline.chain.received
                    = s.pipeline.chain.received ++ [front]))
      ∧ ∀ wakeAt, s.pipeline.importer.phase = .pausing wakeAt →
        (∀ deeds t, s.close.after C deeds = t → Prompt C deeds s.close →
          (∀ d ∈ deeds, d ≠ .work) →
            t.pipeline.clock = now ∧ (t.work C.recorded).pipeline.clock = now
              ∧ (t.work C.recorded).pipeline.hasEnded = true)
          ∧ ∀ n, (s.drop.pipeline.run C.recorded (n + 1)).hasEnded = true
            ∧ (s.drop.pipeline.run C.recorded (n + 1)).clock = now := by
  intro s now next
  have hnext : next.pipeline.clock = now := s.clock_work
  refine ⟨?_, ?_, ?_⟩
  · rintro hsetback deeds t rfl hearly
    have hbackoff : s.pipeline.importer.backoff = settings.noParentBackoff :=
      backoff_after hstart earlier
    have hpausing : Pausing (now + settings.noParentBackoff) next :=
      Or.inl (hbackoff ▸ hsetback.pausing)
    obtain ⟨hphase, hstill⟩ := still_after deeds hpausing hearly
    refine ⟨Pipeline.inFlight_of_resting fun b since himporting => ?_, hstill⟩
    rcases hphase with hphase | hphase
    · rw [hphase] at himporting
      cases himporting
    · rw [hphase] at himporting
      cases himporting
  · rintro b since v chain hphase hchain hv deeds t rfl hprompt hidle
    obtain ⟨hready, hreceived⟩ := ready_work hphase hchain hv
    have hdue : Due next := Or.inl hready
    obtain ⟨hclock, hbeside⟩ := hdue.after deeds hprompt hidle
    have hnow : (next.after C deeds).pipeline.clock = now := hclock.trans hnext
    have hsame := hbeside.received.trans hreceived
    refine ⟨hnow, hsame, fun hstop front hfront => ?_⟩
    obtain ⟨htaken, hattempt⟩ := work_of_front (C := C)
      ((hbeside.phase hdue.phase_ne_asleep).trans hready) hstop hfront
    rw [hnow] at htaken
    rw [hsame] at hattempt
    exact ⟨(next.after C deeds).clock_work.trans hnow, htaken, hattempt⟩
  · intro wakeAt hphase
    refine ⟨?_, fun n => ?_⟩
    · rintro deeds t rfl hprompt hidle
      have hpausing : s.close.pipeline.importer.phase = .pausing wakeAt := by
        rw [(Beside.close s).phase (by rw [hphase]; exact fun hasleep => by cases hasleep)]
        exact hphase
      have hdue : Due s.close := Or.inr ⟨s.stopSignalled_close, wakeAt, hpausing⟩
      obtain ⟨hclock, hbeside⟩ := hdue.after deeds hprompt hidle
      have hnow : (s.close.after C deeds).pipeline.clock = now := hclock.trans s.clock_close
      refine ⟨hnow, (s.close.after C deeds).clock_work.trans hnow, ?_⟩
      exact hasEnded_work ((hbeside.phase hdue.phase_ne_asleep).trans hpausing)
        (hbeside.signalled s.stopSignalled_close)
    · -- the signal is looked at before the clock is
      have hstep : s.drop.pipeline.step C.recorded = some s.drop.pipeline.stop :=
        Pipeline.step_of_signalled rfl (Or.inr ⟨wakeAt, hphase⟩)
      rw [Pipeline.run_of_step hstep, Pipeline.run_of_hasEnded (Pipeline.hasEnded_stop _)]
      exact ⟨Pipeline.hasEnded_stop _, Pipeline.clock_stop _⟩

/-- The second block is attempted before the first one, which its chain waits for. -/
def attempted : List (Deed ScriptedChain) := [.call (.addBlocks [heir 2, heir 1]), .work, .work]

/-- In the pause a third block is appended and the importer gets its turn. -/
def throttled : List (Deed ScriptedChain) := [.wait 4, .call (.addBlock (heir 3)), .work]

/-- The pause of the orphan is over after five milliseconds, and the first block is
attempted. -/
def resumed : List (Deed ScriptedChain) := attempted ++ [.work, .wait 5, .work, .work]

/-- The attempt without parent is followed by a pause, in which all three blocks stay in
the queue and a call to close ends the loop; the attempt with success is followed by
another one at the same time. -/
theorem pace_of_importer_waitingForParent :
    let s := waitingForParent.after ScriptedChain.chain attempted
    let t := (s.work ScriptedChain.chain.recorded).after ScriptedChain.chain throttled
    s.pipeline.importer.phase = .importing (heir 2) 0
      ∧ t.pipeline.clock = 4 ∧ t.pipeline.chain.received = [heir 2]
      ∧ t.pipeline.queue.blocks = [heir 1, heir 2, heir 3]
      ∧ ((waitingForParent.after ScriptedChain.chain (attempted ++ .work :: throttled)).close.work
        ScriptedChain.chain.recorded).pipeline.hasEnded = true
      ∧ (waitingForParent.after ScriptedChain.chain resumed).pipeline.importer.phase
        = .importing (heir 1) 5
      ∧ (((waitingForParent.after ScriptedChain.chain resumed).work
        ScriptedChain.chain.recorded).work ScriptedChain.chain.recorded).pipeline.importer.phase
          = .importing (heir 2) 5 := by
  intro s t
  have hstart : start ⟨1, 2, 5⟩ true waitingForParent.toSite = .ok waitingForParent := rfl
  -- the end of an attempt, by its verdict
  have hends : ∀ {u : Synchronizer (Recorded ScriptedChain)} {b : Block} {o : Outcome},
      (ScriptedChain.chain.recorded.conclude u.pipeline.chain b).map Prod.fst = some (.outcome o) →
      ∃ chain, ScriptedChain.chain.recorded.conclude u.pipeline.chain b
        = some (.outcome o, chain) := by
    intro u b o h
    obtain ⟨⟨v, chain⟩, hchain, rfl⟩ := Option.map_eq_some_iff.mp h
    exact ⟨chain, hchain⟩
  have hfront : ∀ {a : Except StoreError Block} {b : Block}, a.toOption = some b → a = .ok b := by
    intro a b h
    cases a with
    | ok d => exact congrArg Except.ok (Option.some.inj h)
    | error e => cases h
  have hphase : s.pipeline.importer.phase = .importing (heir 2) 0 := by decide +kernel
  have hphase' : (waitingForParent.after ScriptedChain.chain resumed).pipeline.importer.phase
      = .importing (heir 1) 5 := by decide +kernel
  obtain ⟨chain, hchain⟩ := hends (u := s) (b := heir 2) (o := .noParent) (by decide +kernel)
  obtain ⟨chain', hchain'⟩ := hends (u := waitingForParent.after ScriptedChain.chain resumed)
    (b := heir 1) (o := .success) (by decide +kernel)
  have hsetback : Setback ScriptedChain.chain s := .orphaned hphase hchain
  obtain ⟨-, hstill⟩ := (pace_of_importer (C := ScriptedChain.chain) hstart attempted).1
    hsetback throttled _ rfl (by decide +kernel)
  obtain ⟨-, -, hnext⟩ := (pace_of_importer (C := ScriptedChain.chain) hstart resumed).2.1
    (heir 1) 5 (.outcome .success) chain' hphase' hchain' (fun h => by cases h) [] _
    List.foldl_nil trivial fun d hd => (by cases hd)
  obtain ⟨-, htaken, -⟩ := hnext (by decide +kernel) (heir 2) (hfront (by decide +kernel))
  have hnow : (waitingForParent.after ScriptedChain.chain resumed).pipeline.clock = 5 := by
    decide +kernel
  rw [hnow] at htaken
  obtain ⟨hclosed, -⟩ := (pace_of_importer (C := ScriptedChain.chain) hstart
    (attempted ++ .work :: throttled)).2.2 5 (by decide +kernel)
  obtain ⟨-, -, hended⟩ := hclosed [] _ List.foldl_nil trivial fun d hd => (by cases hd)
  refine ⟨hphase, by decide +kernel, ?_, ?_, hended, hphase', htaken⟩
  · rw [hstill.received]
    decide +kernel
  · rw [hstill.queue]
    decide +kernel

end Synchronizer
end BlockSync
