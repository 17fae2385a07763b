/-
  BlockSync.Proofs.Sync.Closing
  ─────────────────────────────
  **WHEN CLOSED MEANS STOPPED.**

  The first call to close waits for the importer to leave its loop.  A further
  call does not wait: it says stopped and comes to its end at once
  (`close_of_joined`), even while the first one waits and an import is in progress
  (`stopped_closedTwice`).

  If no call to close begins while another one waits for a live importer
  (`Orderly`), a synchronizer that reads stopped, or of which a call to close has
  come to its end, has an importer out of its loop; and from then on nothing brings
  it back, whoever calls what (`ended_of_closed`).

  The invariant is `Settled`.  Callers only nudge the importer (`Served`), and a
  step of the importer says stopped only when it leaves the loop.
-/
import BlockSync.Chain.Scripted
import BlockSync.Proofs.Sync.Recording
import BlockSync.Proofs.Sync.Synchronizer

namespace BlockSync

namespace Pipeline

variable {σ : Type} {C : Chain σ}

/-! ## §1. What a step says of the importer's life. -/

theorem life_take (C : Chain σ) (p : Pipeline σ) :
    (p.take C).lifecycle = p.lifecycle ∧ (p.take C).closings = p.closings := by
  have hpoll := Nudges.onQueue p BlockQueue.poll (closed_notMem_poll p.queue)
  cases hanswer : p.queue.poll.answer with
  | ok b =>
    rw [p.take_of_ok C hanswer]
    exact ⟨hpoll.lifecycle, (closings_log _ (by simp)).trans hpoll.closings⟩
  | error e =>
    by_cases he : e = .emptyQueue
    · subst he
      rw [p.take_of_empty C hanswer]
      exact ⟨hpoll.lifecycle, hpoll.closings⟩
    · rw [p.take_of_error C he hanswer]
      exact ⟨hpoll.lifecycle, (closings_log _ (by simp)).trans hpoll.closings⟩

/-- **A step leaves the state of life alone**, or it leaves the loop. -/
theorem life_of_step {p q : Pipeline σ} (h : p.step C = some q) :
    p.hasEnded = false
      ∧ (q.hasEnded = true ∨ q.lifecycle = p.lifecycle ∧ q.closings = p.closings) := by
  refine ⟨Bool.eq_false_iff.mpr fun hended => ?_, ?_⟩
  · rw [step_of_hasEnded hended] at h
    cases h
  · cases move_of_step h with
    | started hphase => exact Or.inr ⟨rfl, closings_log _ (by simp)⟩
    | stopped hrest hstop => exact Or.inl rfl
    | took hphase hstop => exact Or.inr (life_take C p)
    | finished hphase hchain => exact Or.inr ⟨lifecycle_finish _ _ _ _, closings_finish _ _ _ _⟩
    | woke hphase hdue => exact Or.inr ⟨rfl, rfl⟩

/-- To stopped one comes from anywhere, without a word in the log. -/
theorem moveTo_stopped (p : Pipeline σ) : p.moveTo .stopped = { p with lifecycle := .stopped } := by
  unfold moveTo
  cases hlife : p.lifecycle with
  | stopped =>
    rw [if_pos rfl, ← hlife]
  | _ => rfl

end Pipeline

namespace Synchronizer

variable {σ : Type} {C : Chain σ}

/-! ## §2. What happens to a synchronizer. -/

/-- What may happen to a synchronizer, in front of it and behind it. -/
inductive Deed (σ : Type) where
  | call (c : Call)
  | close
  /-- The call to close that waits gets its turn. -/
  | resume
  | work
  | wait (ms : Nat)
  /-- The chain changes by itself. -/
  | stir (f : σ → σ)

/-- The synchronizer after a deed. -/
def happen (C : Chain σ) (s : Synchronizer (Recorded σ)) : Deed σ → Synchronizer (Recorded σ)
  | .call c => s.call c
  | .close => s.close
  | .resume => s.onSite Site.resumeClose
  | .work => s.work C.recorded
  | .wait ms => { s with pipeline := s.pipeline.wait ms }
  | .stir f =>
    { s with pipeline := { s.pipeline with
        chain := { s.pipeline.chain with state := f s.pipeline.chain.state } } }

/-- The synchronizer after some deeds. -/
def after (C : Chain σ) (deeds : List (Deed σ)) (s : Synchronizer (Recorded σ)) :
    Synchronizer (Recorded σ) :=
  deeds.foldl (happen C) s

/-- No call to close begins while another one waits for a live importer. -/
def Orderly (C : Chain σ) : List (Deed σ) → Synchronizer (Recorded σ) → Prop
  | [], _ => True
  | d :: deeds, s =>
    (d = .close → s.closing = true → s.pipeline.hasEnded = true)
      ∧ Orderly C deeds (s.happen C d)

/-- What a deed leaves alone that is neither a call nor work of the importer. -/
structure Quiet (s t : Synchronizer (Recorded σ)) : Prop where
  queue : t.pipeline.queue = s.pipeline.queue
  phase : t.pipeline.importer.phase = s.pipeline.importer.phase
  received : t.pipeline.chain.received = s.pipeline.chain.received
  concluded : t.pipeline.chain.concluded = s.pipeline.chain.concluded

/-- A call to close begins: unless the importer's life is over already, it is
stopping. -/
theorem exists_leaveRunning_eq (s : Synchronizer σ) :
    ∃ life, (life = .stopped → s.lifecycle = .stopped)
      ∧ s.leaveRunning s.lifecycle.isRunning
        = { s with pipeline := { s.pipeline with lifecycle := life } } := by
  cases hlife : s.pipeline.lifecycle with
  | running =>
    refine ⟨.stopping, fun h => (by cases h), ?_⟩
    unfold leaveRunning lifecycle Pipeline.moveTo
    rw [hlife]
    rfl
  | stopping =>
    refine ⟨.stopping, fun h => (by cases h), ?_⟩
    unfold leaveRunning lifecycle
    rw [hlife]
    show s = _
    rw [← hlife]
  | stopped =>
    refine ⟨.stopped, fun _ => hlife, ?_⟩
    unfold leaveRunning lifecycle
    rw [hlife]
    show s = _
    rw [← hlife]

/-- The first call to close waits. -/
theorem exists_close_of_joinable {s : Synchronizer σ} (h : s.joinable = true) :
    ∃ life, (life = .stopped → s.lifecycle = .stopped)
      ∧ s.close = { s with
          pipeline := { s.pipeline with lifecycle := life }.signalStop
          joinable := false
          closing := true } := by
  obtain ⟨life, hlife, hbegin⟩ := s.exists_leaveRunning_eq
  refine ⟨life, hlife, ?_⟩
  unfold close
  rw [hbegin]
  exact if_pos h

/-- **A further call to close does not wait**: it says stopped and comes to its end,
whatever the importer does. -/
theorem close_of_joined {s : Synchronizer σ} (h : s.joinable = false) :
    s.close = { s with pipeline :=
      ({ s.pipeline with lifecycle := .stopped }.signalStop).log [.closed] } := by
  obtain ⟨life, -, hbegin⟩ := s.exists_leaveRunning_eq
  unfold close
  rw [hbegin]
  refine (if_neg (Bool.eq_false_iff.mp h)).trans ?_
  unfold onSite Site.finishClose
  rw [Pipeline.moveTo_stopped]
  rfl

/-- The call to close that waits comes to its end, if the importer is out of its
loop. -/
theorem resume_eq (s : Synchronizer σ) :
    s.onSite Site.resumeClose = s
      ∨ s.closing = true ∧ s.pipeline.hasEnded = true
        ∧ s.onSite Site.resumeClose = { s with
            closing := false
            pipeline := { s.pipeline with lifecycle := .stopped }.log [.closed] } := by
  unfold onSite Site.resumeClose
  cases hclosing : s.closing with
  | false => exact Or.inl rfl
  | true =>
    cases hended : s.pipeline.hasEnded with
    | false => exact Or.inl rfl
    | true =>
      refine Or.inr ⟨rfl, rfl, ?_⟩
      unfold Site.finishClose
      rw [Pipeline.moveTo_stopped]
      rfl

namespace Quiet

variable {s t : Synchronizer (Recorded σ)}

theorem refl (s : Synchronizer (Recorded σ)) : Quiet s s := ⟨rfl, rfl, rfl, rfl⟩

theorem hasEnded (h : Quiet s t) : t.pipeline.hasEnded = s.pipeline.hasEnded := by
  unfold Pipeline.hasEnded
  rw [h.phase]

theorem close (s : Synchronizer (Recorded σ)) : Quiet s s.close := by
  cases h : s.joinable with
  | true =>
    obtain ⟨life, -, hclose⟩ := exists_close_of_joinable h
    rw [hclose]
    exact ⟨rfl, rfl, rfl, rfl⟩
  | false =>
    rw [close_of_joined h]
    exact ⟨rfl, rfl, rfl, rfl⟩

theorem resume (s : Synchronizer (Recorded σ)) : Quiet s (s.onSite Site.resumeClose) := by
  rcases s.resume_eq with hresume | ⟨-, -, hresume⟩
  · rw [hresume]
    exact refl s
  · rw [hresume]
    exact ⟨rfl, rfl, rfl, rfl⟩

/-- An importer out of its loop does nothing, and only calls reach the queue. -/
theorem happen {d : Deed σ} (hended : s.pipeline.hasEnded = true) (hd : ∀ c, d ≠ .call c) :
    Quiet s (s.happen C d) := by
  cases d with
  | call c => exact absurd rfl (hd c)
  | close => exact close s
  | resume => exact resume s
  | work =>
    show Quiet s (s.work C.recorded)
    rw [work_of_rest (Pipeline.step_of_hasEnded hended)]
    exact refl s
  | wait ms => exact ⟨rfl, rfl, rfl, rfl⟩
  | stir f => exact ⟨rfl, rfl, rfl, rfl⟩

end Quiet

theorem Served.hasEnded {s t : Synchronizer σ} (h : Served s t) :
    t.pipeline.hasEnded = s.pipeline.hasEnded :=
  h.pipeline.hasEnded

/-! ## §3. Once out of the loop. -/

/-- An importer out of its loop stays there, and the chain hears nothing more. -/
structure Over (s t : Synchronizer (Recorded σ)) : Prop where
  hasEnded : t.pipeline.hasEnded = true
  received : t.pipeline.chain.received = s.pipeline.chain.received
  concluded : t.pipeline.chain.concluded = s.pipeline.chain.concluded

theorem Over.happen {s t : Synchronizer (Recorded σ)} (h : Over s t) (d : Deed σ) :
    Over s (t.happen C d) := by
  by_cases hd : ∃ c, d = .call c
  · obtain ⟨c, rfl⟩ := hd
    have hserved := Served.call t c
    exact ⟨hserved.hasEnded.trans h.hasEnded,
      (congrArg Recorded.received hserved.pipeline.chain).trans h.received,
      (congrArg Recorded.concluded hserved.pipeline.chain).trans h.concluded⟩
  · have hquiet : Quiet t (t.happen C d) := .happen h.hasEnded fun c hc => hd ⟨c, hc⟩
    exact ⟨hquiet.hasEnded.trans h.hasEnded, hquiet.received.trans h.received,
      hquiet.concluded.trans h.concluded⟩

theorem Over.after {s : Synchronizer (Recorded σ)} (deeds : List (Deed σ)) :
    ∀ {t : Synchronizer (Recorded σ)}, Over s t → Over s (t.after C deeds) := by
  induction deeds with
  | nil => intro t h; exact h
  | cons d deeds ih => intro t h; exact ih (h.happen d)

/-! ## §4. The invariant of an orderly life. -/

/-- Unless its importer is out of the loop, a synchronizer does not read stopped,
no call to close has come to its end since there were `n` of them, and the call
that took the importer's end upon itself still waits. -/
structure Settled (n : Nat) (s : Synchronizer σ) : Prop where
  stopped : s.lifecycle = .stopped → s.pipeline.hasEnded = true
  closed : s.pipeline.closings ≠ n → s.pipeline.hasEnded = true
  waits : s.joinable = false → s.closing = true ∨ s.pipeline.hasEnded = true

namespace Settled

variable {n : Nat} {s t : Synchronizer (Recorded σ)}

theorem of_hasEnded (h : t.pipeline.hasEnded = true) : Settled n t :=
  ⟨fun _ => h, fun _ => h, fun _ => Or.inr h⟩

theorem close (h : Settled n s) (horderly : s.closing = true → s.pipeline.hasEnded = true) :
    Settled n s.close := by
  cases hjoin : s.joinable with
  | true =>
    obtain ⟨life, hlife, hclose⟩ := exists_close_of_joinable hjoin
    rw [hclose]
    exact ⟨fun hstopped => h.stopped (hlife hstopped), h.closed, fun _ => Or.inl rfl⟩
  | false =>
    -- the call that waited before is at its end, so the importer is
    have hended : s.pipeline.hasEnded = true := (h.waits hjoin).elim horderly id
    exact of_hasEnded ((Quiet.close s).hasEnded.trans hended)

theorem resume (h : Settled n s) : Settled n (s.onSite Site.resumeClose) := by
  rcases s.resume_eq with hresume | ⟨-, hended, -⟩
  · rw [hresume]
    exact h
  · exact of_hasEnded ((Quiet.resume s).hasEnded.trans hended)

theorem work (h : Settled n s) : Settled n (s.work C.recorded) := by
  cases hstep : s.pipeline.step C.recorded with
  | none =>
    rw [work_of_rest hstep]
    exact h
  | some p =>
    rw [work_of_step hstep]
    obtain ⟨hlive, hended | ⟨hlife, hclosings⟩⟩ := Pipeline.life_of_step hstep
    · -- the step out of the loop
      exact of_hasEnded hended
    · -- the importer was in its loop, so nothing had been said
      have hfalse : ¬ s.pipeline.hasEnded = true := by rw [hlive]; exact Bool.false_ne_true
      refine ⟨fun hstopped => ?_, fun hclosed => ?_, fun hjoin => ?_⟩
      · exact absurd (h.stopped (hlife.symm.trans hstopped)) hfalse
      · exact absurd (h.closed fun hn => hclosed (hclosings.trans hn)) hfalse
      · exact Or.inl ((h.waits hjoin).resolve_right hfalse)

/-- **Each deed of an orderly life keeps the invariant.** -/
theorem happen (h : Settled n s) (d : Deed σ)
    (horderly : d = .close → s.closing = true → s.pipeline.hasEnded = true) :
    Settled n (s.happen C d) := by
  cases d with
  | call c =>
    have hserved := Served.call s c
    refine ⟨fun hstopped => ?_, fun hclosed => ?_, fun hjoin => ?_⟩
    · exact hserved.hasEnded.trans (h.stopped (hserved.pipeline.lifecycle.symm.trans hstopped))
    · refine hserved.hasEnded.trans (h.closed fun hn => hclosed ?_)
      exact hserved.pipeline.closings.trans hn
    · rcases h.waits (hserved.joinable.symm.trans hjoin) with hwaits | hended
      · exact Or.inl (hserved.closing.trans hwaits)
      · exact Or.inr (hserved.hasEnded.trans hended)
  | close => exact h.close (horderly rfl)
  | resume => exact h.resume
  | work => exact h.work
  | wait ms => exact ⟨h.stopped, h.closed, h.waits⟩
  | stir f => exact ⟨h.stopped, h.closed, h.waits⟩

theorem after (deeds : List (Deed σ)) :
    ∀ {s : Synchronizer (Recorded σ)}, Settled n s → Orderly C deeds s →
      Settled n (s.after C deeds) := by
  induction deeds with
  | nil => intro s h _; exact h
  | cons d deeds ih => intro s h horderly; exact ih (h.happen d horderly.1) horderly.2

/-- A synchronizer that has started reads running, and nobody has closed it. -/
theorem of_start {settings : Settings} {canRun : Bool} {site : Site (Recorded σ)}
    (h : start settings canRun site = .ok s) : Settled s.pipeline.closings s := by
  obtain ⟨events, hpipeline⟩ := exists_pipeline_start h
  refine ⟨fun hstopped => ?_, fun hclosed => absurd rfl hclosed, fun hjoin => ?_⟩
  · unfold lifecycle at hstopped
    rw [hpipeline] at hstopped
    cases hstopped
  · rw [(unjoined_start h).1] at hjoin
    cases hjoin

end Settled

/-- **WHEN CLOSED MEANS STOPPED.**  In an orderly life a synchronizer that reads
stopped, or of which a call to close has come to its end, has an importer out of
its loop.  Whatever is done from then on, in an orderly way or not, the importer
stays there with no block in its hands, the chain is handed nothing and ends
nothing, and the queue changes by calls only. -/
theorem ended_of_closed {settings : Settings} {canRun : Bool} {site : Site (Recorded σ)}
    {s₀ s : Synchronizer (Recorded σ)} {deeds : List (Deed σ)}
    (hstart : start settings canRun site = .ok s₀) (horderly : Orderly C deeds s₀)
    (hs : s₀.after C deeds = s)
    (hclosed : s.lifecycle = .stopped ∨ s.pipeline.closings ≠ s₀.pipeline.closings) :
    s.pipeline.hasEnded = true
      ∧ ∀ more t, s.after C more = t →
        t.pipeline.hasEnded = true ∧ t.pipeline.importer.inFlight = []
          ∧ t.pipeline.chain.received = s.pipeline.chain.received
          ∧ t.pipeline.chain.concluded = s.pipeline.chain.concluded
          ∧ ∀ d : Deed σ, (∀ c, d ≠ .call c) →
            (t.happen C d).pipeline.queue = t.pipeline.queue := by
  have hsettled : Settled s₀.pipeline.closings s :=
    hs ▸ (Settled.of_start hstart).after deeds horderly
  have hended : s.pipeline.hasEnded = true := hclosed.elim hsettled.stopped hsettled.closed
  refine ⟨hended, ?_⟩
  rintro more t rfl
  have hover : Over s (s.after C more) := Over.after more ⟨hended, rfl, rfl⟩
  refine ⟨hover.hasEnded, Pipeline.inFlight_of_hasEnded hover.hasEnded, hover.received,
    hover.concluded, ?_⟩
  intro d hd
  exact (Quiet.happen hover.hasEnded hd).queue

/-- A synchronizer at its beginning, over a chain that waits for permits. -/
def gatekept : Synchronizer (Recorded ScriptedChain) :=
  let genesis : Block := .linking 0 (.replicate 0) (.replicate 0)
  { frontier := .empty
    pipeline :=
      { queue := .empty 10
        chain := .start ((ScriptedChain.start genesis false true).script (.replicate 100)
          [.outcome .noParent])
        metrics := none
        lifecycle := .running
        importer := .fresh 20
        clock := 0
        journal := [] }
    closing := false
    settings := ⟨2, 10, 20⟩
    lastBlock := none
    highestDifficulty := .zero
    joinable := true }

/-- A block is queued, its import begins, and somebody closes. -/
def closedInImport : List (Deed ScriptedChain) :=
  [.call (.addBlock (.linking 100 (.replicate 100) (.replicate 99))), .work, .work, .close]

/-- Somebody closes a second time while the import is in progress.  That call comes
to its end and stopped is what is read, but the import ends later, and its block
goes back into the queue. -/
theorem stopped_closedTwice :
    start ⟨2, 10, 20⟩ true gatekept.toSite = .ok gatekept
      ∧ let s := gatekept.after ScriptedChain.chain (closedInImport ++ [.close])
        s.pipeline.closings = 1 ∧ s.lifecycle = .stopped ∧ s.pipeline.hasEnded = false
          ∧ s.pipeline.importer.inFlight = [.linking 100 (.replicate 100) (.replicate 99)]
          ∧ s.pipeline.queue.length = 0
          ∧ (s.after ScriptedChain.chain
            [.stir (·.release 1), .work]).pipeline.queue.length = 1 :=
  ⟨rfl, by decide +kernel, by decide +kernel, by decide +kernel, by decide +kernel,
    by decide +kernel, by decide +kernel⟩

/-- The import ends, the importer leaves its loop, and the call to close goes on. -/
def closedOnce : List (Deed ScriptedChain) :=
  closedInImport ++ [.resume, .stir (·.release 1), .work, .work, .resume]

/-- Then closing again and queueing another block brings nothing back. -/
theorem ended_of_closed_closedOnce :
    let s := gatekept.after ScriptedChain.chain closedOnce
    let another : Deed ScriptedChain :=
      .call (.addBlock (.linking 1 (.replicate 1) (.replicate 0)))
    Orderly ScriptedChain.chain closedOnce gatekept
      ∧ s.pipeline.closings ≠ gatekept.pipeline.closings ∧ s.pipeline.hasEnded = true
      ∧ (s.after ScriptedChain.chain [another, .close, .work]).pipeline.chain.received
        = s.pipeline.chain.received := by
  intro s another
  have hstart : start ⟨2, 10, 20⟩ true gatekept.toSite = .ok gatekept := rfl
  have horderly : Orderly ScriptedChain.chain closedOnce gatekept :=
    ⟨fun h => (by cases h), fun h => (by cases h), fun h => (by cases h),
      fun _ hclosing => absurd hclosing (by decide +kernel), fun h => (by cases h),
      fun h => (by cases h), fun h => (by cases h), fun h => (by cases h),
      fun h => (by cases h), trivial⟩
  have hclosed : s.pipeline.closings ≠ gatekept.pipeline.closings := by decide +kernel
  obtain ⟨hended, hover⟩ := ended_of_closed hstart horderly rfl (Or.inr hclosed)
  exact ⟨horderly, hclosed, hended, (hover _ _ rfl).2.2.1⟩

end Synchronizer
end BlockSync
