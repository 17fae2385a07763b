/-
  BlockSync.Proofs.Sync.Vitals
  ────────────────────────────
  **SIGNS OF LIFE.**

  The states of life come in an order, and a move is refused, with an event in the log,
  exactly if it goes back (`moveTo_eq`).  So the state never steps back, whoever moves it.
  What is worth counting are the refusals: nothing but a move writes one.

  Of a pipeline one sees its state, its refusals, and whether its importer is out of the
  loop (`Vitals`).  Two relations say how these change:

      Onward    the state does not step back, and who leaves the loop leaves it stopped
      Alone     besides, only the end of a loop moves the state, and no move is refused

  The first one is kept by whatever anybody does, the second one by whatever is done as long
  as nobody closes.

  Main results:

      allows_iff           the allowed moves are the moves forward
      refusals_call        a call writes no refusal
      vitals_of_step       a step changes nothing, or it is the step out of the loop
      CloseMove.onward     every step of a call to close leads onward
      CloseMove.refusals   the one step of it that can be refused is a move out of stopped
-/
import BlockSync.Proofs.Sync.Closing

namespace BlockSync

/-! ## §1. The order of states. -/

/-- The place of a state in a life. -/
def Lifecycle.rank : Lifecycle → Nat
  | .running => 0
  | .stopping => 1
  | .stopped => 2

/-- **The allowed moves are the moves forward.** -/
theorem Lifecycle.allows_iff {l m : Lifecycle} : l.allows m = true ↔ l.rank < m.rank := by
  cases l <;> cases m <;> decide

theorem Lifecycle.rank_injective {l m : Lifecycle} (h : l.rank = m.rank) : l = m := by
  cases l <;> cases m <;> first | rfl | cases h

theorem Lifecycle.rank_le_stopped (l : Lifecycle) : l.rank ≤ Lifecycle.stopped.rank := by
  cases l <;> decide

/-- Nothing comes after stopped. -/
theorem Lifecycle.eq_stopped_of_le {l : Lifecycle} (h : Lifecycle.stopped.rank ≤ l.rank) :
    l = .stopped :=
  rank_injective (Nat.le_antisymm l.rank_le_stopped h)

theorem Lifecycle.isRunning_iff {l : Lifecycle} : l.isRunning = true ↔ l = .running := by
  cases l <;> decide

/-! ## §2. Refusals in the log. -/

/-- Whether an event tells of a move that was refused. -/
def Event.isRefusal : Event → Bool
  | .transitionRefused .. => true
  | _ => false

namespace Pipeline

variable {σ : Type} {C : Chain σ} {p q r : Pipeline σ}

/-- How many moves were refused. -/
def refusals (p : Pipeline σ) : Nat := p.journal.countP Event.isRefusal

/-- **A move is refused exactly if it goes back.** -/
theorem moveTo_eq (p : Pipeline σ) (target : Lifecycle) :
    p.moveTo target = if p.lifecycle.rank ≤ target.rank then { p with lifecycle := target }
      else p.log [.transitionRefused p.lifecycle target] := by
  unfold moveTo
  by_cases hsame : p.lifecycle = target
  · rw [if_pos hsame, if_pos (Nat.le_of_eq (congrArg Lifecycle.rank hsame)), ← hsame]
  · have hne : p.lifecycle.rank ≠ target.rank := fun h => hsame (Lifecycle.rank_injective h)
    rw [if_neg hsame]
    by_cases hle : p.lifecycle.rank ≤ target.rank
    · rw [if_pos hle, if_pos (Lifecycle.allows_iff.mpr (Nat.lt_of_le_of_ne hle hne))]
    · rw [if_neg hle, if_neg fun h => hle (Nat.le_of_lt (Lifecycle.allows_iff.mp h))]

theorem FromQueue.isRefusal_eq_false {e : Event} (h : FromQueue e) : e.isRefusal = false := by
  cases h with
  | droppedExcess => rfl
  | indexLost => rfl

theorem refusals_log (p : Pipeline σ) {events : List Event}
    (h : ∀ e ∈ events, e.isRefusal = false) : (p.log events).refusals = p.refusals := by
  have hnone : events.countP Event.isRefusal = 0 :=
    List.countP_eq_zero.mpr fun e he => by rw [h e he]; exact Bool.false_ne_true
  show (events.reverse ++ p.journal).countP _ = _
  rw [List.countP_append, List.countP_reverse, hnone, Nat.zero_add]
  rfl

theorem refusals_ring (p : Pipeline σ) : p.ring.refusals = p.refusals := by
  unfold ring
  split
  · rfl
  · rfl

theorem refusals_onQueue {α : Type} (p : Pipeline σ) (op : BlockQueue → Reply BlockQueue α)
    (h : ∀ e ∈ (op p.queue).events, FromQueue e) : (p.onQueue op).2.refusals = p.refusals :=
  refusals_log { p with queue := (op p.queue).next } fun e he => (h e he).isRefusal_eq_false

theorem refusals_enqueue (p : Pipeline σ) (b : Block) :
    (p.enqueue b).2.refusals = p.refusals := by
  have hreply := p.refusals_onQueue (·.enqueue b) fun e => fromQueue_of_mem_enqueue
  cases h : (p.queue.enqueue b).answer with
  | ok u =>
    rw [p.enqueue_of_ok h]
    exact (refusals_ring _).trans hreply
  | error e =>
    rw [p.enqueue_of_error h]
    exact hreply

theorem refusals_enqueueBatch (p : Pipeline σ) (bs : List Block) :
    (p.enqueueBatch bs).2.refusals = p.refusals := by
  have hreply := p.refusals_onQueue (·.enqueueBatch bs)
    fun e => fromQueue_of_mem_enqueueBatch
  cases h : (p.queue.enqueueBatch bs).answer with
  | ok kept =>
    rw [p.enqueueBatch_of_ok h]
    show (if kept > 0 then _ else _ : Pipeline σ).refusals = _
    split
    · exact (refusals_ring _).trans hreply
    · exact hreply
  | error e =>
    rw [p.enqueueBatch_of_error h]
    exact hreply

theorem refusals_requeue (p : Pipeline σ) (b : Block) : (p.requeue b).refusals = p.refusals := by
  have happend := p.refusals_enqueue b
  unfold requeue
  split
  next heq =>
    rw [heq] at happend
    exact happend
  next heq =>
    rw [heq] at happend
    exact (refusals_log _ (by simp [Event.isRefusal])).trans happend

theorem refusals_settle (p : Pipeline σ) (b : Block) (elapsed : Nat) (v : Verdict) :
    (p.settle b elapsed v).refusals = p.refusals := by
  cases v with
  | outcome o =>
    cases o with
    | noParent =>
      -- the pipeline that the append meets
      let q := (p.measure fun m => m.observe (Float.ofNat elapsed / 1000)).measure fun m =>
        m.countOutcome Outcome.noParent.name
      exact ((q.log [.parentUnknown b.number]).refusals_requeue b).trans
        (refusals_log q (by simp [Event.isRefusal]))
    | _ => exact refusals_log _ (by simp [Event.isRefusal])
  | failed message => exact refusals_log _ (by simp [Event.isRefusal])
  | crashed payload => exact refusals_log _ (by simp [Event.isRefusal])

theorem refusals_take (C : Chain σ) (p : Pipeline σ) : (p.take C).refusals = p.refusals := by
  have hpoll := p.refusals_onQueue BlockQueue.poll fun e => fromQueue_of_mem_poll
  cases hanswer : p.queue.poll.answer with
  | ok b =>
    rw [p.take_of_ok C hanswer]
    exact (refusals_log _ (by simp [Event.isRefusal])).trans hpoll
  | error e =>
    by_cases he : e = .emptyQueue
    · subst he
      rw [p.take_of_empty C hanswer]
      exact hpoll
    · rw [p.take_of_error C he hanswer]
      exact (refusals_log _ (by simp [Event.isRefusal])).trans hpoll

end Pipeline
/-! ## §3. Signs of life. -/

/-- What is seen of a life: its state, how many moves were refused, and whether an
importer is out of its loop. -/
structure Vitals where
  lifecycle : Lifecycle
  refusals : Nat
  ended : Bool

namespace Vitals

variable {a b c : Vitals}

/-- After an importer has left its loop. -/
def left (a : Vitals) : Vitals := ⟨.stopped, a.refusals, true⟩

/-- A life goes on: the state does not step back, and who leaves the loop leaves it
stopped. -/
structure Onward (a b : Vitals) : Prop where
  forward : a.lifecycle.rank ≤ b.lifecycle.rank
  ended : a.ended = true → b.ended = true
  stopped : b.ended = true → a.ended = true ∨ b.lifecycle = .stopped

/-- A life goes on that nobody closes: only who leaves the loop moves the state, and no
move is refused. -/
structure Alone (a b : Vitals) : Prop extends Onward a b where
  undisturbed : b.lifecycle = a.lifecycle ∨ b.ended = true
  refusals : b.refusals = a.refusals

namespace Onward

theorem refl (a : Vitals) : Onward a a := ⟨Nat.le_refl _, id, Or.inl⟩

theorem of_eq (h : b = a) : Onward a b := h ▸ refl a

theorem trans (h : Onward a b) (h' : Onward b c) : Onward a c := by
  refine ⟨Nat.le_trans h.forward h'.forward, fun hended => h'.ended (h.ended hended),
    fun hended => ?_⟩
  rcases h'.stopped hended with hb | hc
  · -- from stopped on there is no way but to stay
    refine (h.stopped hb).imp id fun hstopped => Lifecycle.eq_stopped_of_le ?_
    rw [← hstopped]
    exact h'.forward
  · exact Or.inr hc

/-- Nobody comes back to running. -/
theorem ne_running (h : Onward a b) (ha : a.lifecycle ≠ .running) : b.lifecycle ≠ .running := by
  intro hb
  have hle : a.lifecycle.rank ≤ Lifecycle.running.rank := hb ▸ h.forward
  exact ha (Lifecycle.rank_injective (Nat.le_zero.mp hle))

end Onward

namespace Alone

theorem refl (a : Vitals) : Alone a a := ⟨.refl a, Or.inl rfl, rfl⟩

theorem of_eq (h : b = a) : Alone a b := h ▸ refl a

theorem trans (h : Alone a b) (h' : Alone b c) : Alone a c := by
  refine ⟨h.toOnward.trans h'.toOnward, ?_, h'.refusals.trans h.refusals⟩
  rcases h.undisturbed, h'.undisturbed with ⟨hb | hb, hc | hc⟩
  · exact Or.inl (hc.trans hb)
  · exact Or.inr hc
  · exact Or.inr (h'.ended hb)
  · exact Or.inr hc

theorem left (a : Vitals) : Alone a a.left :=
  ⟨⟨a.lifecycle.rank_le_stopped, fun _ => rfl, fun _ => Or.inr rfl⟩, Or.inr rfl, rfl⟩

end Alone
end Vitals

namespace Pipeline

variable {σ : Type} {C : Chain σ} {p q : Pipeline σ}

/-- The signs of life of a pipeline. -/
def vitals (p : Pipeline σ) : Vitals := ⟨p.lifecycle, p.refusals, p.hasEnded⟩

theorem vitals_eq (hlifecycle : q.lifecycle = p.lifecycle) (hrefusals : q.refusals = p.refusals)
    (hended : q.hasEnded = p.hasEnded) : q.vitals = p.vitals := by
  unfold vitals
  rw [hlifecycle, hrefusals, hended]

theorem Nudges.vitals (h : Nudges p q) (hrefusals : q.refusals = p.refusals) :
    q.vitals = p.vitals :=
  vitals_eq h.lifecycle hrefusals h.hasEnded

/-- **Wherever somebody tries to move the state**, it does not step back. -/
theorem onward_moveTo (p : Pipeline σ) (target : Lifecycle) :
    p.vitals.Onward (p.moveTo target).vitals := by
  rw [moveTo_eq]
  split
  next hle => exact ⟨hle, id, Or.inl⟩
  next => exact ⟨Nat.le_refl _, id, Or.inl⟩

theorem vitals_stop (p : Pipeline σ) : p.stop.vitals = p.vitals.left := by
  unfold Pipeline.stop
  rw [moveTo_stopped]
  exact congrArg (Vitals.mk .stopped · true)
    (refusals_log { p with lifecycle := .stopped } (by simp [Event.isRefusal]))

theorem vitals_take (C : Chain σ) (hlive : p.hasEnded = false) :
    (p.take C).vitals = p.vitals := by
  have hended : (p.take C).hasEnded = false := by
    cases hanswer : p.queue.poll.answer with
    | ok b => rw [p.take_of_ok C hanswer]; rfl
    | error e =>
      by_cases he : e = .emptyQueue
      · subst he
        rw [p.take_of_empty C hanswer]
        rfl
      · rw [p.take_of_error C he hanswer]
        rfl
  exact vitals_eq (life_take C p).1 (refusals_take C p) (hended.trans hlive.symm)

theorem stopSignalled_take (C : Chain σ) (p : Pipeline σ) :
    (p.take C).importer.stopSignalled = p.importer.stopSignalled := by
  obtain ⟨queue, chain, journal, phase, htake, -⟩ := p.exists_take_eq C
  rw [htake]

theorem vitals_finish (b : Block) (since : Nat) (v : Verdict) (hlive : p.hasEnded = false) :
    (p.finish b since v).vitals = p.vitals := by
  have hended : (p.finish b since v).hasEnded = false := by
    cases v with
    | outcome o => cases o <;> rfl
    | _ => rfl
  refine vitals_eq (lifecycle_finish p b since v) ?_ (hended.trans hlive.symm)
  obtain ⟨phase, -, hfinish⟩ := p.finish_eq_goTo b since v
  rw [hfinish]
  exact p.refusals_settle b _ v

/-- **A step leaves the signs of life as they are**, and the signal to stop with them, or the
importer was told to stop and it is the step out of the loop. -/
theorem vitals_of_step (h : p.step C = some q) :
    q.vitals = p.vitals ∧ q.importer.stopSignalled = p.importer.stopSignalled
      ∨ q.vitals = p.vitals.left ∧ p.importer.stopSignalled = true := by
  obtain ⟨hlive, -⟩ := life_of_step h
  cases move_of_step h with
  | started hphase =>
    exact Or.inl ⟨vitals_eq rfl (refusals_log _ (by simp [Event.isRefusal])) hlive.symm, rfl⟩
  | stopped hrest hstop => exact Or.inr ⟨vitals_stop p, hstop⟩
  | took hphase hstop => exact Or.inl ⟨vitals_take C hlive, stopSignalled_take C p⟩
  | @finished b since v chain hphase hchain =>
    exact Or.inl ⟨vitals_finish (p := { p with chain := chain }) b since v hlive,
      stopSignalled_finish { p with chain := chain } b since v⟩
  | woke hphase hdue => exact Or.inl ⟨vitals_eq rfl rfl hlive.symm, rfl⟩

end Pipeline

/-! ## §4. Calls. -/

namespace Synchronizer

variable {σ : Type}

theorem refusals_onFrontier {α : Type} (s : Synchronizer σ)
    (op : Frontier → Reply Frontier α) (h : (op s.frontier).events = []) :
    (s.onFrontier op).2.pipeline.refusals = s.pipeline.refusals :=
  s.pipeline.refusals_log (by rw [h]; exact fun e he => nomatch he)

theorem refusals_onFrontierGauged {α : Type} (s : Synchronizer σ)
    {op : Frontier → Reply Frontier α} (h : (op s.frontier).events = []) :
    (s.onFrontierGauged op).2.pipeline.refusals = s.pipeline.refusals := by
  have hop := s.refusals_onFrontier op h
  unfold onFrontierGauged
  split
  next heq =>
    rw [heq] at hop
    exact hop
  next => exact hop

theorem refusals_addBlock (s : Synchronizer σ) (b : Block) :
    (s.addBlock b).2.pipeline.refusals = s.pipeline.refusals := by
  have happend := s.pipeline.refusals_enqueue b
  unfold addBlock
  split
  next heq =>
    rw [heq] at happend
    exact happend
  next heq =>
    rw [heq] at happend
    exact (Pipeline.refusals_log _ (by simp [Event.isRefusal])).trans happend

theorem refusals_addBlocks (s : Synchronizer σ) (bs : List Block) :
    (s.addBlocks bs).2.pipeline.refusals = s.pipeline.refusals := by
  have happend := s.pipeline.refusals_enqueueBatch bs
  unfold addBlocks
  split
  next => rfl
  next =>
    split
    next heq =>
      rw [heq] at happend
      exact happend
    next heq =>
      rw [heq] at happend
      exact (Pipeline.refusals_log _ (by simp [Event.isRefusal])).trans happend

theorem refusals_addHash (s : Synchronizer σ) (h : BlockHash) :
    (s.addHash h).2.pipeline.refusals = s.pipeline.refusals := by
  have hop := s.refusals_onFrontier (·.pushFront h) (s.frontier.events_pushFrontBatch [h])
  unfold addHash
  split
  next heq =>
    rw [heq] at hop
    exact (Pipeline.refusals_log _ (by simp [Event.isRefusal])).trans hop
  next => exact hop

theorem refusals_addHashes (s : Synchronizer σ) (hs : List BlockHash) :
    (s.addHashes hs).2.pipeline.refusals = s.pipeline.refusals := by
  have hlog : (s.pipeline.log (hs.map fun h => .announced h s.frontier.length)).refusals
      = s.pipeline.refusals :=
    s.pipeline.refusals_log (by simp [Event.isRefusal])
  unfold addHashes
  dsimp only
  split
  · refine (refusals_onFrontierGauged _ (Frontier.events_pushFrontBatch _ _)).trans ?_
    exact (Pipeline.refusals_log _ (by simp [Event.isRefusal])).trans hlog
  · exact (refusals_onFrontierGauged _ (Frontier.events_pushFrontBatch _ _)).trans hlog

theorem refusals_returnHashes (s : Synchronizer σ) (hs : List BlockHash) :
    (s.returnHashes hs).2.pipeline.refusals = s.pipeline.refusals := by
  unfold returnHashes
  split
  · rfl
  · refine (refusals_onFrontierGauged _ (Frontier.events_pushFrontBatch _ _)).trans ?_
    exact Pipeline.refusals_log _ (by simp [Event.isRefusal])

theorem refusals_call (s : Synchronizer σ) (c : Call) :
    (s.call c).pipeline.refusals = s.pipeline.refusals := by
  cases c with
  | addBlocks bs => exact s.refusals_addBlocks bs
  | addBlock b => exact s.refusals_addBlock b
  | setBestHash h => exact s.refusals_onFrontierGauged (s.frontier.events_reset h)
  | addHash h => exact s.refusals_addHash h
  | addHashes hs => exact s.refusals_addHashes hs
  | addNewBlockHash h => exact s.refusals_onFrontierGauged (s.frontier.events_pushBack h)
  | returnHashes hs => exact s.refusals_returnHashes hs
  | takeHashes => exact s.refusals_onFrontierGauged (s.frontier.events_drainFront _)
  | logFrontierSize => exact s.pipeline.refusals_log (by simp [Event.isRefusal])
  | setHighestDifficulty d => rfl
  | clear => rfl

/-- The beginning moves nothing. -/
theorem refusals_start {settings : Settings} {canRun : Bool} {site : Site σ}
    {s : Synchronizer σ} (h : start settings canRun site = .ok s) :
    s.pipeline.refusals = site.pipeline.refusals := by
  unfold start at h
  obtain ⟨-, -, h⟩ := exists_of_bind_ok h
  dsimp only at h
  split at h
  · cases h
  · obtain ⟨last, -, h⟩ := exists_of_bind_ok h
    cases h
    cases last with
    | none => rfl
    | some b => exact site.pipeline.refusals_log (by simp [resumeEvents, Event.isRefusal])

/-! ## §5. The steps of a call to close. -/

/-- A call to close that comes to its end says stopped, which is never refused. -/
theorem vitals_finishClose (s : Synchronizer σ) :
    (s.onSite Site.finishClose).pipeline.vitals
      = { s.pipeline.vitals with lifecycle := .stopped } := by
  unfold onSite Site.finishClose
  rw [Pipeline.moveTo_stopped]
  exact Pipeline.vitals_eq (p := { s.pipeline with lifecycle := .stopped }) rfl
    (Pipeline.refusals_log _ (by simp [Event.isRefusal])) rfl

/-- The steps of a call to close, with the synchronizers and the places they lead to. -/
inductive CloseMove (s : Synchronizer σ) : Closer → Synchronizer σ → Closer → Prop where
  | moved (running : Bool) : CloseMove s (.looked running) (s.leaveRunning running) .moved
  | signalled : CloseMove s .moved s.signalStop .signalled
  | tookHandle (hjoin : s.joinable = true) : CloseMove s .signalled s.takeHandle .waiting
  | passedBy (hjoin : s.joinable = false) : CloseMove s .signalled s .free
  | awaited (hended : s.pipeline.hasEnded = true) :
      CloseMove s .waiting { s with closing := false } .free
  | finished : CloseMove s .free (s.onSite Site.finishClose) .gone

variable {s t : Synchronizer σ} {k k' : Closer}

theorem closeMove_of_step (h : s.closeStep k = some (t, k')) : CloseMove s k t k' := by
  cases k with
  | looked running =>
    cases h
    exact .moved running
  | moved =>
    cases h
    exact .signalled
  | signalled =>
    cases hjoin : s.joinable with
    | true =>
      simp only [closeStep, hjoin, if_true] at h
      cases h
      exact .tookHandle hjoin
    | false =>
      simp only [closeStep, hjoin, Bool.false_eq_true, if_false] at h
      cases h
      exact .passedBy hjoin
  | waiting =>
    cases hended : s.pipeline.hasEnded with
    | true =>
      simp only [closeStep, hended, if_true] at h
      cases h
      exact .awaited hended
    | false =>
      simp only [closeStep, hended, Bool.false_eq_true, if_false] at h
      cases h
  | free =>
    cases h
    exact .finished
  | gone => cases h

/-- **Every step of a call to close leads onward**, wherever it finds the state. -/
theorem CloseMove.onward (h : CloseMove s k t k') :
    s.pipeline.vitals.Onward t.pipeline.vitals := by
  cases h with
  | moved running =>
    cases running with
    | true => exact s.pipeline.onward_moveTo .stopping
    | false => exact .refl _
  | finished =>
    rw [s.vitals_finishClose]
    exact ⟨s.pipeline.lifecycle.rank_le_stopped, id, Or.inl⟩
  | _ => exact .refl _

/-- One step of it signals the importer to stop. -/
theorem CloseMove.stopSignalled (h : CloseMove s k t k')
    (hsignal : t.pipeline.importer.stopSignalled = true) :
    s.pipeline.importer.stopSignalled = true ∨ k = .moved := by
  cases h with
  | moved running =>
    cases running with
    | true =>
      refine Or.inl (Eq.trans ?_ hsignal)
      show _ = (s.pipeline.moveTo .stopping).importer.stopSignalled
      obtain ⟨life, events, hmove⟩ := s.pipeline.exists_moveTo_eq .stopping
      rw [hmove]
      rfl
    | false => exact Or.inl hsignal
  | signalled => exact Or.inr rfl
  | finished =>
    refine Or.inl (Eq.trans ?_ hsignal)
    unfold onSite Site.finishClose
    rw [Pipeline.moveTo_stopped]
    rfl
  | _ => exact Or.inl hsignal

/-- **The one step that can be refused** is the move of a call that saw the importer running,
when the state is stopped by then. -/
theorem CloseMove.refusals (h : CloseMove s k t k')
    (hk : k = .looked true → s.lifecycle ≠ .stopped) :
    t.pipeline.refusals = s.pipeline.refusals := by
  cases h with
  | moved running =>
    cases running with
    | true =>
      show (s.pipeline.moveTo .stopping).refusals = _
      -- from anywhere but stopped the way to stopping leads forward
      have hle : s.pipeline.lifecycle.rank ≤ Lifecycle.stopping.rank :=
        Nat.le_of_lt_succ (Nat.lt_of_le_of_ne s.pipeline.lifecycle.rank_le_stopped
          fun hrank => hk rfl (Lifecycle.rank_injective hrank))
      rw [Pipeline.moveTo_eq, if_pos hle]
      rfl
    | false => rfl
  | finished => exact congrArg Vitals.refusals s.vitals_finishClose
  | _ => rfl

/-- That move is refused, and changes nothing but the log. -/
theorem leaveRunning_of_stopped (h : s.lifecycle = .stopped) :
    s.leaveRunning true
      = { s with pipeline := s.pipeline.log [.transitionRefused .stopped .stopping] } := by
  have hlife : s.pipeline.lifecycle = .stopped := h
  unfold leaveRunning
  rw [if_pos rfl, Pipeline.moveTo_eq, hlife]
  rfl

/-- After its move a call to close does not find the state running, if that is what it saw. -/
theorem leaveRunning_ne_running (s : Synchronizer σ) {running : Bool}
    (h : running = false → s.lifecycle ≠ .running) :
    (s.leaveRunning running).lifecycle ≠ .running := by
  cases running with
  | true =>
    show (s.pipeline.moveTo .stopping).lifecycle ≠ .running
    rw [Pipeline.moveTo_eq]
    split
    · exact fun hrunning => nomatch hrunning
    -- a refused move was refused because the state is past stopping
    next hle => exact fun hrunning => hle (hrunning.symm ▸ Nat.zero_le _)
  | false => exact h rfl

end Synchronizer
end BlockSync
