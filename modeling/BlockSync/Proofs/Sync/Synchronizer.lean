/-
  BlockSync.Proofs.Sync.Synchronizer
  ──────────────────────────────────
  **WHAT THE CALLERS DO TO THE PIPELINE.**

  A synchronizer starts with the queue and the chain it is given, and with an
  importer that has not run (`exists_pipeline_start`).  A call at most wakes that
  importer (`Served.call`).  Of the calls only those that append blocks and the one
  that clears touch the queue, each by the queue's own operation.
-/
import BlockSync.Proofs.Block.Binary
import BlockSync.Proofs.Sync.Pipeline
import BlockSync.Sync.Synchronizer

namespace BlockSync

/-! ## §1. What a frontier logs: nothing. -/

namespace Frontier

/-- What a frontier logs has nothing to do with calls to close, for it logs nothing. -/
theorem events_pushFrontBatch (f : Frontier) (hs : List BlockHash) :
    (f.pushFrontBatch hs).events = [] := by
  cases f with
  | volatile old => rfl
  | stored f =>
    show (StoredFrontier.pushFrontBatch f hs).events = []
    unfold StoredFrontier.pushFrontBatch
    split
    · rfl
    · split
      · rfl
      · rfl

theorem events_pushBack (f : Frontier) (h : BlockHash) : (f.pushBack h).events = [] := by
  cases f with
  | volatile old => rfl
  | stored f =>
    show (StoredFrontier.pushBack f h).events = []
    unfold StoredFrontier.pushBack
    split
    · rfl
    · rfl

theorem events_reset (f : Frontier) (h : BlockHash) : (f.reset h).events = [] := by
  cases f with
  | volatile old => rfl
  | stored f => rfl

theorem events_drainFront (f : Frontier) (max : Nat) : (f.drainFront max).events = [] := by
  cases f with
  | volatile old => rfl
  | stored f =>
    show (StoredFrontier.drainFront f max).events = []
    simp only [StoredFrontier.drainFront]
    split
    · rfl
    · split
      · rfl
      · rfl

end Frontier

namespace Synchronizer

variable {σ : Type}

/-! ## §2. The beginning. -/

/-- A synchronizer that starts takes over what was there, behind a new importer. -/
theorem exists_pipeline_start {settings : Settings} {canRun : Bool} {site : Site σ}
    {s : Synchronizer σ} (h : start settings canRun site = .ok s) :
    ∃ events, s.pipeline = (site.pipeline.log events).restart settings.noParentBackoff := by
  unfold start at h
  obtain ⟨-, -, h⟩ := exists_of_bind_ok h
  dsimp only at h
  split at h
  · cases h
  · obtain ⟨last, -, h⟩ := exists_of_bind_ok h
    cases h
    exact ⟨resumeEvents site last, rfl⟩

theorem unjoined_start {settings : Settings} {canRun : Bool} {site : Site σ}
    {s : Synchronizer σ} (h : start settings canRun site = .ok s) :
    s.joinable = true ∧ s.closing = false := by
  unfold start at h
  obtain ⟨-, -, h⟩ := exists_of_bind_ok h
  dsimp only at h
  split at h
  · cases h
  · obtain ⟨last, -, h⟩ := exists_of_bind_ok h
    cases h
    exact ⟨rfl, rfl⟩

/-! ## §3. Calls and the importer. -/

/-- A call of a producer or of the fetcher. -/
inductive Call where
  | addBlocks (bs : List Block)
  | addBlock (b : Block)
  | setBestHash (h : BlockHash)
  | addHash (h : BlockHash)
  | addHashes (hs : List BlockHash)
  | addNewBlockHash (h : BlockHash)
  | returnHashes (hs : List BlockHash)
  | takeHashes
  | logFrontierSize
  | setHighestDifficulty (d : Difficulty)
  | clear

/-- The synchronizer after a call. -/
def call (s : Synchronizer σ) : Call → Synchronizer σ
  | .addBlocks bs => (s.addBlocks bs).2
  | .addBlock b => (s.addBlock b).2
  | .setBestHash h => (s.setBestHash h).2
  | .addHash h => (s.addHash h).2
  | .addHashes hs => (s.addHashes hs).2
  | .addNewBlockHash h => (s.addNewBlockHash h).2
  | .returnHashes hs => (s.returnHashes hs).2
  | .takeHashes => s.takeHashes.2
  | .logFrontierSize => s.logFrontierSize
  | .setHighestDifficulty d => s.setHighestDifficulty d
  | .clear => s.clear

/-- A caller at most wakes the importer, and has nothing to do with closing. -/
structure Served (s t : Synchronizer σ) : Prop where
  pipeline : s.pipeline.Nudges t.pipeline
  joinable : t.joinable = s.joinable
  closing : t.closing = s.closing

namespace Served

variable {s t u : Synchronizer σ}

theorem refl (s : Synchronizer σ) : Served s s := ⟨.refl _, rfl, rfl⟩

theorem trans (h : Served s t) (h' : Served t u) : Served s u :=
  ⟨h.pipeline.trans h'.pipeline, h'.joinable.trans h.joinable, h'.closing.trans h.closing⟩

theorem log (s : Synchronizer σ) {events : List Event} (h : .closed ∉ events) :
    Served s (s.log events) :=
  ⟨.log _ h, rfl, rfl⟩

theorem updateHashGauge (s : Synchronizer σ) : Served s s.updateHashGauge :=
  ⟨.measure _ _, rfl, rfl⟩

theorem updateBlockGauge (s : Synchronizer σ) : Served s s.updateBlockGauge :=
  ⟨.measure _ _, rfl, rfl⟩

theorem onFrontier {α : Type} (s : Synchronizer σ) (op : Frontier → Reply Frontier α)
    (h : (op s.frontier).events = []) : Served s (s.onFrontier op).2 :=
  ⟨.log _ (by rw [h]; exact List.not_mem_nil), rfl, rfl⟩

theorem onFrontierGauged {α : Type} (s : Synchronizer σ) {op : Frontier → Reply Frontier α}
    (h : (op s.frontier).events = []) : Served s (s.onFrontierGauged op).2 := by
  have hop := onFrontier s op h
  unfold Synchronizer.onFrontierGauged
  split
  next heq =>
    rw [heq] at hop
    exact hop.trans (updateHashGauge _)
  next heq =>
    exact hop

theorem addBlock (s : Synchronizer σ) (b : Block) : Served s (s.addBlock b).2 := by
  have happend := Pipeline.Nudges.enqueue s.pipeline b
  unfold Synchronizer.addBlock
  split
  next heq =>
    rw [heq] at happend
    exact ⟨happend, rfl, rfl⟩
  next heq =>
    rw [heq] at happend
    exact ⟨happend.trans ((Pipeline.Nudges.log _ (by simp)).trans (.measure _ _)), rfl, rfl⟩

theorem addBlocks (s : Synchronizer σ) (bs : List Block) : Served s (s.addBlocks bs).2 := by
  have happend := Pipeline.Nudges.enqueueBatch s.pipeline bs
  unfold Synchronizer.addBlocks
  split
  next => exact refl s
  next =>
    split
    next heq =>
      rw [heq] at happend
      exact ⟨happend, rfl, rfl⟩
    next heq =>
      rw [heq] at happend
      exact ⟨happend.trans ((Pipeline.Nudges.log _ (by simp)).trans (.measure _ _)), rfl, rfl⟩

theorem addHash (s : Synchronizer σ) (h : BlockHash) : Served s (s.addHash h).2 := by
  have hop := onFrontier s (·.pushFront h) (s.frontier.events_pushFrontBatch [h])
  unfold Synchronizer.addHash
  split
  next heq =>
    rw [heq] at hop
    exact hop.trans (log _ (by simp))
  next => exact hop

theorem addHashes (s : Synchronizer σ) (hs : List BlockHash) : Served s (s.addHashes hs).2 := by
  have hlog : Served s (s.log (hs.map fun h => .announced h s.frontier.length)) :=
    log s (by simp)
  unfold Synchronizer.addHashes
  dsimp only
  split
  · exact (hlog.trans (log _ (by simp))).trans
      (onFrontierGauged _ (Frontier.events_pushFrontBatch _ _))
  · exact hlog.trans (onFrontierGauged _ (Frontier.events_pushFrontBatch _ _))

theorem returnHashes (s : Synchronizer σ) (hs : List BlockHash) :
    Served s (s.returnHashes hs).2 := by
  unfold Synchronizer.returnHashes
  split
  · exact refl s
  · exact (log s (by simp)).trans (onFrontierGauged _ (Frontier.events_pushFrontBatch _ _))

/-- **A call at most wakes the importer.** -/
theorem call (s : Synchronizer σ) (c : Call) : Served s (s.call c) := by
  cases c with
  | addBlocks bs => exact addBlocks s bs
  | addBlock b => exact addBlock s b
  | setBestHash h => exact onFrontierGauged s (s.frontier.events_reset h)
  | addHash h => exact addHash s h
  | addHashes hs => exact addHashes s hs
  | addNewBlockHash h => exact onFrontierGauged s (s.frontier.events_pushBack h)
  | returnHashes hs => exact returnHashes s hs
  | takeHashes => exact onFrontierGauged s (s.frontier.events_drainFront _)
  | logFrontierSize => exact (log s (by simp)).trans (updateHashGauge _)
  | setHighestDifficulty d => exact ⟨.refl _, rfl, rfl⟩
  | clear =>
    have hclear : s.pipeline.Nudges { s.pipeline with queue := s.pipeline.queue.clear } :=
      ⟨rfl, rfl, Or.inl rfl, List.suffix_refl _, rfl⟩
    exact ⟨hclear.trans ((Pipeline.Nudges.measure _ _).trans (.measure _ _)), rfl, rfl⟩

end Served

/-! ## §4. Calls that touch the queue. -/

section Calls

variable (s : Synchronizer σ)

theorem answer_addBlock (b : Block) :
    (s.addBlock b).1 = (s.pipeline.queue.enqueue b).answer.mapError .ofStore := by
  unfold addBlock
  cases h : (s.pipeline.queue.enqueue b).answer with
  | ok u => rw [s.pipeline.enqueue_of_ok h]; rfl
  | error e => rw [s.pipeline.enqueue_of_error h]; rfl

theorem queue_addBlock (b : Block) :
    (s.addBlock b).2.pipeline.queue = (s.pipeline.queue.enqueue b).next := by
  rw [← s.pipeline.queue_enqueue b]
  unfold addBlock
  split
  next heq => rw [heq]
  next heq => rw [heq]; rfl

theorem keeps_addBlock (b : Block) : s.pipeline.Keeps (s.addBlock b).2.pipeline :=
  .of_nudges (Served.addBlock s b).pipeline

theorem addBlocks_nil :
    s.addBlocks [] = (.error (.invalidArgument "block list must not be empty"), s) := rfl

theorem answer_addBlocks {bs : List Block} (hbs : bs ≠ []) :
    (s.addBlocks bs).1
      = ((s.pipeline.queue.enqueueBatch bs).answer.map fun _ => ()).mapError .ofStore := by
  unfold addBlocks
  rw [List.getLast?_eq_some_getLast hbs]
  cases h : (s.pipeline.queue.enqueueBatch bs).answer with
  | ok kept => dsimp only; rw [s.pipeline.enqueueBatch_of_ok h]; rfl
  | error e => dsimp only; rw [s.pipeline.enqueueBatch_of_error h]; rfl

theorem queue_addBlocks {bs : List Block} (hbs : bs ≠ []) :
    (s.addBlocks bs).2.pipeline.queue = (s.pipeline.queue.enqueueBatch bs).next := by
  rw [← s.pipeline.queue_enqueueBatch bs]
  unfold addBlocks
  rw [List.getLast?_eq_some_getLast hbs]
  dsimp only
  split
  next heq => rw [heq]
  next heq => rw [heq]; rfl

theorem keeps_addBlocks (bs : List Block) : s.pipeline.Keeps (s.addBlocks bs).2.pipeline :=
  .of_nudges (Served.addBlocks s bs).pipeline

theorem queue_clear : s.clear.pipeline.queue = s.pipeline.queue.clear := rfl

theorem keeps_clear : s.pipeline.Keeps s.clear.pipeline :=
  .of_nudges (Served.call s .clear).pipeline

end Calls

/-! ## §5. The importer behind the calls. -/

/-- The importer goes on by one step, if it can. -/
def work (C : Chain σ) (s : Synchronizer σ) : Synchronizer σ :=
  { s with pipeline := (s.pipeline.step C).getD s.pipeline }

theorem work_of_step {C : Chain σ} {s : Synchronizer σ} {p : Pipeline σ}
    (h : s.pipeline.step C = some p) : s.work C = { s with pipeline := p } := by
  unfold work
  rw [h]
  rfl

theorem work_of_rest {C : Chain σ} {s : Synchronizer σ} (h : s.pipeline.step C = none) :
    s.work C = s := by
  unfold work
  rw [h]
  rfl

end Synchronizer
end BlockSync
