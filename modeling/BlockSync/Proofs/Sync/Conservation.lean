/-
  BlockSync.Proofs.Sync.Conservation
  ──────────────────────────────────
  **NO BLOCK IS LOST, DOUBLED OR OVERTAKEN.**

  Producers, a clear and the importer work on one queue in any order.  A ledger is
  kept beside the run: all entries that were appended, by producers and by the
  importer, without those that a clear removed; and the entries that the importer
  put back.  What the importer took and how it ended is in the record of the chain.

  After every run (`Run.appended_eq`):

      appended = handed to the chain, in this order, then queued
      handed to the chain = ended, then in flight
      put back = the blocks that ended without parent, in this order

  The invariant is `Balanced`.  An append adds to both sides of the first equation,
  a clear removes its end, and of the importer's moves (`Move`) only two matter: one
  takes a block from the queue to the chain, one ends an attempt.
-/
import BlockSync.Chain.Scripted
import BlockSync.Proofs.Store.BlockQueue.Membership
import BlockSync.Proofs.Sync.Recording
import BlockSync.Proofs.Sync.Synchronizer

namespace BlockSync

/-! ## §1. The ledger. -/

/-- What is kept in mind about a run. -/
structure Ledger where
  /-- The entries ever appended, in order, without those removed by a clear. -/
  appended : List Block
  /-- The entries the importer put back, in order. -/
  requeued : List Block
deriving DecidableEq

namespace Ledger

/-- Producers appended entries. -/
def append (l : Ledger) (bs : List Block) : Ledger :=
  { l with appended := l.appended ++ bs }

/-- The importer appended entries. -/
def requeue (l : Ledger) (bs : List Block) : Ledger :=
  ⟨l.appended ++ bs, l.requeued ++ bs⟩

/-- A clear removed the last entries, as many as were queued. -/
def erase (l : Ledger) (queued : Nat) : Ledger :=
  { l with appended := l.appended.take (l.appended.length - queued) }

theorem requeue_nil (l : Ledger) : l.requeue [] = l := by
  unfold requeue
  rw [List.append_nil, List.append_nil]

end Ledger

/-- The blocks whose attempts ended without parent. -/
def orphans (concluded : List (Block × Verdict)) : List Block :=
  (concluded.filter fun e => e.2 = .outcome .noParent).map Prod.fst

theorem orphans_concat_noParent (es : List (Block × Verdict)) (b : Block) :
    orphans (es ++ [(b, .outcome .noParent)]) = orphans es ++ [b] := by
  unfold orphans
  rw [List.filter_append, List.map_append]
  rfl

theorem orphans_concat (es : List (Block × Verdict)) (b : Block) {v : Verdict}
    (hv : v ≠ .outcome .noParent) : orphans (es ++ [(b, v)]) = orphans es := by
  unfold orphans
  rw [List.filter_append, List.filter_cons_of_neg (by simpa using hv), List.filter_nil,
    List.append_nil]

namespace Pipeline

variable {σ : Type} {C : Chain σ}

/-- The numbers of the blocks that found no room on their way back. -/
def roomless (p : Pipeline σ) : List UInt64 :=
  p.journal.filterMap fun
    | .requeueFailed number .keySpaceExhausted => some number
    | _ => none

theorem roomless_suffix {p q : Pipeline σ} (h : p.journal <:+ q.journal) :
    p.roomless <:+ q.roomless := by
  obtain ⟨new, hnew⟩ := h
  unfold roomless
  rw [← hnew, List.filterMap_append]
  exact List.suffix_append _ _

theorem roomless_of_suffix {p q : Pipeline σ} (h : p.journal <:+ q.journal)
    (hq : q.roomless = []) : p.roomless = [] :=
  List.suffix_nil.mp (hq ▸ roomless_suffix h)

/-- The entries of a queue behind the place where another one ended. -/
def grown (p q : Pipeline σ) : List Block := q.queue.blocks.drop p.queue.blocks.length

theorem roomless_ne_nil {p : Pipeline σ} {number : UInt64}
    (h : .requeueFailed number .keySpaceExhausted ∈ p.journal) : p.roomless ≠ [] := by
  have hmem : number ∈ p.roomless := List.mem_filterMap.mpr ⟨_, h, rfl⟩
  intro hnil
  rw [hnil] at hmem
  cases hmem

theorem grown_of_queue_eq {p q : Pipeline σ} (h : q.queue = p.queue) : grown p q = [] := by
  unfold grown
  rw [h, List.drop_length]

/-! ## §2. The invariant. -/

/-- The ledger agrees with the queue, the importer and the record of the chain. -/
structure Balanced (p : Pipeline (Recorded σ)) (l : Ledger) : Prop where
  queue : p.queue.Holds p.queue.blocks
  appended : l.appended = p.chain.received ++ p.queue.blocks
  received : p.chain.received = p.chain.concluded.map Prod.fst ++ p.importer.inFlight
  storable : ∀ b ∈ p.importer.inFlight, b.Storable
  requeued : p.roomless = [] → l.requeued = orphans p.chain.concluded

namespace Balanced

variable {p q : Pipeline (Recorded σ)} {l : Ledger}

/-- What leaves the queue and the record alone keeps the balance. -/
theorem aside (h : Balanced p l) (hqueue : q.queue = p.queue)
    (hreceived : q.chain.received = p.chain.received)
    (hconcluded : q.chain.concluded = p.chain.concluded)
    (hflight : q.importer.inFlight = p.importer.inFlight)
    (hjournal : p.journal <:+ q.journal) : Balanced q l where
  queue := by rw [hqueue]; exact h.queue
  appended := by rw [hqueue, hreceived]; exact h.appended
  received := by rw [hreceived, hconcluded, hflight]; exact h.received
  storable := by rw [hflight]; exact h.storable
  requeued hroom := by rw [hconcluded]; exact h.requeued (roomless_of_suffix hjournal hroom)

theorem keep (h : Balanced p l) (hkeeps : Keeps p q) (hqueue : q.queue = p.queue) :
    Balanced q (l.requeue (grown p q)) := by
  rw [grown_of_queue_eq hqueue, l.requeue_nil]
  exact h.aside hqueue (congrArg Recorded.received hkeeps.chain)
    (congrArg Recorded.concluded hkeeps.chain) hkeeps.inFlight hkeeps.journal

/-- Entries behind the others go behind the others in the ledger. -/
theorem append {new : List Block} (h : Balanced p l) (hkeeps : Keeps p q)
    (hqueue : q.queue.Holds (p.queue.blocks ++ new)) : Balanced q (l.append new) where
  queue := by rw [hqueue.blocks_eq]; exact hqueue
  appended := by
    show l.appended ++ new = _
    rw [hqueue.blocks_eq, hkeeps.chain, h.appended, List.append_assoc]
  received := by rw [hkeeps.chain, hkeeps.inFlight]; exact h.received
  storable := by rw [hkeeps.inFlight]; exact h.storable
  requeued hroom := by
    rw [hkeeps.chain]
    exact h.requeued (roomless_of_suffix hkeeps.journal hroom)

/-- What is queued is the end of the ledger, so a clear erases just that. -/
theorem clear (h : Balanced p l) (hkeeps : Keeps p q) (hqueue : q.queue = p.queue.clear) :
    Balanced q (l.erase p.queue.length) := by
  have hclear : q.queue.Holds [] := hqueue ▸ BlockQueue.Holds.clear p.queue
  refine ⟨?_, ?_, ?_, ?_, ?_⟩
  · rw [hclear.blocks_eq]
    exact hclear
  · show l.appended.take (l.appended.length - p.queue.length) = _
    rw [hclear.blocks_eq, hkeeps.chain, h.appended, h.queue.length_eq, List.length_append,
      Nat.add_sub_cancel, List.take_left, List.append_nil]
  · rw [hkeeps.chain, hkeeps.inFlight]
    exact h.received
  · rw [hkeeps.inFlight]
    exact h.storable
  · intro hroom
    rw [hkeeps.chain]
    exact h.requeued (roomless_of_suffix hkeeps.journal hroom)

/-! ## §3. The moves of the importer. -/

/-- The front block goes from the queue to the chain. -/
theorem took (h : Balanced p l) (hphase : p.importer.phase = .ready) :
    Balanced (p.take C.recorded) (l.requeue (grown p (p.take C.recorded))) := by
  have hflight : p.importer.inFlight = [] := inFlight_of_resting (by simp [hphase])
  have hholds := h.queue
  cases hblocks : p.queue.blocks with
  | nil =>
    rw [hblocks] at hholds
    obtain ⟨hanswer, hnext⟩ := hholds.poll_nil
    rw [p.take_of_empty C.recorded hanswer]
    exact h.keep ((Keeps.onQueue p BlockQueue.poll).trans (Keeps.goTo hflight (by simp))) hnext
  | cons b rest =>
    rw [hblocks] at hholds
    obtain ⟨hanswer, hnext⟩ := hholds.poll_cons
    -- one block less is queued, so nothing lies behind the former end
    have hgrown : grown p (p.take C.recorded) = [] := by
      unfold grown
      rw [p.take_of_ok C.recorded hanswer, hblocks]
      show (p.queue.poll.next.blocks).drop _ = []
      rw [hnext.blocks_eq]
      simp
    rw [hgrown, l.requeue_nil, p.take_of_ok C.recorded hanswer]
    refine ⟨?_, ?_, ?_, ?_, ?_⟩
    · show p.queue.poll.next.Holds p.queue.poll.next.blocks
      rw [hnext.blocks_eq]
      exact hnext
    · show l.appended = (p.chain.received ++ [b]) ++ p.queue.poll.next.blocks
      rw [hnext.blocks_eq, h.appended, hblocks, List.append_assoc]
      rfl
    · show p.chain.received ++ [b] = p.chain.concluded.map Prod.fst ++ [b]
      rw [h.received, hflight, List.append_nil]
    · intro d hd
      obtain rfl : d = b := List.mem_singleton.mp hd
      exact hholds.storable d List.mem_cons_self
    · intro hroom
      exact h.requeued (roomless_of_suffix (List.suffix_append_of_suffix (List.suffix_append _ _))
        hroom)

/-- An attempt ends, and some entries go behind the others. -/
theorem ended {b : Block} {since : Nat} {v : Verdict} {chain : Recorded σ} (new : List Block)
    (h : Balanced p l) (hphase : p.importer.phase = .importing b since)
    (hchain : C.recorded.conclude p.chain b = some (v, chain))
    (hq : { p with chain := chain }.finish b since v = q)
    (hqueue : q.queue.Holds (p.queue.blocks ++ new))
    (hnew : q.roomless = [] →
      orphans (p.chain.concluded ++ [(b, v)]) = orphans p.chain.concluded ++ new) :
    Balanced q (l.requeue (grown p q)) := by
  obtain ⟨hreceived, hconcluded⟩ := Chain.recorded_conclude hchain
  have hqchain : q.chain = chain := by rw [← hq, chain_finish]
  have hdone : q.importer.inFlight = [] := by rw [← hq, inFlight_finish]
  have hjournal : p.journal <:+ q.journal := by
    rw [← hq, journal_finish]
    exact (Keeps.settle { p with chain := chain } b _ v).journal
  have hgrown : grown p q = new := by
    unfold grown
    rw [hqueue.blocks_eq, List.drop_left]
  rw [hgrown]
  refine ⟨?_, ?_, ?_, ?_, ?_⟩
  · rw [hqueue.blocks_eq]
    exact hqueue
  · show l.appended ++ new = _
    rw [hqchain, hreceived, hqueue.blocks_eq, h.appended, List.append_assoc]
  · rw [hqchain, hreceived, hconcluded, hdone, h.received, inFlight_of_importing hphase,
      List.append_nil, List.map_append]
    rfl
  · intro d hd
    rw [hdone] at hd
    cases hd
  · intro hroom
    show l.requeued ++ new = _
    rw [hqchain, hconcluded, hnew hroom, h.requeued (roomless_of_suffix hjournal hroom)]

/-- An attempt ends; without a parent its block goes back behind the others. -/
theorem finished {b : Block} {since : Nat} {v : Verdict} {chain : Recorded σ}
    (h : Balanced p l) (hphase : p.importer.phase = .importing b since)
    (hchain : C.recorded.conclude p.chain b = some (v, chain))
    (hq : { p with chain := chain }.finish b since v = q) :
    Balanced q (l.requeue (grown p q)) := by
  have hb : b.Storable :=
    h.storable b (by rw [inFlight_of_importing hphase]; exact List.mem_singleton_self b)
  by_cases hv : v = .outcome .noParent
  · -- the block goes back by an append, which may be refused
    subst hv
    have hqueue : q.queue = (p.queue.enqueue b).next := by
      rw [← hq, queue_finish, queue_settle_noParent]
    rcases h.queue.enqueue hb with ⟨-, hnext⟩ | ⟨hanswer, hnext⟩
    · refine h.ended [b] hphase hchain hq ?_ fun _ => orphans_concat_noParent _ b
      rw [hqueue]
      exact hnext
    · -- the log tells of the refusal
      have hlog : .requeueFailed b.number .keySpaceExhausted ∈ q.journal := by
        rw [← hq, journal_finish]
        exact mem_journal_settle_noParent _ _ hanswer
      refine h.ended [] hphase hchain hq ?_ fun hroom => absurd hroom (roomless_ne_nil hlog)
      rw [hqueue, hnext, List.append_nil]
      exact h.queue
  · -- a final outcome, a failure or a crash
    have hqueue : q.queue = p.queue := by rw [← hq, queue_finish, queue_settle _ _ _ hv]
    refine h.ended [] hphase hchain hq ?_ fun _ => ?_
    · rw [hqueue, List.append_nil]
      exact h.queue
    · rw [orphans_concat _ b hv, List.append_nil]

/-- **Each move of the importer keeps the balance.** -/
theorem moved (h : Balanced p l) (hmove : Move C.recorded p q) :
    Balanced q (l.requeue (grown p q)) := by
  cases hmove with
  | started hphase =>
    have hrest : p.importer.inFlight = [] := inFlight_of_resting (by simp [hphase])
    exact h.keep ((Keeps.log p _).trans (Keeps.goTo hrest (by simp))) rfl
  | stopped hrest _ => exact h.keep (Keeps.stop hrest) (p.queue_moveTo .stopped)
  | took hphase _ => exact h.took hphase
  | finished hphase hchain => exact h.finished hphase hchain rfl
  | woke hphase _ =>
    have hrest : p.importer.inFlight = [] := inFlight_of_resting (by simp [hphase])
    exact h.keep (Keeps.goTo hrest (by simp)) rfl

end Balanced
end Pipeline

namespace Synchronizer

variable {σ : Type} {C : Chain σ}

/-! ## §4. Whole runs. -/

/-- The blocks that a call appended, if it succeeded. -/
def accepted (answer : Except SyncError Unit) (bs : List Block) : List Block :=
  match answer with
  | .ok _ => bs
  | .error _ => []

/-- The runs of a synchronizer over opened stores, with their ledgers: producers,
clears and the importer take turns in any order.  Of a bulk append the beginning
counts that the capacity leaves room for. -/
inductive Run (C : Chain σ) : Synchronizer (Recorded σ) → Ledger → Prop where
  | started {settings : Settings} {canRun : Bool} {site : Site (Recorded σ)}
      {s : Synchronizer (Recorded σ)} {c : σ} (hqueue : site.pipeline.queue.Reachable)
      (hchain : site.pipeline.chain = .start c) (hstart : start settings canRun site = .ok s) :
      Run C s ⟨s.pipeline.queue.blocks, []⟩
  | addedBlock {s : Synchronizer (Recorded σ)} {l : Ledger} (h : Run C s l) (b : Block)
      (hb : b.Storable) : Run C (s.addBlock b).2 (l.append (accepted (s.addBlock b).1 [b]))
  | addedBlocks {s : Synchronizer (Recorded σ)} {l : Ledger} (h : Run C s l) (bs : List Block)
      (hbs : ∀ b ∈ bs, b.Storable) :
      Run C (s.addBlocks bs).2 (l.append (accepted (s.addBlocks bs).1
        (bs.take (Capacity.admissible s.pipeline.queue.capacity s.size bs.length))))
  | cleared {s : Synchronizer (Recorded σ)} {l : Ledger} (h : Run C s l) :
      Run C s.clear (l.erase s.size)
  | worked {s : Synchronizer (Recorded σ)} {l : Ledger} (h : Run C s l) :
      Run C (s.work C.recorded) (l.requeue (s.pipeline.grown (s.work C.recorded).pipeline))
  /-- Anything else happens: time passes, the chain changes by itself, hashes go
  in and out, somebody closes. -/
  | passed {s next : Synchronizer (Recorded σ)} {l : Ledger} (h : Run C s l)
      (hqueue : next.pipeline.queue = s.pipeline.queue)
      (hreceived : next.pipeline.chain.received = s.pipeline.chain.received)
      (hconcluded : next.pipeline.chain.concluded = s.pipeline.chain.concluded)
      (hphase : next.pipeline.importer.phase = s.pipeline.importer.phase)
      (hjournal : s.pipeline.journal <:+ next.pipeline.journal) : Run C next l

open Pipeline (Balanced)

theorem balanced_addBlock {s : Synchronizer (Recorded σ)} {l : Ledger}
    (h : Balanced s.pipeline l) {b : Block} (hb : b.Storable) :
    Balanced (s.addBlock b).2.pipeline (l.append (accepted (s.addBlock b).1 [b])) := by
  refine h.append (s.keeps_addBlock b) ?_
  rw [s.queue_addBlock, s.answer_addBlock]
  rcases h.queue.enqueue hb with ⟨ha, hn⟩ | ⟨ha, hn⟩
  · rw [ha]
    exact hn
  · rw [ha, hn]
    show s.pipeline.queue.Holds (_ ++ [])
    rw [List.append_nil]
    exact h.queue

theorem balanced_addBlocks {s : Synchronizer (Recorded σ)} {l : Ledger}
    (h : Balanced s.pipeline l) {bs : List Block} (hbs : ∀ b ∈ bs, b.Storable) :
    Balanced (s.addBlocks bs).2.pipeline (l.append (accepted (s.addBlocks bs).1
      (bs.take (Capacity.admissible s.pipeline.queue.capacity s.size bs.length)))) := by
  have hsize : s.size = s.pipeline.queue.blocks.length := h.queue.length_eq
  refine h.append (s.keeps_addBlocks bs) ?_
  by_cases hne : bs = []
  · -- an empty list is refused before the queue is asked
    subst hne
    rw [s.addBlocks_nil]
    show s.pipeline.queue.Holds (_ ++ [])
    rw [List.append_nil]
    exact h.queue
  · rw [s.queue_addBlocks hne, s.answer_addBlocks hne, hsize]
    rcases h.queue.enqueueBatch hbs with ⟨ha, hn⟩ | ⟨ha, hn⟩
    · rw [ha]
      exact hn
    · rw [ha, hn]
      show s.pipeline.queue.Holds (_ ++ [])
      rw [List.append_nil]
      exact h.queue

theorem balanced_work {s : Synchronizer (Recorded σ)} {l : Ledger} (h : Balanced s.pipeline l) :
    Balanced (s.work C.recorded).pipeline
      (l.requeue (s.pipeline.grown (s.work C.recorded).pipeline)) := by
  cases hstep : s.pipeline.step C.recorded with
  | none =>
    rw [work_of_rest hstep]
    exact h.keep (Pipeline.Keeps.refl _) rfl
  | some p =>
    rw [work_of_step hstep]
    exact h.moved (Pipeline.move_of_step hstep)

/-- **Every run keeps the balance.** -/
theorem Run.balanced {s : Synchronizer (Recorded σ)} {l : Ledger} (h : Run C s l) :
    Balanced s.pipeline l := by
  induction h with
  | @started settings canRun site s c hqueue hchain hstart =>
    obtain ⟨events, hpipeline⟩ := exists_pipeline_start hstart
    obtain ⟨bs, hholds⟩ := hqueue.holds
    rw [hpipeline]
    have hblocks := hholds.blocks_eq
    have hchain' : ((site.pipeline.log events).restart settings.noParentBackoff).chain = .start c :=
      hchain
    refine ⟨?_, ?_, ?_, ?_, ?_⟩
    · show site.pipeline.queue.Holds site.pipeline.queue.blocks
      rw [hblocks]
      exact hholds
    · rw [hchain']
      rfl
    · rw [hchain']
      rfl
    · intro b hb
      cases hb
    · intro _
      rw [hchain']
      rfl
  | addedBlock _ b hb ih => exact balanced_addBlock ih hb
  | addedBlocks _ bs hbs ih => exact balanced_addBlocks ih hbs
  | @cleared s _ _ ih => exact ih.clear s.keeps_clear s.queue_clear
  | worked _ ih => exact balanced_work ih
  | passed _ hqueue hreceived hconcluded hphase hjournal ih =>
    refine ih.aside hqueue hreceived hconcluded ?_ hjournal
    unfold Importer.inFlight
    rw [hphase]

theorem Run.waited {s : Synchronizer (Recorded σ)} {l : Ledger} (h : Run C s l) (ms : Nat) :
    Run C { s with pipeline := s.pipeline.wait ms } l :=
  h.passed rfl rfl rfl rfl (List.suffix_refl _)

theorem Run.movedTo {s : Synchronizer (Recorded σ)} {l : Ledger} (h : Run C s l)
    (target : Lifecycle) : Run C { s with pipeline := s.pipeline.moveTo target } l := by
  obtain ⟨life, events, hmove⟩ := s.pipeline.exists_moveTo_eq target
  rw [hmove]
  exact h.passed rfl rfl rfl rfl (List.suffix_append _ _)

/-- Closing leaves the queue and the block in flight alone. -/
theorem Run.closed {s : Synchronizer (Recorded σ)} {l : Ledger} (h : Run C s l) :
    Run C s.close l := by
  have hstopping : Run C (s.leaveRunning s.lifecycle.isRunning) l := by
    unfold leaveRunning
    split
    · exact h.movedTo .stopping
    · exact h
  have hsignalled : Run C (s.leaveRunning s.lifecycle.isRunning).signalStop l :=
    hstopping.passed rfl rfl rfl rfl (List.suffix_refl _)
  unfold close
  dsimp only
  split
  · exact hsignalled.passed rfl rfl rfl rfl (List.suffix_refl _)
  · exact (hsignalled.movedTo .stopped).passed rfl rfl rfl rfl (List.suffix_cons _ _)

/-- **NO BLOCK IS LOST, DOUBLED OR OVERTAKEN.**  After every run the entries that
were appended and not cleared are those that the chain was handed, in this order,
and then those that are queued; what the chain was handed are the attempts that
ended and the block in flight; and, as long as none of them lacked room, the
entries that were put back are the blocks whose attempts ended without parent,
in this order, and no others. -/
theorem Run.appended_eq {s : Synchronizer (Recorded σ)} {l : Ledger} (h : Run C s l) :
    s.pipeline.queue.contents = s.pipeline.queue.blocks.map .ok
      ∧ l.appended = s.pipeline.chain.received ++ s.pipeline.queue.blocks
      ∧ s.pipeline.chain.received
          = s.pipeline.chain.concluded.map Prod.fst ++ s.pipeline.importer.inFlight
      ∧ (s.pipeline.roomless = [] → l.requeued = orphans s.pipeline.chain.concluded) :=
  have hb := h.balanced
  ⟨hb.queue.contents_eq, hb.appended, hb.received, hb.requeued⟩

/-- The block of a height in a line of blocks. -/
def heir (height : UInt8) : Block :=
  .linking height.toUInt64 (.replicate height) (.replicate (height - 1))

/-- A synchronizer at its beginning, over an empty tree and a chain that knows the
block of height 0 only. -/
def waitingForParent : Synchronizer (Recorded ScriptedChain) :=
  { frontier := .empty
    pipeline :=
      { queue := .stored ⟨.empty, .fresh, .empty, 2⟩
        chain := .start (.start (heir 0) true false)
        metrics := none
        lifecycle := .running
        importer := .fresh 5
        clock := 0
        journal := [] }
    closing := false
    settings := ⟨1, 2, 5⟩
    lastBlock := none
    highestDifficulty := .zero
    joinable := true }

/-- The second block comes before the first and a third finds no room; it comes
again while the second is in flight.  When the second went back, all that is
queued is cleared.  The first comes again, and is in flight when somebody closes. -/
theorem appended_eq_waitingForParent :
    ∃ s l, Run ScriptedChain.chain s l ∧ s.pipeline.roomless = []
      ∧ l = ⟨[heir 2, heir 1], [heir 2]⟩
      ∧ l.appended = s.pipeline.chain.received ++ s.pipeline.queue.blocks
      ∧ l.requeued = orphans s.pipeline.chain.concluded := by
  have hqueue : waitingForParent.pipeline.queue.Reachable :=
    .opened (t := .empty) (fun _ he => (by cases he)) (BlockQueue.openTree_empty 2)
  have hstart : start ⟨1, 2, 5⟩ true waitingForParent.toSite = .ok waitingForParent := rfl
  have hbegin : Run ScriptedChain.chain waitingForParent ⟨[], []⟩ := .started hqueue rfl hstart
  have hflight := (hbegin.addedBlocks [heir 2, heir 1, heir 3] (by decide +kernel)).worked.worked
  have hback := (hflight.addedBlock (heir 3) (by decide +kernel)).worked
  have hcleared := hback.cleared.addedBlock (heir 1) (by decide +kernel)
  have hrun := ((hcleared.waited 5).worked.worked).closed
  have hroom := hrun.appended_eq.2.2.2 (by decide +kernel)
  exact ⟨_, _, hrun, by decide +kernel, by decide +kernel, hrun.appended_eq.2.1, hroom⟩

end Synchronizer
end BlockSync
