/-
  BlockSync.Proofs.Sync.Announcement
  ──────────────────────────────────
  **A BLOCK THAT IS QUEUED IS NOT ASKED FOR AGAIN.**

  Peers announce the same hashes over and over.  Of a list that is announced those
  hashes go to the front of which no block is queued, in their order and as often
  as they are announced; all else stays (`Reachable.addHashes_eq`).

  What the queue holds is known to its index only, and the index has to be right
  after any history.  So the states of a synchronizer are followed with both of its
  stores (`Reachable`): deed after deed, while others use the frontier too, and
  from one start to the next.
-/
import BlockSync.Proofs.Sync.Conservation
import BlockSync.Proofs.Sync.Stores

namespace BlockSync.Synchronizer

variable {σ : Type} {C : Chain σ}

/-! ## §1. Reachable states. -/

/-- The states that a synchronizer gets into over stores in good order. -/
inductive Reachable (C : Chain σ) : Synchronizer (Recorded σ) → Prop where
  | started {settings : Settings} {canRun : Bool} {site : Site (Recorded σ)}
      {s : Synchronizer (Recorded σ)} (hqueue : site.pipeline.queue.Reachable)
      (hfrontier : ∃ hs, site.frontier.Holds hs)
      (hstart : start settings canRun site = .ok s) : Reachable C s
  | happened {s : Synchronizer (Recorded σ)} (h : Reachable C s) (d : Deed σ)
      (hd : ∀ b ∈ d.blocks, b.Storable) : Reachable C (s.happen C d)
  /-- The frontier is lent out, and somebody else calls it. -/
  | lent {s : Synchronizer (Recorded σ)} (h : Reachable C s) (k : Frontier.Call) :
      Reachable C { s with frontier := (s.frontier.perform k).2 }
  /-- A new process starts over what the stores of an old one hold. -/
  | restarted {settings : Settings} {canRun : Bool} {site : Site (Recorded σ)}
      {s t : Synchronizer (Recorded σ)} (h : Reachable C s)
      (hqueue : s.pipeline.queue.reopen = .ok site.pipeline.queue)
      (hfrontier : s.frontier.reopen = .ok site.frontier)
      (hstart : start settings canRun site = .ok t) : Reachable C t

namespace Reachable

variable {s : Synchronizer (Recorded σ)}

/-- **In every reachable state both stores are in good order.** -/
theorem sound (h : Reachable C s) : s.pipeline.Sound ∧ ∃ hs, s.frontier.Holds hs := by
  induction h with
  | started hqueue hfrontier hstart =>
    exact ⟨.of_start hqueue hstart, by rw [frontier_start hstart]; exact hfrontier⟩
  | happened _ d hd ih => exact ⟨ih.1.happen d hd, exists_holds_happen ih.2 d⟩
  | lent _ k ih => exact ⟨⟨ih.1.queue, ih.1.storable⟩, Frontier.exists_holds_perform ih.2 k⟩
  | restarted _ hqueue hfrontier hstart ih =>
    refine ⟨.of_start (ih.1.queue.restarted hqueue) hstart, ?_⟩
    obtain ⟨hs, hholds⟩ := ih.2
    rw [hholds.reopen] at hfrontier
    exact ⟨hs, by rw [frontier_start hstart, ← Except.ok.inj hfrontier]; exact hholds⟩

theorem after (h : Reachable C s) {deeds : List (Deed σ)}
    (hdeeds : ∀ d ∈ deeds, ∀ b ∈ d.blocks, b.Storable) : Reachable C (s.after C deeds) :=
  after_kept (Reachable C) (fun d hd h => h.happened d hd) hdeeds h

end Reachable

/-! ## §2. Announced hashes. -/

/-- The frontier gets the hashes of which no block is queued, or it has no room. -/
theorem frontier_addHashes (s : Synchronizer σ) {old queued : List BlockHash}
    (hfrontier : s.frontier.Holds old) (hindex : s.pipeline.queue.index.Counts queued)
    (hs : List BlockHash) :
    ((s.addHashes hs).1 = .ok ()
        ∧ (s.addHashes hs).2.frontier.Holds (hs.filter (fun h => h ∉ queued) ++ old))
      ∨ ((s.addHashes hs).1 = .error (.store .keySpaceExhausted)
        ∧ (s.addHashes hs).2.frontier = s.frontier) := by
  rw [(s.stores_addHashes hs).1]
  obtain ⟨events, hadd⟩ := s.exists_addHashes_eq hs
  have hmissing : s.pipeline.queue.filterExisting hs = hs.filter fun h => h ∉ queued :=
    hindex.missing_eq hs
  rcases hfrontier.pushFrontBatch (s.pipeline.queue.filterExisting hs) with ⟨ha, hn⟩ | ⟨ha, hn⟩
  · rw [hadd, onFrontierGauged_of_ok (s.log events) ha, ← hmissing]
    exact Or.inl ⟨rfl, hn⟩
  · rw [hadd, onFrontierGauged_of_error (s.log events) ha]
    exact Or.inr ⟨rfl, hn⟩

/-- Announcing hashes changes the frontier, and nothing else but the log and the
metrics. -/
theorem addHashes_eq_with (s : Synchronizer σ) (hs : List BlockHash) :
    (s.addHashes hs).2 = { s with
      frontier := (s.addHashes hs).2.frontier
      pipeline := { s.pipeline with
        metrics := (s.addHashes hs).2.pipeline.metrics
        journal := (s.addHashes hs).2.pipeline.journal } } := by
  obtain ⟨events, hadd⟩ := s.exists_addHashes_eq hs
  rw [hadd]
  cases ha : ((s.log events).frontier.pushFrontBatch
      (s.pipeline.queue.filterExisting hs)).answer with
  | ok u => rw [onFrontierGauged_of_ok (s.log events) ha]; rfl
  | error e => rw [onFrontierGauged_of_error (s.log events) ha]; rfl

/-- **A BLOCK THAT IS QUEUED IS NOT ASKED FOR AGAIN.**  In every reachable state,
wherever the stores live, the queue stands for its blocks and the frontier for its
hashes.  If a list of hashes is announced, then those of which no block is queued go
before the others, in their order and as often as they are in the list; or no
position is left for them, and the frontier is as it was.  The queue, the block
announced last, the highest difficulty and everything else stay as they were, the
log and the metrics excepted. -/
theorem Reachable.addHashes_eq {s : Synchronizer (Recorded σ)} (h : Reachable C s)
    (hs : List BlockHash) :
    s.pipeline.queue.contents = s.pipeline.queue.blocks.map .ok
      ∧ s.frontier.Holds s.frontier.hashes
      ∧ (s.addHashes hs).2.frontier.Holds (s.addHashes hs).2.frontier.hashes
      ∧ (s.addHashes hs).2 = { s with
          frontier := (s.addHashes hs).2.frontier
          pipeline := { s.pipeline with
            metrics := (s.addHashes hs).2.pipeline.metrics
            journal := (s.addHashes hs).2.pipeline.journal } }
      ∧ (((s.addHashes hs).1 = .ok ()
          ∧ (s.addHashes hs).2.frontier.hashes
            = hs.filter (fun h => h ∉ s.pipeline.queue.blocks.map Block.hash)
              ++ s.frontier.hashes)
        ∨ ((s.addHashes hs).1 = .error (.store .keySpaceExhausted)
          ∧ (s.addHashes hs).2.frontier = s.frontier)) := by
  obtain ⟨hsound, old, hold⟩ := h.sound
  have hqueue := hsound.holds
  have hadd := s.frontier_addHashes hold hqueue.index_counts hs
  rw [hold.hashes_eq]
  rcases hadd with ⟨ha, hn⟩ | ⟨ha, hn⟩
  · refine ⟨hqueue.contents_eq, hold, ?_, s.addHashes_eq_with hs, Or.inl ⟨ha, hn.hashes_eq⟩⟩
    rw [hn.hashes_eq]
    exact hn
  · refine ⟨hqueue.contents_eq, hold, ?_, s.addHashes_eq_with hs, Or.inr ⟨ha, hn⟩⟩
    rw [hn, hold.hashes_eq]
    exact hold

/-- Both stores live in trees. -/
def persistent : Synchronizer (Recorded ScriptedChain) :=
  { waitingForParent with frontier := .stored ⟨.empty, .fresh⟩ }

/-- Two hashes are announced and the first is fetched.  Three blocks come, of which
two find room, and the first of these is in flight. -/
def midImport : Synchronizer (Recorded ScriptedChain) :=
  persistent.after ScriptedChain.chain
    [.call (.addHashes [(heir 1).hash, (heir 2).hash]), .call .takeHashes,
      .call (.addBlocks [heir 2, heir 1, heir 3]), .work, .work]

/-- The block in flight is asked for again, twice if it is announced twice; the
block that is queued is not. -/
theorem addHashes_eq_midImport :
    Reachable ScriptedChain.chain midImport
      ∧ midImport.pipeline.queue.blocks = [heir 1]
      ∧ (midImport.addHashes [(heir 2).hash, (heir 1).hash, (heir 2).hash]).2.frontier.hashes
        = [(heir 2).hash, (heir 2).hash, (heir 2).hash] := by
  have hstart : start ⟨1, 2, 5⟩ true persistent.toSite = .ok persistent := rfl
  have hqueue : persistent.pipeline.queue.Reachable :=
    .opened (t := .empty) (fun _ he => (by cases he)) (BlockQueue.openTree_empty 2)
  have hfrontier : persistent.frontier.Holds [] := Tree.Fills.empty
  have hreach : Reachable ScriptedChain.chain midImport :=
    (Reachable.started hqueue ⟨[], hfrontier⟩ hstart).after (by decide +kernel)
  refine ⟨hreach, by decide +kernel, ?_⟩
  have hok : (midImport.addHashes [(heir 2).hash, (heir 1).hash, (heir 2).hash]).1.isOk = true := by
    decide +kernel
  obtain hdone | hrefused :=
    (hreach.addHashes_eq [(heir 2).hash, (heir 1).hash, (heir 2).hash]).2.2.2.2
  · rw [hdone.2]
    decide +kernel
  · rw [hrefused.1] at hok
    cases hok

end BlockSync.Synchronizer
