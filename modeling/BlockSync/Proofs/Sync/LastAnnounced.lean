/-
  BlockSync.Proofs.Sync.LastAnnounced
  ───────────────────────────────────
  **WHICH BLOCK IS THE LAST ANNOUNCED.**

  A synchronizer remembers one block.  An append that is accepted replaces it, and nothing
  else does: not the importer, which takes blocks and puts them back, and not a clear.  So
  what is remembered is read off the accepted appends alone (`lastBlock_after`), and at
  first it is the block found at the back of the queue.

  The block is asked for only while something is queued.  Then there is one to remember:
  as long as there is none, nothing has been in store and nothing in flight (`Mindful`).
  An orphan that goes back has come from the queue before.

  A call is one step of a run (`Deed`), and the answers are those between two calls.  Inside
  a call the append comes first and is noted second, each under a lock of its own: who asks
  between the two finds the block in the queue and the note as it was before.
-/
import BlockSync.Proofs.Store.BlockQueue.Tip
import BlockSync.Proofs.Sync.Conservation
import BlockSync.Proofs.Sync.Stores

namespace BlockSync.Synchronizer

variable {σ : Type} {C : Chain σ}

/-! ## §1. What is remembered. -/

section Calls

variable (s : Synchronizer σ)

/-- A block that is accepted is remembered; one that is refused changes neither what is
remembered nor the queue. -/
theorem addBlock_accepted_or_refused (b : Block) :
    ((s.addBlock b).1 = .ok () ∧ (s.addBlock b).2.lastBlock = some b)
      ∨ ((s.addBlock b).1.isOk = false ∧ (s.addBlock b).2.lastBlock = s.lastBlock
        ∧ (s.addBlock b).2.pipeline.queue = s.pipeline.queue) := by
  rw [s.queue_addBlock b]
  unfold addBlock
  cases hanswer : (s.pipeline.queue.enqueue b).answer with
  | ok u =>
    rw [s.pipeline.enqueue_of_ok hanswer]
    exact Or.inl ⟨rfl, rfl⟩
  | error e =>
    rw [s.pipeline.enqueue_of_error hanswer]
    exact Or.inr ⟨rfl, rfl, BlockQueue.next_enqueue_of_error hanswer⟩

/-- So it is with a list, of which the last block is remembered.  An empty list is
refused. -/
theorem addBlocks_accepted_or_refused (bs : List Block) :
    ((s.addBlocks bs).1 = .ok () ∧ bs ≠ [] ∧ (s.addBlocks bs).2.lastBlock = bs.getLast?)
      ∨ ((s.addBlocks bs).1.isOk = false ∧ (s.addBlocks bs).2.lastBlock = s.lastBlock
        ∧ (s.addBlocks bs).2.pipeline.queue = s.pipeline.queue) := by
  by_cases hbs : bs = []
  · subst hbs
    exact Or.inr ⟨rfl, rfl, rfl⟩
  · rw [s.queue_addBlocks hbs]
    unfold addBlocks
    rw [List.getLast?_eq_some_getLast hbs]
    dsimp only
    cases hanswer : (s.pipeline.queue.enqueueBatch bs).answer with
    | ok kept =>
      rw [s.pipeline.enqueueBatch_of_ok hanswer]
      exact Or.inl ⟨rfl, hbs, rfl⟩
    | error e =>
      rw [s.pipeline.enqueueBatch_of_error hanswer]
      exact Or.inr ⟨rfl, rfl, BlockQueue.next_enqueueBatch_of_error hanswer⟩

/-- The block that a call announces, if it is accepted: of a list the last one, whether
there is room for it or not. -/
def announced? : Call → Option Block
  | .addBlock b => if (s.addBlock b).1.isOk then some b else none
  | .addBlocks bs => if (s.addBlocks bs).1.isOk then bs.getLast? else none
  | _ => none

theorem lastBlock_call_of_unqueued {c : Call} (h : c.onQueue? = none) :
    (s.call c).lastBlock = s.lastBlock := by
  obtain ⟨frontier, metrics, journal, d, hcall⟩ := s.exists_call_eq_of_unqueued h
  rw [hcall]

/-- **Only an append that is accepted changes what is remembered.** -/
theorem lastBlock_call (c : Call) : (s.call c).lastBlock = (s.announced? c).or s.lastBlock := by
  cases c with
  | addBlock b =>
    show (s.addBlock b).2.lastBlock
      = (if (s.addBlock b).1.isOk then some b else none).or s.lastBlock
    rcases s.addBlock_accepted_or_refused b with ⟨hok, hlast⟩ | ⟨hrefused, hlast, -⟩
    · rw [hlast, hok]
      rfl
    · rw [hlast, hrefused]
      rfl
  | addBlocks bs =>
    show (s.addBlocks bs).2.lastBlock
      = (if (s.addBlocks bs).1.isOk then bs.getLast? else none).or s.lastBlock
    rcases s.addBlocks_accepted_or_refused bs with ⟨hok, hne, hlast⟩ | ⟨hrefused, hlast, -⟩
    · rw [hlast, hok, List.getLast?_eq_some_getLast hne]
      rfl
    · rw [hlast, hrefused]
      rfl
  | clear => rfl
  | _ => exact s.lastBlock_call_of_unqueued rfl

/-- Without an announcement nothing comes into the queue. -/
theorem queue_call_of_unannounced {c : Call} (h : s.announced? c = none) :
    (s.call c).pipeline.queue = s.pipeline.queue
      ∨ (s.call c).pipeline.queue = s.pipeline.queue.clear := by
  cases c with
  | addBlock b =>
    rcases s.addBlock_accepted_or_refused b with ⟨hok, -⟩ | ⟨-, -, hqueue⟩
    · change (if (s.addBlock b).1.isOk then some b else none) = none at h
      rw [hok] at h
      cases h
    · exact Or.inl hqueue
  | addBlocks bs =>
    rcases s.addBlocks_accepted_or_refused bs with ⟨hok, hne, -⟩ | ⟨-, -, hqueue⟩
    · change (if (s.addBlocks bs).1.isOk then bs.getLast? else none) = none at h
      rw [hok] at h
      exact absurd (List.getLast?_eq_none_iff.mp h) hne
    · exact Or.inl hqueue
  | clear => exact Or.inr rfl
  | _ => exact Or.inl (s.queue_call _)

theorem lastBlock_close : s.close.lastBlock = s.lastBlock := by
  cases hjoin : s.joinable with
  | true =>
    obtain ⟨life, -, hclose⟩ := exists_close_of_joinable hjoin
    rw [hclose]
  | false => rw [close_of_joined hjoin]

theorem lastBlock_resume : (s.onSite Site.resumeClose).lastBlock = s.lastBlock := by
  rcases s.resume_eq with hresume | ⟨-, -, hresume⟩
  · rw [hresume]
  · rw [hresume]

end Calls

/-- The blocks that a deed announces: one or none. -/
def heralded (s : Synchronizer (Recorded σ)) : Deed σ → List Block
  | .call c => (s.announced? c).toList
  | _ => []

/-- The blocks that were announced, in order. -/
def announcements (C : Chain σ) : List (Deed σ) → Synchronizer (Recorded σ) → List Block
  | [], _ => []
  | d :: deeds, s => s.heralded d ++ announcements C deeds (s.happen C d)

theorem lastBlock_happen (s : Synchronizer (Recorded σ)) (d : Deed σ) :
    (s.happen C d).lastBlock = (s.heralded d).getLast?.or s.lastBlock := by
  cases d with
  | call c =>
    show (s.call c).lastBlock = (s.announced? c).toList.getLast?.or s.lastBlock
    rw [s.lastBlock_call c]
    cases s.announced? c with
    | none => rfl
    | some b => rfl
  | close => exact s.lastBlock_close
  | resume => exact s.lastBlock_resume
  | _ => rfl

/-- **What is remembered is the last announcement**, or what was remembered before. -/
theorem lastBlock_after (deeds : List (Deed σ)) :
    ∀ s : Synchronizer (Recorded σ),
      (s.after C deeds).lastBlock = (announcements C deeds s).getLast?.or s.lastBlock := by
  induction deeds with
  | nil => intro s; rfl
  | cons d deeds ih =>
    intro s
    show ((s.happen C d).after C deeds).lastBlock
      = (s.heralded d ++ announcements C deeds (s.happen C d)).getLast?.or s.lastBlock
    rw [ih (s.happen C d), s.lastBlock_happen d, List.getLast?_append, Option.or_assoc]

/-! ## §2. Something to remember. -/

/-- Unless a block is remembered, nothing is in store and nothing in flight. -/
structure Mindful (s : Synchronizer (Recorded σ)) : Prop where
  opened : s.pipeline.queue.Opened
  silent : s.lastBlock = none →
    s.pipeline.queue.contents = [] ∧ s.pipeline.importer.inFlight = []

namespace Mindful

variable {s : Synchronizer (Recorded σ)}

theorem call (h : Mindful s) (c : Call) : Mindful (s.call c) := by
  refine ⟨?_, fun hnone => ?_⟩
  · rw [s.queue_call c]
    cases c.onQueue? with
    | none => exact h.opened
    | some k => exact h.opened.performed k
  · rw [s.lastBlock_call c] at hnone
    obtain ⟨hunannounced, hbefore⟩ := Option.or_eq_none_iff.mp hnone
    obtain ⟨hnothing, hrest⟩ := h.silent hbefore
    refine ⟨?_, (Served.call s c).pipeline.inFlight.trans hrest⟩
    rcases s.queue_call_of_unannounced hunannounced with hqueue | hqueue
    · rw [hqueue]
      exact hnothing
    · rw [hqueue, (BlockQueue.Holds.clear s.pipeline.queue).contents_eq]
      rfl

/-- The importer needs a block to put one back. -/
theorem work (h : Mindful s) : Mindful (s.work C.recorded) := by
  rcases s.work_eq_or_move C.recorded with hsame | hmove
  · rw [hsame]
    exact h
  · have hlast : (s.work C.recorded).lastBlock = s.lastBlock := rfl
    rcases hmove.flow with ⟨hqueue, hflight⟩ | ⟨-, hqueue, hflight⟩ | ⟨hb, hqueue, hflight⟩
      | ⟨hb, hqueue, hflight⟩
    · exact ⟨hqueue ▸ h.opened, fun hnone => by rw [hqueue, hflight]; exact h.silent hnone⟩
    · refine ⟨hqueue ▸ h.opened.performed .poll, fun hnone => ?_⟩
      obtain ⟨hnothing, -⟩ := h.silent hnone
      obtain ⟨hanswer, hnext⟩ := BlockQueue.poll_of_contents_nil hnothing
      rw [hqueue, hflight, hanswer, hnext]
      exact ⟨hnothing, rfl⟩
    · refine ⟨hqueue ▸ h.opened, fun hnone => ?_⟩
      rw [(h.silent hnone).2] at hb
      cases hb
    · refine ⟨hqueue ▸ h.opened.performed (.enqueue _), fun hnone => ?_⟩
      rw [(h.silent hnone).2] at hb
      cases hb

theorem happen (h : Mindful s) (d : Deed σ) : Mindful (s.happen C d) := by
  rcases s.deed_cases C d with ⟨c, rfl⟩ | rfl | haside
  · exact h.call c
  · exact h.work
  · refine ⟨by rw [haside.queue]; exact h.opened, fun hnone => ?_⟩
    rw [s.lastBlock_happen d] at hnone
    rw [haside.queue, haside.inFlight]
    exact h.silent (Option.or_eq_none_iff.mp hnone).2

theorem after (h : Mindful s) (deeds : List (Deed σ)) : Mindful (s.after C deeds) :=
  after_kept Mindful (fun d (_ : True) h => h.happen d) (fun _ _ => trivial) h

end Mindful

/-- A synchronizer remembers at first what it finds at the back of its queue. -/
theorem peekBack_of_start {settings : Settings} {canRun : Bool} {site : Site σ}
    {s : Synchronizer σ} (h : start settings canRun site = .ok s) :
    site.pipeline.queue.peekBack = .ok s.lastBlock := by
  unfold start at h
  obtain ⟨-, -, h⟩ := exists_of_bind_ok h
  dsimp only at h
  split at h
  · cases h
  · obtain ⟨last, hlast, h⟩ := exists_of_bind_ok h
    cases h
    cases hback : site.pipeline.queue.peekBack with
    | error e =>
      rw [hback] at hlast
      cases hlast
    | ok found =>
      rw [hback] at hlast
      cases hlast
      rfl

theorem Mindful.of_start {settings : Settings} {canRun : Bool} {site : Site (Recorded σ)}
    {s : Synchronizer (Recorded σ)} (hqueue : site.pipeline.queue.Opened)
    (hstart : start settings canRun site = .ok s) : Mindful s := by
  have hback := BlockQueue.getLast?_contents_of_peekBack (peekBack_of_start hstart)
  obtain ⟨events, hpipeline⟩ := exists_pipeline_start hstart
  refine ⟨by rw [hpipeline]; exact hqueue, fun hnone => ?_⟩
  rw [hnone] at hback
  rw [hpipeline]
  exact ⟨List.getLast?_eq_none_iff.mp hback, rfl⟩

/-! ## §3. The answer. -/

/-- What a refused append leaves alone is all that the answer depends on. -/
theorem announcedLast_eq (C : Chain σ) {s t : Synchronizer σ}
    (hqueue : t.pipeline.queue = s.pipeline.queue) (hlast : t.lastBlock = s.lastBlock)
    (hchain : t.pipeline.chain = s.pipeline.chain) : t.announcedLast C = s.announcedLast C := by
  unfold announcedLast
  rw [hqueue, hlast, hchain]

/-- **THE LAST BLOCK IS THE LAST ANNOUNCED.**  Over any queue that opened, and whatever
has happened since a synchronizer started: the queue is empty exactly if nothing is in
store, and then the answer is the head of the chain.  Otherwise it is the block announced
last since the start, or the one at the back of the queue then if none was; it is
remembered, so nobody has to fall back on the chain.  An append that is refused changes
neither the queue nor the answer, and an empty list is refused.  The question is asked
between two calls, not in the middle of one. -/
theorem announcedLast_after {settings : Settings} {canRun : Bool} {site : Site (Recorded σ)}
    {s₀ : Synchronizer (Recorded σ)} (hqueue : site.pipeline.queue.Opened)
    (hstart : start settings canRun site = .ok s₀) (deeds : List (Deed σ)) :
    let s := s₀.after C deeds
    let found := site.pipeline.queue.blocks.getLast?
    site.pipeline.queue.peekBack = .ok found
      ∧ (s.pipeline.queue.isEmpty = true ↔ s.pipeline.queue.contents = [])
      ∧ (s.pipeline.queue.isEmpty = true →
        s.announcedLast C.recorded = C.best s.pipeline.chain.state)
      ∧ (s.pipeline.queue.isEmpty = false →
        s.lastBlock = some (s.announcedLast C.recorded)
          ∧ (announcements C deeds s₀).getLast?.or found = some (s.announcedLast C.recorded))
      ∧ (∀ b, (s.addBlock b).1.isOk = false →
        (s.addBlock b).2.pipeline.queue = s.pipeline.queue
          ∧ (s.addBlock b).2.announcedLast C.recorded = s.announcedLast C.recorded)
      ∧ (∀ bs, (s.addBlocks bs).1.isOk = false →
        (s.addBlocks bs).2.pipeline.queue = s.pipeline.queue
          ∧ (s.addBlocks bs).2.announcedLast C.recorded = s.announcedLast C.recorded)
      ∧ (s.addBlocks []).1.isOk = false := by
  intro s found
  have hback := peekBack_of_start hstart
  have hfound : found = s₀.lastBlock := BlockQueue.getLast?_blocks_of_peekBack hback
  have hmindful : Mindful s := (Mindful.of_start hqueue hstart).after deeds
  have hlast : s.lastBlock = (announcements C deeds s₀).getLast?.or found := by
    rw [hfound]
    exact lastBlock_after deeds s₀
  refine ⟨hfound ▸ hback, hmindful.opened.isEmpty_iff, fun hempty => ?_, fun hfull => ?_,
    fun b hrefused => ?_, fun bs hrefused => ?_, rfl⟩
  · unfold announcedLast
    rw [if_pos hempty]
    rfl
  · -- with nothing to remember, the queue would be empty
    have hsome : s.lastBlock = some (s.announcedLast C.recorded) := by
      unfold announcedLast
      rw [hfull, if_neg Bool.false_ne_true]
      cases hs : s.lastBlock with
      | some b => rfl
      | none =>
        rw [hmindful.opened.isEmpty_iff.mpr (hmindful.silent hs).1] at hfull
        cases hfull
    exact ⟨hsome, hlast.symm.trans hsome⟩
  · rcases s.addBlock_accepted_or_refused b with ⟨hok, -⟩ | ⟨-, hsame, hkept⟩
    · rw [hok] at hrefused
      cases hrefused
    · exact ⟨hkept, announcedLast_eq _ hkept hsame (s.keeps_addBlock b).chain⟩
  · rcases s.addBlocks_accepted_or_refused bs with ⟨hok, -⟩ | ⟨-, hsame, hkept⟩
    · rw [hok] at hrefused
      cases hrefused
    · exact ⟨hkept, announcedLast_eq _ hkept hsame (s.keeps_addBlocks bs).chain⟩

/-- Three blocks are announced at once, and for the last one there is no room.  The first
has no parent and goes back. -/
def crowded : List (Deed ScriptedChain) :=
  [.call (.addBlocks [heir 2, heir 1, heir 3]), .work, .work, .work]

/-- The block without room is the answer as long as something is queued, also while an
empty list is refused. -/
theorem announcedLast_after_crowded :
    let s := waitingForParent.after ScriptedChain.chain (crowded ++ [.call (.addBlocks [])])
    s.pipeline.queue.blocks = [heir 1, heir 2]
      ∧ s.announcedLast ScriptedChain.chain.recorded = heir 3
      ∧ s.clear.announcedLast ScriptedChain.chain.recorded = heir 0 := by
  intro s
  have hqueue : waitingForParent.pipeline.queue.Opened :=
    .opened (BlockQueue.openTree_empty 2)
  have hstart : start ⟨1, 2, 5⟩ true waitingForParent.toSite = .ok waitingForParent := rfl
  have hfull := (announcedLast_after (C := ScriptedChain.chain) hqueue hstart
    (crowded ++ [.call (.addBlocks [])])).2.2.2.1 (by decide +kernel)
  have hlast : (announcements ScriptedChain.chain (crowded ++ [.call (.addBlocks [])])
      waitingForParent).getLast? = some (heir 3) := by decide +kernel
  rw [hlast] at hfull
  exact ⟨by decide +kernel, (Option.some.inj hfull.2).symm, by decide +kernel⟩

end BlockSync.Synchronizer
