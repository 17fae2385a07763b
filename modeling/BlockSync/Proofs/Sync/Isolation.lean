/-
  BlockSync.Proofs.Sync.Isolation
  ───────────────────────────────
  **A FAILING BLOCK IS INVISIBLE TO THE OTHERS.**

  An import that breaks down has no outcome, so nothing goes back and there is no
  pause: the importer looks at the queue again.  Let an importer work by itself on some
  blocks (`Undisturbed`), and let every attempt on some of their hashes break down.

      Undisturbed.isolated   it goes round the blocks as a `Rotation` does, and each
                             block that breaks down is attempted once, in its turn
      failing_invisible      so what becomes of the others is what would have become of
                             them without those blocks

  The one way in which the others can tell is the key space of a tree: where a block
  that breaks down stands at its very end, an orphan before it finds no position on its
  way back, and without that block it would have found one.  A queue in memory always
  has room (`Roomy`); the log of the other one tells when there was none.
-/
import BlockSync.Proofs.Chain.Scripts
import BlockSync.Proofs.Sync.Delivery

namespace BlockSync

/-- A queue in memory is one for good. -/
theorem BlockQueue.tree?_poll {q : BlockQueue} (h : q.tree? = none) :
    q.poll.next.tree? = none := by
  cases q with
  | volatile q => rfl
  | stored q => cases h

/-- It has room for any block. -/
theorem BlockQueue.tree?_enqueue {q : BlockQueue} (h : q.tree? = none) (b : Block) :
    (q.enqueue b).answer = .ok () ∧ (q.enqueue b).next.tree? = none := by
  cases q with
  | volatile q => exact ⟨rfl, rfl⟩
  | stored q => cases h

namespace Pipeline

open Synchronizer (heir)

variable {σ : Type} {C : Chain σ} {answer : List Block → Block → Verdict}
  {Made : σ → List Block → List Block → Prop} {keep : Block → Bool} {bs : List Block}
  {p q r : Pipeline (Recorded σ)} {b : Block} {since : Nat}

/-! ## §1. An importer by itself. -/

/-- What may become of a pipeline while nobody but its importer touches the queue, and
nobody tells it to stop. -/
inductive Undisturbed (C : Chain σ) (Made : σ → List Block → List Block → Prop)
    (p : Pipeline (Recorded σ)) : Pipeline (Recorded σ) → Prop where
  | begun : Undisturbed C Made p p
  | worked {q r : Pipeline (Recorded σ)} (h : Undisturbed C Made p q)
      (hstep : q.step C.recorded = some r) : Undisturbed C Made p r
  /-- Anything else happens: time passes, the chain changes by itself. -/
  | passed {q r : Pipeline (Recorded σ)} (h : Undisturbed C Made p q)
      (hqueue : r.queue = q.queue) (himporter : r.importer = q.importer)
      (hreceived : r.chain.received = q.chain.received)
      (hconcluded : r.chain.concluded = q.chain.concluded)
      (hmade : Made r.chain.state (q.chain.concluded.map Prod.fst) q.importer.inFlight)
      (hroom : r.roomless = q.roomless) : Undisturbed C Made p r

theorem Undisturbed.trans (h : Undisturbed C Made p q) (h' : Undisturbed C Made q r) :
    Undisturbed C Made p r := by
  induction h' with
  | begun => exact h
  | worked _ hstep ih => exact ih.worked hstep
  | passed _ hqueue himporter hreceived hconcluded hmade hroom ih =>
    exact ih.passed hqueue himporter hreceived hconcluded hmade hroom

theorem Undisturbed.run (h : Undisturbed C Made p q) (limit : Nat) :
    Undisturbed C Made p (q.run C.recorded limit) := by
  induction limit generalizing q with
  | zero => exact h
  | succ limit ih =>
    unfold Pipeline.run
    cases hstep : q.step C.recorded with
    | none => exact h
    | some r => exact ih (h.worked hstep)

/-- Every orphan found room on its way back: a queue in memory has room for all, and
for a queue in a tree the log does not say otherwise. -/
def Roomy (p q : Pipeline σ) : Prop := p.queue.tree? = none ∨ q.roomless = p.roomless

/-- A pipeline whose new importer is about to begin with some blocks. -/
structure Begins (Made : σ → List Block → List Block → Prop) (bs : List Block)
    (p : Pipeline (Recorded σ)) : Prop where
  queue : p.queue.Holds bs
  received : p.chain.received = []
  concluded : p.chain.concluded = []
  made : Made p.chain.state [] []
  importer : ∃ backoff, p.importer = .fresh backoff

/-! ## §2. The invariant. -/

/-- How it stands with a pipeline whose importer works by itself on some blocks, of which
those that are not kept break down. -/
structure Isolated (answer : List Block → Block → Verdict)
    (Made : σ → List Block → List Block → Prop) (keep : Block → Bool) (bs : List Block)
    (p q : Pipeline (Recorded σ)) : Prop where
  running : q.importer.stopSignalled = false
  inLoop : q.importer.phase ≠ .ended
  asleep : q.importer.phase = .asleep → q.queue.blocks = []
  queue : q.queue.Holds q.queue.blocks
  storable : ∀ b ∈ q.importer.inFlight, b.Storable
  received : q.chain.received = q.chain.concluded.map Prod.fst ++ q.importer.inFlight
  made : Made q.chain.state (q.chain.concluded.map Prod.fst) q.importer.inFlight
  volatile : p.queue.tree? = none → q.queue.tree? = none
  roomless : p.roomless <:+ q.roomless
  /-- Whether or not there was room for the others, those that break down are in order. -/
  inOrder : InOrder keep bs q.chain.received q.queue.blocks
  /-- A block in flight is still the first of those that wait. -/
  rotation : Roomy p q → Rotation.after answer bs q.chain.concluded.length
    = ⟨q.chain.concluded, q.importer.inFlight ++ q.queue.blocks⟩

namespace Isolated

theorem start (h : Begins Made bs p) : Isolated answer Made keep bs p p := by
  obtain ⟨backoff, himporter⟩ := h.importer
  have hblocks := h.queue.blocks_eq
  exact {
    running := by rw [himporter]; rfl
    inLoop := by rw [himporter]; exact nofun
    asleep := by rw [himporter]; exact nofun
    queue := by rw [hblocks]; exact h.queue
    storable := by rw [himporter]; exact nofun
    received := by rw [h.received, h.concluded, himporter]; rfl
    made := by rw [h.concluded, himporter]; exact h.made
    volatile := id
    roomless := List.suffix_refl _
    inOrder := by rw [h.received, hblocks]; exact InOrder.start
    rotation := by
      intro _
      rw [h.concluded, himporter, hblocks]
      rfl }

/-- If all had room until now, all had room before. -/
theorem roomy_of_suffix (h : Isolated answer Made keep bs p q) (hsuffix : q.roomless <:+ r.roomless)
    (hroom : Roomy p r) : Roomy p q := by
  refine hroom.imp_right fun heq => ?_
  rw [heq] at hsuffix
  exact hsuffix.eq_of_length_le h.roomless.length_le

/-- What leaves the queue, the chain and the block in flight alone. -/
theorem aside (h : Isolated answer Made keep bs p q)
    (hrunning : r.importer.stopSignalled = false) (hinLoop : r.importer.phase ≠ .ended)
    (hasleep : r.importer.phase = .asleep → q.queue.blocks = []) (hqueue : r.queue = q.queue)
    (hflight : r.importer.inFlight = q.importer.inFlight)
    (hreceived : r.chain.received = q.chain.received)
    (hconcluded : r.chain.concluded = q.chain.concluded)
    (hmade : Made r.chain.state (q.chain.concluded.map Prod.fst) q.importer.inFlight)
    (hsuffix : q.roomless <:+ r.roomless) : Isolated answer Made keep bs p r where
  running := hrunning
  inLoop := hinLoop
  asleep := by rw [hqueue]; exact hasleep
  queue := by rw [hqueue]; exact h.queue
  storable := by rw [hflight]; exact h.storable
  received := by rw [hreceived, hconcluded, hflight]; exact h.received
  made := by rw [hconcluded, hflight]; exact hmade
  volatile := by rw [hqueue]; exact h.volatile
  roomless := h.roomless.trans hsuffix
  inOrder := by rw [hreceived, hqueue]; exact h.inOrder
  rotation := by
    intro hroom
    rw [hconcluded, hflight, hqueue]
    exact h.rotation (h.roomy_of_suffix hsuffix hroom)

/-- The front block goes to the chain, and stays at the front of the rotation. -/
theorem took (hanswers : C.AnswersBy answer Made) (h : Isolated answer Made keep bs p q)
    (hphase : q.importer.phase = .ready) : Isolated answer Made keep bs p (q.take C.recorded) := by
  have hflight : q.importer.inFlight = [] := inFlight_of_resting (by simp [hphase])
  have hsuffix : q.roomless <:+ (q.take C.recorded).roomless :=
    roomless_suffix (Move.took (C := C.recorded) hphase h.running).journal
  have hholds := h.queue
  cases hblocks : q.queue.blocks with
  | nil =>
    -- it finds nothing, and falls asleep
    rw [hblocks] at hholds
    obtain ⟨hanswer, hnext⟩ := hholds.poll_nil
    rw [q.take_of_empty C.recorded hanswer] at hsuffix ⊢
    exact h.aside h.running nofun (fun _ => hblocks) hnext hflight.symm rfl rfl h.made hsuffix
  | cons b rest =>
    rw [hblocks] at hholds
    obtain ⟨hanswer, hnext⟩ := hholds.poll_cons
    have hleft := hnext.blocks_eq
    have hreceived := h.received
    have hmade := h.made
    have horder := h.inOrder
    have hrotation := h.rotation
    rw [hblocks] at horder hrotation
    rw [hflight] at hreceived hmade hrotation
    rw [q.take_of_ok C.recorded hanswer] at hsuffix ⊢
    exact {
      running := h.running
      inLoop := nofun
      asleep := nofun
      queue := by
        show q.queue.poll.next.Holds q.queue.poll.next.blocks
        rw [hleft]
        exact hnext
      storable := by
        intro d hd
        rw [List.mem_singleton.mp hd]
        exact hholds.storable b List.mem_cons_self
      received := by
        show q.chain.received ++ [b] = q.chain.concluded.map Prod.fst ++ [b]
        rw [hreceived, List.append_nil]
      made := hanswers.receive hmade b
      volatile := fun hnone => BlockQueue.tree?_poll (h.volatile hnone)
      roomless := h.roomless.trans hsuffix
      inOrder := by
        show InOrder keep bs (q.chain.received ++ [b]) q.queue.poll.next.blocks
        rw [hleft]
        exact InOrder.taken_iff.mp horder
      rotation := by
        intro hroom
        show _ = Rotation.mk q.chain.concluded ([b] ++ q.queue.poll.next.blocks)
        rw [hleft]
        exact hrotation (h.roomy_of_suffix hsuffix hroom) }

/-- The end of an import puts an orphan behind the others, and nobody else; or there was
no room for it, and the log says so. -/
theorem queue_finish_cases (since : Nat) (v : Verdict) (chain : Recorded σ)
    (hqueue : q.queue.Holds q.queue.blocks) (hb : b.Storable) :
    ({ q with chain := chain }.finish b since v).queue.Holds
        (q.queue.blocks ++ Rotation.goesBack b v)
      ∨ ({ q with chain := chain }.finish b since v).queue = q.queue
        ∧ v = .outcome .noParent
        ∧ (q.queue.enqueue b).answer = .error .keySpaceExhausted
        ∧ ({ q with chain := chain }.finish b since v).roomless ≠ q.roomless := by
  rw [queue_finish]
  by_cases hv : v = .outcome .noParent
  · subst hv
    rw [queue_settle_noParent, Rotation.goesBack_noParent]
    rcases hqueue.enqueue hb with ⟨-, hnext⟩ | ⟨hanswer, hnext⟩
    · exact Or.inl hnext
    · obtain ⟨earlier, hjournal, hearlier⟩ :=
        exists_journal_settle_noParent { q with chain := chain } (q.clock - since) hanswer
      exact Or.inr ⟨hnext, rfl, hanswer, roomless_ne_of_requeueFailed
        ((journal_finish _ b since _).trans hjournal) hearlier⟩
  · rw [queue_settle _ _ _ hv, Rotation.goesBack_of_ne hv, List.append_nil]
    exact Or.inl hqueue

theorem tree?_finish {v : Verdict} {chain : Recorded σ} (h : q.queue.tree? = none) :
    ({ q with chain := chain }.finish b since v).queue.tree? = none := by
  rw [queue_finish]
  by_cases hv : v = .outcome .noParent
  · subst hv
    rw [queue_settle_noParent]
    exact (BlockQueue.tree?_enqueue h b).2
  · rw [queue_settle _ _ _ hv]
    exact h

/-- **The end of an import is the next attempt of the rotation.** -/
theorem finished (hanswers : C.AnswersBy answer Made) (hblind : Blind answer keep bs)
    (h : Isolated answer Made keep bs p q) (hphase : q.importer.phase = .importing b since)
    {v : Verdict} {chain : Recorded σ} (hchain : C.recorded.conclude q.chain b = some (v, chain)) :
    Isolated answer Made keep bs p ({ q with chain := chain }.finish b since v) := by
  have hflight : q.importer.inFlight = [b] := inFlight_of_importing hphase
  have hdone := inFlight_finish { q with chain := chain } b since v
  have hb : b.Storable := h.storable b (by rw [hflight]; exact List.mem_singleton_self b)
  have hsuffix : q.roomless <:+ ({ q with chain := chain }.finish b since v).roomless :=
    roomless_suffix (Move.finished (C := C.recorded) hphase hchain).journal
  have hmade := h.made
  have hreceived := h.received
  rw [hflight] at hmade hreceived
  obtain ⟨hsame, hconcluded⟩ := Chain.recorded_conclude hchain
  obtain ⟨hv, hnext⟩ := hanswers.conclude hmade (Chain.conclude_of_recorded hchain)
  have hturn : InOrder keep bs (q.chain.concluded.map Prod.fst) (b :: q.queue.blocks) := by
    refine InOrder.taken_iff.mpr ?_
    rw [← hreceived]
    exact h.inOrder
  have hcases := queue_finish_cases since v chain h.queue hb
  have hawake := awake_finish { q with chain := chain } b since v
  exact {
    running := (stopSignalled_finish _ b since v).trans h.running
    inLoop := hawake.1
    asleep := fun hasleep => absurd hasleep hawake.2
    queue := by
      rcases hcases with hholds | ⟨hqueue, -⟩
      · rw [hholds.blocks_eq]
        exact hholds
      · rw [hqueue]
        exact h.queue
    storable := by rw [hdone]; exact nofun
    received := by
      rw [chain_finish, hdone, hsame, hconcluded, hreceived, List.map_append, List.append_nil]
      rfl
    made := by
      rw [chain_finish, hdone, hconcluded, List.map_append]
      exact hnext
    volatile := fun hnone => tree?_finish (h.volatile hnone)
    roomless := h.roomless.trans hsuffix
    inOrder := by
      rw [chain_finish, hsame, hreceived]
      rcases hcases with hholds | ⟨hqueue, -⟩
      · rw [hholds.blocks_eq, hv]
        exact hblind.inOrder_attempt hturn
      · -- an orphan for which there is no room is gone
        rw [hqueue]
        exact InOrder.taken_iff.mp hturn
    rotation := by
      intro hroom
      rcases hcases with hholds | ⟨-, -, hanswer, hlost⟩
      · have hrotation := h.rotation (h.roomy_of_suffix hsuffix hroom)
        rw [hflight] at hrotation
        rw [chain_finish, hconcluded, hdone, hholds.blocks_eq, List.length_append, hv]
        exact Rotation.after_succ_of_cons hrotation
      · -- there was room, so nobody was lost
        exfalso
        rcases hroom with hnone | heq
        · rw [(BlockQueue.tree?_enqueue (h.volatile hnone) b).1] at hanswer
          cases hanswer
        · refine hlost (List.IsSuffix.eq_of_length_le hsuffix ?_).symm
          rw [heq]
          exact h.roomless.length_le }

/-- **Each move of the importer** keeps the invariant. -/
theorem moved (hanswers : C.AnswersBy answer Made) (hblind : Blind answer keep bs)
    (h : Isolated answer Made keep bs p q) (hmove : Move C.recorded q r) :
    Isolated answer Made keep bs p r := by
  cases hmove with
  | started hphase =>
    have hflight := inFlight_of_resting (i := q.importer) (by simp [hphase])
    exact h.aside h.running nofun nofun rfl hflight.symm rfl rfl h.made
      (roomless_suffix (Move.started (C := C.recorded) hphase).journal)
  | stopped _ hstop =>
    rw [h.running] at hstop
    cases hstop
  | took hphase _ => exact h.took hanswers hphase
  | finished hphase hchain => exact h.finished hanswers hblind hphase hchain
  | woke hphase hdue =>
    have hflight := inFlight_of_resting (i := q.importer) (by simp [hphase])
    exact h.aside h.running nofun nofun rfl hflight.symm rfl rfl h.made
      (roomless_suffix (Move.woke (C := C.recorded) hphase hdue).journal)

end Isolated

/-- **An importer by itself goes round its blocks.** -/
theorem Undisturbed.isolated (hanswers : C.AnswersBy answer Made) (hblind : Blind answer keep bs)
    (hp : Begins Made bs p) (h : Undisturbed C Made p q) : Isolated answer Made keep bs p q := by
  induction h with
  | begun => exact .start hp
  | worked _ hstep ih => exact ih.moved hanswers hblind (move_of_step hstep)
  | passed _ hqueue himporter hreceived hconcluded hmade hroom ih =>
    exact ih.aside (by rw [himporter]; exact ih.running) (by rw [himporter]; exact ih.inLoop)
      (by rw [himporter]; exact ih.asleep) hqueue (by rw [himporter]) hreceived hconcluded hmade
      ⟨[], hroom.symm⟩

/-! ## §3. The importer goes on. -/

/-- The chain can always get into a state in which it ends the attempt that has begun. -/
def Responsive (C : Chain σ) (Made : σ → List Block → List Block → Prop) : Prop :=
  ∀ (c : σ) (ended : List Block) (b : Block), Made c ended [b] →
    ∃ d, Made d ended [b] ∧ (C.conclude d b).isSome

namespace Isolated

/-- A block that waits is taken at last. -/
theorem exists_importing (h : Isolated answer Made keep bs p q) (hrest : q.importer.inFlight = [])
    {rest : List Block} (hblocks : q.queue.blocks = b :: rest) :
    ∃ r since, Undisturbed C Made q r ∧ r.importer.phase = .importing b since
      ∧ r.chain.concluded = q.chain.concluded := by
  have hholds := h.queue
  rw [hblocks] at hholds
  obtain ⟨hanswer, -⟩ := hholds.poll_cons
  -- from where it looks at the queue it takes the block
  have htake : ∀ {r : Pipeline (Recorded σ)}, Undisturbed C Made q r → r.importer.phase = .ready →
      r.importer.stopSignalled = false → r.queue = q.queue →
      r.chain.concluded = q.chain.concluded →
      ∃ r' since, Undisturbed C Made q r' ∧ r'.importer.phase = .importing b since
        ∧ r'.chain.concluded = q.chain.concluded := by
    intro r hr hready hrunning hqueue hconcluded
    rw [← hqueue] at hanswer
    refine ⟨r.take C.recorded, r.clock, hr.worked (step_of_ready hready hrunning), ?_, ?_⟩
    · rw [r.take_of_ok C.recorded hanswer]
      rfl
    · rw [r.take_of_ok C.recorded hanswer]
      exact hconcluded
  cases hphase : q.importer.phase with
  | unstarted => exact htake (Undisturbed.begun.worked (step_of_unstarted hphase)) rfl h.running rfl rfl
  | ready => exact htake .begun hphase h.running rfl rfl
  | asleep =>
    -- it fell asleep on an empty queue, and nobody appends
    rw [h.asleep hphase] at hblocks
    cases hblocks
  | importing d since =>
    rw [inFlight_of_importing hphase] at hrest
    cases hrest
  | pausing wakeAt =>
    -- time passes until the pause is over
    let due : Pipeline (Recorded σ) := { q with clock := wakeAt }
    have hdue : Undisturbed C Made q due := Undisturbed.begun.passed rfl rfl rfl rfl h.made rfl
    exact htake (hdue.worked (step_of_pausing hphase h.running (Nat.le_refl wakeAt))) rfl h.running
      rfl rfl
  | ended => exact absurd hphase h.inLoop

/-- The import ends as soon as the chain gets into a state that is ready for it. -/
theorem exists_finished (hresponsive : Responsive C Made) (h : Isolated answer Made keep bs p q)
    (hphase : q.importer.phase = .importing b since) :
    ∃ r v, Undisturbed C Made q r ∧ r.importer.inFlight = []
      ∧ r.chain.concluded = q.chain.concluded ++ [(b, v)] := by
  have hmade := h.made
  rw [inFlight_of_importing hphase] at hmade
  obtain ⟨d, hmade', hready⟩ := hresponsive _ _ _ hmade
  obtain ⟨⟨v, next⟩, hconclude⟩ := Option.isSome_iff_exists.mp hready
  let due : Pipeline (Recorded σ) := { q with chain := { q.chain with state := d } }
  have hdue : Undisturbed C Made q due := by
    refine Undisturbed.begun.passed rfl rfl rfl rfl ?_ rfl
    rw [inFlight_of_importing hphase]
    exact hmade'
  let ended : Recorded σ := ⟨next, q.chain.received, q.chain.concluded ++ [(b, v)]⟩
  have hrecorded : C.recorded.conclude due.chain b = some (v, ended) := by
    show (C.conclude d b).map _ = _
    rw [hconclude]
    rfl
  refine ⟨_, v, hdue.worked (step_of_importing hphase hrecorded), inFlight_finish _ b since v, ?_⟩
  rw [chain_finish]

end Isolated

namespace Undisturbed

/-- **The first of those that wait is attempted next**, whatever was attempted before. -/
theorem exists_attempt (hanswers : C.AnswersBy answer Made) (hblind : Blind answer keep bs)
    (hresponsive : Responsive C Made) (hp : Begins Made bs p) (hq : Undisturbed C Made p q)
    {rest : List Block} (hwaiting : q.importer.inFlight ++ q.queue.blocks = b :: rest) :
    ∃ r v, Undisturbed C Made q r ∧ r.importer.inFlight = []
      ∧ r.chain.concluded = q.chain.concluded ++ [(b, v)] := by
  have h := hq.isolated hanswers hblind hp
  rcases resting_or_importing q.importer with hrest | ⟨d, since, hphase⟩
  · rw [hrest, List.nil_append] at hwaiting
    obtain ⟨q', since, hq', hphase, hconcluded⟩ := h.exists_importing (C := C) hrest hwaiting
    obtain ⟨r, v, hr, hdone, hattempt⟩ :=
      ((hq.trans hq').isolated hanswers hblind hp).exists_finished hresponsive hphase
    rw [hconcluded] at hattempt
    exact ⟨r, v, hq'.trans hr, hdone, hattempt⟩
  · rw [inFlight_of_importing hphase] at hwaiting
    cases hwaiting
    exact h.exists_finished hresponsive hphase

/-- As many attempts as the rotation has are open to an importer, if all have room. -/
theorem exists_reaching (hanswers : C.AnswersBy answer Made) (hblind : Blind answer keep bs)
    (hresponsive : Responsive C Made) (hp : Begins Made bs p) {m : Nat}
    (hfull : (Rotation.after answer bs m).attempts.length = m) {k : Nat} (hk : k ≤ m) :
    ∃ q, Undisturbed C Made p q ∧ q.importer.inFlight = []
      ∧ (Roomy p q → q.chain.concluded.length = k) := by
  induction k with
  | zero =>
    obtain ⟨backoff, himporter⟩ := hp.importer
    exact ⟨p, .begun, by rw [himporter]; rfl, fun _ => by rw [hp.concluded]; rfl⟩
  | succ k ih =>
    obtain ⟨q, hq, hrest, hlength⟩ := ih (by omega)
    by_cases hroom : Roomy p q
    · -- a block waits, for the rotation has one more attempt
      obtain ⟨b, rest, hwaiting⟩ := Rotation.exists_waiting hfull hk
      have hrotation := (hq.isolated hanswers hblind hp).rotation hroom
      rw [hlength hroom] at hrotation
      rw [hrotation] at hwaiting
      obtain ⟨r, v, hr, hdone, hattempt⟩ :=
        hq.exists_attempt hanswers hblind hresponsive hp hwaiting
      refine ⟨r, hq.trans hr, hdone, fun _ => ?_⟩
      rw [hattempt, List.length_append, hlength hroom]
      rfl
    · exact ⟨q, hq, hrest, fun hroom' => absurd hroom' hroom⟩

end Undisturbed

/-! ## §4. With the failing blocks and without them. -/

/-- What became of the blocks that do not fail is the same: the attempts on them, with
their verdicts, what was connected, and what is still queued. -/
structure SameOthers (fails : BlockHash → Bool) (q q' : Pipeline (Recorded σ)) : Prop where
  concluded : q'.chain.concluded = q.chain.concluded.filter fun e => !fails e.1.hash
  received : q'.chain.received = q.chain.received.filter fun b => !fails b.hash
  connected : connected q'.chain.concluded = connected q.chain.concluded
  queue : q'.queue.blocks = q.queue.blocks.filter fun b => !fails b.hash

/-- **A FAILING BLOCK IS INVISIBLE TO THE OTHERS.**  Some blocks are queued, and the
importer works by itself.  The verdict of the chain on a block depends on the block, and
on how often its hash was attempted before; on each copy of a block with certain hashes
the import breaks down.

Then the importer does not leave its loop, and can always go on to the next block that
waits.  Each of the failing blocks is attempted once, in its turn, and does not go back.
And let a second importer have the same blocks without the failing ones.  If the first
one is between two attempts, so can be the second one, after as many attempts as the
first one made on other blocks; and whenever it is, then what became of the others is the
same.  Only where a tree had no position for an orphan, in either of the two runs, this
need not be so. -/
theorem failing_invisible {verdict : Block → Nat → Verdict} {fails : BlockHash → Bool}
    {p' : Pipeline (Recorded σ)} (hanswers : C.AnswersBy (Chain.byCount verdict) Made)
    (hresponsive : Responsive C Made)
    (hfails : ∀ b ∈ bs, fails b.hash = true →
      ∀ n < Chain.copies b.hash bs, (verdict b n).outcome? = none)
    (hp : Begins Made bs p) (hp' : Begins Made (bs.filter fun b => !fails b.hash) p')
    (hq : Undisturbed C Made p q) :
    q.hasEnded = false
      ∧ (∀ b rest, q.importer.inFlight ++ q.queue.blocks = b :: rest →
        ∃ r v, Undisturbed C Made q r ∧ r.importer.inFlight = []
          ∧ r.chain.concluded = q.chain.concluded ++ [(b, v)])
      ∧ ((q.chain.received ++ q.queue.blocks).filter fun b => fails b.hash)
        = bs.filter (fun b => fails b.hash)
      ∧ (q.importer.inFlight = [] → Roomy p q →
        let m := (q.chain.concluded.filter fun e => !fails e.1.hash).length
        (∃ q', Undisturbed C Made p' q' ∧ q'.importer.inFlight = []
          ∧ (Roomy p' q' → q'.chain.concluded.length = m))
        ∧ ∀ q', Undisturbed C Made p' q' → q'.importer.inFlight = [] → Roomy p' q' →
          q'.chain.concluded.length = m → SameOthers fails q q') := by
  have hblind := Chain.blind_byCount hfails
  have h := hq.isolated hanswers hblind hp
  -- on the other side nobody fails
  have hnobody : Blind (Chain.byCount verdict) (fun b => !fails b.hash)
      (bs.filter fun b => !fails b.hash) := by
    refine Chain.blind_byCount fun b hb hfail => ?_
    have hkept := (List.mem_filter.mp hb).2
    rw [hfail] at hkept
    cases hkept
  refine ⟨?_, ?_, ?_, ?_⟩
  · rw [Bool.eq_false_iff]
    exact fun hended => h.inLoop (hasEnded_iff.mp hended)
  · intro b rest hwaiting
    exact hq.exists_attempt hanswers hblind hresponsive hp hwaiting
  · have horder := h.inOrder
    unfold InOrder at horder
    simp only [Bool.not_not] at horder
    exact horder
  · intro hrest hroom
    have hrotation := h.rotation hroom
    have hsifted := hblind.after_filter q.chain.concluded.length
    have hconnected := hblind.connected_filter q.chain.concluded.length
    rw [hrest, List.nil_append] at hrotation
    rw [hrotation] at hsifted hconnected
    dsimp only at hsifted hconnected ⊢
    constructor
    · refine Undisturbed.exists_reaching hanswers hnobody hresponsive hp' ?_ (Nat.le_refl _)
      rw [hsifted]
    · intro q' hq' hrest' hroom' hlength
      have h' := hq'.isolated hanswers hnobody hp'
      have hrotation' := h'.rotation hroom'
      rw [hlength, hsifted, hrest', List.nil_append] at hrotation'
      obtain ⟨hconcluded, hblocks⟩ := Rotation.mk.inj hrotation'
      have hreceived := h.received
      have hreceived' := h'.received
      rw [hrest, List.append_nil] at hreceived
      rw [hrest', List.append_nil] at hreceived'
      exact {
        concluded := hconcluded.symm
        received := by
          rw [hreceived', hreceived, ← hconcluded, List.filter_map]
          rfl
        connected := by
          rw [← hconcluded]
          exact hconnected
        queue := hblocks.symm }

/-- Whoever runs the importer until it rests, and again after a while, does not disturb
it. -/
theorem Undisturbed.run_wait_run (hanswers : C.AnswersBy answer Made)
    (hblind : Blind answer keep bs) (hp : Begins Made bs p) (limit ms : Nat) :
    Undisturbed C Made p (((p.run C.recorded limit).wait ms).run C.recorded limit) := by
  have hrun : Undisturbed C Made p (p.run C.recorded limit) := Undisturbed.begun.run limit
  have hmade := (hrun.isolated hanswers hblind hp).made
  have hwait : Undisturbed C Made p ((p.run C.recorded limit).wait ms) :=
    hrun.passed rfl rfl rfl rfl hmade rfl
  exact hwait.run limit

/-- Of one hash the first attempt finds no parent, and of another one the first two break
down. -/
def grudging : ScriptedChain :=
  ((ScriptedChain.start (heir 0) false false).script (heir 1).hash [.outcome .noParent]).script
    (heir 2).hash [.fail, .crashOther]

theorem responsive_grudging : Responsive ScriptedChain.chain grudging.Spent :=
  fun _ _ _ h => ⟨_, h.release⟩

def failsTwice (h : BlockHash) : Bool := h = (heir 2).hash

/-- An importer that is about to begin with some queue. -/
def beginning (queue : BlockQueue) : Pipeline (Recorded ScriptedChain) where
  queue := queue
  chain := .start grudging
  metrics := none
  lifecycle := .running
  importer := .fresh 5
  clock := 0
  journal := []

theorem begins_beginning {queue : BlockQueue} (h : queue.Holds bs) :
    Begins grudging.Spent bs (beginning queue) :=
  ⟨h, rfl, rfl, ⟨rfl, fun _ => rfl⟩, ⟨5, rfl⟩⟩

/-- A queue in memory. -/
def inMemory (bs : List Block) : BlockQueue :=
  .volatile ⟨bs, HashIndex.empty.insertAll (bs.map Block.hash), 10⟩

/-- Two copies of a failing block among others, one of which has to wait. -/
def mixed : List Block := [heir 2, heir 1, heir 2, heir 3]

theorem failing_invisible_mixed :
    let run := fun p : Pipeline (Recorded ScriptedChain) =>
      ((p.run ScriptedChain.chain.recorded 20).wait 5).run ScriptedChain.chain.recorded 20
    let q := run (beginning (inMemory mixed))
    let q' := run (beginning (inMemory [heir 1, heir 3]))
    q.hasEnded = false ∧ SameOthers failsTwice q q'
      ∧ q.chain.received = [heir 2, heir 1, heir 2, heir 3, heir 1]
      ∧ q'.chain.received = [heir 1, heir 3, heir 1] := by
  have hanswers := grudging.answersBy_scripted
  have hfails : ∀ b ∈ mixed, failsTwice b.hash = true → ∀ n < Chain.copies b.hash mixed,
      (grudging.scripted b n).outcome? = none := by decide +kernel
  have hnobody : ∀ b ∈ [heir 1, heir 3], failsTwice b.hash = true →
      ∀ n < Chain.copies b.hash [heir 1, heir 3], (grudging.scripted b n).outcome? = none := by
    decide +kernel
  have hbegins : ∀ bs : List Block, (∀ b ∈ bs, b.Storable) →
      Begins grudging.Spent bs (beginning (inMemory bs)) :=
    fun bs hbs => begins_beginning ⟨rfl, HashIndex.Counts.empty.insertAll _, hbs⟩
  have hp := hbegins mixed (by decide +kernel)
  have hp' := hbegins [heir 1, heir 3] (by decide +kernel)
  have hq := Undisturbed.run_wait_run hanswers (Chain.blind_byCount hfails) hp 20 5
  have hq' := Undisturbed.run_wait_run hanswers (Chain.blind_byCount hnobody) hp' 20 5
  have hsifted : mixed.filter (fun b => !failsTwice b.hash) = [heir 1, heir 3] := by
    decide +kernel
  rw [← hsifted] at hp'
  obtain ⟨hrunning, -, -, hsame⟩ :=
    failing_invisible hanswers responsive_grudging hfails hp hp' hq
  obtain ⟨-, hothers⟩ := hsame (by decide +kernel) (Or.inl rfl)
  exact ⟨hrunning, hothers _ hq' (by decide +kernel) (Or.inl rfl) (by decide +kernel),
    by decide +kernel, by decide +kernel⟩

/-- A queue in a tree, from the last position but two on. -/
def atTheEnd (bs : List Block) : StoredQueue :=
  let first : UInt64 := 18446744073709551613
  ⟨Tree.empty.apply (Position.putFrom first (bs.map Block.Binary.encode)),
    ⟨first, first + bs.length.toUInt64⟩, HashIndex.empty.insertAll (bs.map Block.hash), 10⟩

/-- A failing block is at the last position, so that an orphan in front of it finds no
room on its way back.  Without the failing block the tree is empty by then, and the
orphan is queued again. -/
theorem orphan_lost_before_failing :
    let C := ScriptedChain.chain
    let p := beginning (.stored (atTheEnd [heir 1, heir 2]))
    let p' := beginning (.stored (atTheEnd [heir 1]))
    let q := ((p.run C.recorded 20).wait 5).run C.recorded 20
    let q' := p'.run C.recorded 20
    C.AnswersBy (Chain.byCount grudging.scripted) grudging.Spent
      ∧ (∀ b ∈ [heir 1, heir 2], failsTwice b.hash = true →
        ∀ n < Chain.copies b.hash [heir 1, heir 2], (grudging.scripted b n).outcome? = none)
      ∧ Begins grudging.Spent [heir 1, heir 2] p ∧ Begins grudging.Spent [heir 1] p'
      ∧ Undisturbed C grudging.Spent p q ∧ Undisturbed C grudging.Spent p' q'
      ∧ q.importer.inFlight = [] ∧ q'.importer.inFlight = []
      ∧ q'.chain.concluded.length
        = (q.chain.concluded.filter fun e => !failsTwice e.1.hash).length
      ∧ q.queue.blocks = [] ∧ q'.queue.blocks = [heir 1]
      ∧ ¬SameOthers failsTwice q q' := by
  have hanswers := grudging.answersBy_scripted
  have hfails : ∀ b ∈ [heir 1, heir 2], failsTwice b.hash = true →
      ∀ n < Chain.copies b.hash [heir 1, heir 2], (grudging.scripted b n).outcome? = none := by
    decide +kernel
  have hholds : ∀ bs : List Block, (∀ b ∈ bs, b.Storable) →
      (∀ e ∈ (atTheEnd bs).tree.entries, e.1.length = 8) →
      Span.recover (atTheEnd bs).tree = .ok (atTheEnd bs).span →
      (atTheEnd bs).tree.values = bs.map Block.Binary.encode →
      BlockQueue.Holds (.stored (atTheEnd bs)) bs := by
    intro bs hbs hkeys hspan hvalues
    have hfills := Tree.Fills.of_recover hkeys hspan
    rw [hvalues] at hfills
    exact StoredQueue.Holds.of_fills hfills (StoredQueue.map_decodeBlock_encode hbs)
      (HashIndex.Counts.empty.insertAll _)
  have hp := begins_beginning (hholds [heir 1, heir 2] (by decide +kernel) (by decide +kernel)
    (by decide +kernel) (by decide +kernel))
  have hp' := begins_beginning (hholds [heir 1] (by decide +kernel) (by decide +kernel)
    (by decide +kernel) (by decide +kernel))
  have hq := Undisturbed.run_wait_run hanswers (Chain.blind_byCount hfails) hp 20 5
  have hq' : Undisturbed ScriptedChain.chain grudging.Spent _
      ((beginning (.stored (atTheEnd [heir 1]))).run ScriptedChain.chain.recorded 20) :=
    Undisturbed.begun.run 20
  refine ⟨hanswers, hfails, hp, hp', hq, hq', by decide +kernel, by decide +kernel, by decide +kernel,
    by decide +kernel, by decide +kernel, fun hsame => ?_⟩
  exact absurd hsame.queue (by decide +kernel)

end Pipeline
end BlockSync
