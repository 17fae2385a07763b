/-
  BlockSync.Proofs.Sync.Delivery
  ──────────────────────────────
  **BLOCKS MAY COME IN ANY ORDER.**

  Blocks are queued in some order, perhaps several times, and each of them reaches
  a hash that the chain knows through parents that are queued too.  The importer is
  left alone with them (`Unattended`): nobody appends, nobody tells it to stop, time
  passes as it likes.

  The queue with the block in flight in front is the line of `Chain.Linked`: taking
  a block does not change it, and the end of an import is one attempt.  So every
  state of the run is a `Resolved` one (`Unattended.delivering`), and the patience
  of the line bounds the run:

      Unattended.delivered   n (n + 1) / 2 attempts at most, and then the queue is
                             empty and every hash that was not known is connected

  An orphan goes back whatever the capacity; the one thing that can go wrong is that
  no position is left for it.  A run in which that happened is told by its log.
-/
import BlockSync.Proofs.Chain.Linked
import BlockSync.Proofs.Sync.Conservation
import BlockSync.Proofs.Sync.Stopping

namespace BlockSync

/-! ## §1. The end of an attempt. -/

/-- A linked chain also ends its attempts by the links where a record is kept. -/
theorem Chain.Linked.recorded_conclude {σ : Type} {C : Chain σ}
    {Knows : σ → List BlockHash → Prop} (hC : C.Linked Knows) {r next : Recorded σ} {b : Block}
    {v : Verdict} {known : List BlockHash} (hknows : Knows r.state known)
    (h : C.recorded.conclude r b = some (v, next)) :
    v = .outcome (Chain.linkedOutcome known b)
      ∧ Knows next.state (Chain.learned known b) := by
  obtain ⟨c, hconclude, hnext⟩ := hC.conclude hknows b
  obtain ⟨⟨w, d⟩, hstate, heq⟩ := Option.map_eq_some_iff.mp h
  cases hstate.symm.trans hconclude
  cases heq
  exact ⟨rfl, hnext⟩

namespace Pipeline

open Synchronizer (heir)

variable {σ : Type} {C : Chain σ} {Knows : σ → List BlockHash → Prop}

/-- Whoever finds no room for a block says so in the log. -/
theorem roomless_ne_of_requeueFailed {p q : Pipeline σ} {number : UInt64} {earlier : List Event}
    (hjournal : q.journal = .requeueFailed number .keySpaceExhausted :: earlier)
    (hearlier : p.journal <:+ earlier) : q.roomless ≠ p.roomless := by
  obtain ⟨new, rfl⟩ := hearlier
  intro heq
  have hlength := congrArg List.length heq
  unfold roomless at hlength
  rw [hjournal, List.filterMap_cons, List.filterMap_append, List.length_cons,
    List.length_append] at hlength
  omega

/-- The queue after an attempt that lacked no room. -/
theorem holds_finish {q : Pipeline σ} {b : Block} {since : Nat} {v : Verdict} {chain : σ}
    {known : List BlockHash} {queued : List Block} (hb : b.Storable) (hqueue : q.queue.Holds queued)
    (hv : v = .outcome (Chain.linkedOutcome known b))
    (hroom : ({ q with chain := chain }.finish b since v).roomless = q.roomless) :
    ({ q with chain := chain }.finish b since v).queue.Holds (afterAttempt known b queued) := by
  rw [queue_finish]
  unfold afterAttempt
  split
  next hout =>
    obtain rfl : v = .outcome .noParent := by rw [hv, hout]
    rw [queue_settle_noParent]
    rcases hqueue.enqueue hb with ⟨-, hnext⟩ | ⟨hanswer, -⟩
    · exact hnext
    · -- the log would tell of it
      obtain ⟨earlier, hjournal, hearlier⟩ :=
        exists_journal_settle_noParent { q with chain := chain } (q.clock - since) hanswer
      exact absurd hroom (roomless_ne_of_requeueFailed ((journal_finish _ b since _).trans hjournal)
        hearlier)
  next hout =>
    have hne : v ≠ .outcome .noParent := fun heq => hout (Verdict.outcome.inj (hv.symm.trans heq))
    rw [queue_settle _ _ _ hne]
    exact hqueue

/-! ## §2. An importer left alone. -/

/-- What becomes of a pipeline in a number of steps of its importer, while nothing
else happens but that time passes. -/
inductive Unattended (C : Chain σ) (p : Pipeline (Recorded σ)) :
    (steps : Nat) → Pipeline (Recorded σ) → Prop where
  | begun : Unattended C p 0 p
  | worked {n : Nat} {q r : Pipeline (Recorded σ)} (h : Unattended C p n q)
      (hstep : q.step C.recorded = some r) : Unattended C p (n + 1) r
  | waited {n : Nat} {q : Pipeline (Recorded σ)} (h : Unattended C p n q) (ms : Nat) :
      Unattended C p n (q.wait ms)

theorem Unattended.journal {p q : Pipeline (Recorded σ)} {n : Nat} (h : Unattended C p n q) :
    p.journal <:+ q.journal := by
  induction h with
  | begun => exact List.suffix_refl _
  | worked _ hstep ih => exact ih.trans (move_of_step hstep).journal
  | waited _ _ ih => exact ih

/-! ## §3. The invariant. -/

/-- How many steps an importer has made at most since its last attempt ended. -/
def sinceAttempt : Phase → Nat
  | .ready => 1
  | .asleep => 2
  | .importing _ _ => 2
  | _ => 0

/-- How it stands with a pipeline that was left alone with some blocks, when its
chain knew some hashes. -/
structure Delivering (Knows : σ → List BlockHash → Prop) (known₀ : List BlockHash)
    (bs : List Block) (steps : Nat) (q : Pipeline (Recorded σ)) (known : List BlockHash)
    (queued : List Block) : Prop where
  running : q.importer.stopSignalled = false
  inLoop : q.importer.phase ≠ .ended
  asleep : q.importer.phase = .asleep → queued = []
  knows : Knows q.chain.state known
  queue : q.queue.Holds queued
  storable : ∀ b ∈ bs, b.Storable
  received : q.chain.received = q.chain.concluded.map Prod.fst ++ q.importer.inFlight
  resolved : Resolved known₀ bs known (q.importer.inFlight ++ queued) q.chain.concluded
  steps : steps ≤ 3 * q.chain.concluded.length + sinceAttempt q.importer.phase

namespace Delivering

variable {known₀ known : List BlockHash} {bs queued : List Block} {steps : Nat}
  {q : Pipeline (Recorded σ)}

theorem start {p : Pipeline (Recorded σ)} {c : σ} {backoff : Nat} (hchain : p.chain = .start c)
    (hknows : Knows c known) (hqueue : p.queue.Holds bs) (himporter : p.importer = .fresh backoff)
    (hrooted : ∀ b ∈ bs, Rooted known bs b) : Delivering Knows known bs 0 p known bs where
  running := by rw [himporter]; rfl
  inLoop := by rw [himporter]; exact fun h => by cases h
  asleep h := by rw [himporter] at h; cases h
  knows := by rw [hchain]; exact hknows
  queue := hqueue
  storable := hqueue.storable
  received := by rw [hchain, himporter]; rfl
  resolved := by rw [hchain, himporter]; exact Resolved.start hrooted
  steps := Nat.zero_le _

/-- Between phases in which no block is in flight nothing else changes. -/
theorem aside {r : Pipeline (Recorded σ)} (h : Delivering Knows known₀ bs steps q known queued)
    (hfrom : q.importer.inFlight = []) (hto : r.importer.inFlight = [])
    (hrunning : r.importer.stopSignalled = q.importer.stopSignalled)
    (hinLoop : r.importer.phase ≠ .ended) (hasleep : r.importer.phase = .asleep → queued = [])
    (hchain : r.chain = q.chain) (hqueue : r.queue = q.queue)
    (hsteps : sinceAttempt q.importer.phase + 1 ≤ sinceAttempt r.importer.phase) :
    Delivering Knows known₀ bs (steps + 1) r known queued where
  running := hrunning.trans h.running
  inLoop := hinLoop
  asleep := hasleep
  knows := by rw [hchain]; exact h.knows
  queue := by rw [hqueue]; exact h.queue
  storable := h.storable
  received := by rw [hchain, hto, ← hfrom]; exact h.received
  resolved := by rw [hchain, hto, ← hfrom]; exact h.resolved
  steps := by
    rw [hchain]
    have := h.steps
    omega

/-- The front block goes to the chain, and stays at the front of the line. -/
theorem took (hC : C.Linked Knows) (h : Delivering Knows known₀ bs steps q known queued)
    (hphase : q.importer.phase = .ready) :
    ∃ left, Delivering Knows known₀ bs (steps + 1) (q.take C.recorded) known left := by
  have hflight : q.importer.inFlight = [] := inFlight_of_resting (by simp [hphase])
  have hholds := h.queue
  cases queued with
  | nil =>
    obtain ⟨hanswer, hnext⟩ := hholds.poll_nil
    refine ⟨[], ?_⟩
    rw [q.take_of_empty C.recorded hanswer]
    exact h.aside hflight rfl rfl (fun heq => by cases heq) (fun _ => rfl) rfl hnext
      (by rw [hphase]; exact Nat.le_refl _)
  | cons b rest =>
    obtain ⟨hanswer, hnext⟩ := hholds.poll_cons
    refine ⟨rest, ?_⟩
    rw [q.take_of_ok C.recorded hanswer]
    have hreceived := h.received
    have hresolved := h.resolved
    have hsteps := h.steps
    rw [hflight] at hreceived hresolved
    rw [hphase] at hsteps
    exact {
      running := h.running
      inLoop := fun heq => by cases heq
      asleep := fun heq => by cases heq
      knows := hC.receive h.knows b
      queue := hnext
      storable := h.storable
      received := by
        show q.chain.received ++ [b] = q.chain.concluded.map Prod.fst ++ [b]
        rw [hreceived, List.append_nil]
      resolved := hresolved
      steps := Nat.succ_le_succ hsteps }

/-- The end of an import is an attempt on the first of the line. -/
theorem finished (hC : C.Linked Knows) {b : Block} {since : Nat} {v : Verdict}
    {chain : Recorded σ} (h : Delivering Knows known₀ bs steps q known queued)
    (hphase : q.importer.phase = .importing b since)
    (hchain : C.recorded.conclude q.chain b = some (v, chain))
    (hroom : ({ q with chain := chain }.finish b since v).roomless = q.roomless) :
    Delivering Knows known₀ bs (steps + 1) ({ q with chain := chain }.finish b since v)
      (Chain.learned known b) (afterAttempt known b queued) := by
  have hflight : q.importer.inFlight = [b] := inFlight_of_importing hphase
  have hresolved := h.resolved
  have hsteps := h.steps
  rw [hflight] at hresolved
  rw [hphase] at hsteps
  have hb : b.Storable := h.storable b (hresolved.mem_of_waiting b List.mem_cons_self)
  obtain ⟨hreceived, hconcluded⟩ := Chain.recorded_conclude hchain
  obtain ⟨hv, hknows⟩ := hC.recorded_conclude h.knows hchain
  have hend := awake_finish { q with chain := chain } b since v
  have hdone := inFlight_finish { q with chain := chain } b since v
  exact {
    running := (stopSignalled_finish _ b since v).trans h.running
    inLoop := hend.1
    asleep := fun hasleep => absurd hasleep hend.2
    knows := by rw [chain_finish]; exact hknows
    queue := holds_finish hb h.queue hv hroom
    storable := h.storable
    received := by
      rw [chain_finish, hdone, hreceived, hconcluded, h.received, hflight, List.map_append,
        List.append_nil]
      rfl
    resolved := by
      rw [chain_finish, hdone, hconcluded, hv]
      exact hresolved.attempt
    steps := by
      rw [chain_finish, hconcluded, List.length_append, List.length_singleton]
      have hsince : sinceAttempt (.importing b since) = 2 := rfl
      omega }

/-- **Each move of the importer**, unless it runs out of positions, keeps the
invariant. -/
theorem moved (hC : C.Linked Knows) {r : Pipeline (Recorded σ)}
    (h : Delivering Knows known₀ bs steps q known queued) (hmove : Move C.recorded q r)
    (hroom : r.roomless = q.roomless) :
    ∃ now left, Delivering Knows known₀ bs (steps + 1) r now left := by
  cases hmove with
  | started hphase =>
    have hflight := inFlight_of_resting (i := q.importer) (by simp [hphase])
    exact ⟨known, queued, h.aside hflight rfl rfl (fun heq => by cases heq)
      (fun heq => by cases heq) rfl rfl (by rw [hphase]; exact Nat.le_refl _)⟩
  | stopped _ hstop =>
    rw [h.running] at hstop
    cases hstop
  | took hphase _ =>
    obtain ⟨left, htook⟩ := h.took hC hphase
    exact ⟨known, left, htook⟩
  | finished hphase hchain => exact ⟨_, _, h.finished hC hphase hchain hroom⟩
  | woke hphase _ =>
    have hflight := inFlight_of_resting (i := q.importer) (by simp [hphase])
    exact ⟨known, queued, h.aside hflight rfl rfl (fun heq => by cases heq)
      (fun heq => by cases heq) rfl rfl (by rw [hphase]; exact Nat.le_refl _)⟩

theorem attempts_le (h : Delivering Knows known₀ bs steps q known queued) :
    q.chain.received.length ≤ bs.length * (bs.length + 1) / 2
      ∧ steps ≤ 3 * (bs.length * (bs.length + 1) / 2) + 2 := by
  have hattempts := h.resolved.attempts
  have hsteps := h.steps
  have hsince : sinceAttempt q.importer.phase ≤ 2 := by
    unfold sinceAttempt
    split
    next => exact Nat.le_succ 1
    next => exact Nat.le_refl 2
    next => exact Nat.le_refl 2
    next => exact Nat.zero_le 2
  -- the block in flight has at least this attempt before it
  have hflight : q.importer.inFlight.length ≤ patience known (q.importer.inFlight ++ queued) := by
    unfold Importer.inFlight
    split
    next b _ _ =>
      rw [List.singleton_append, patience_of_ne_nil (List.cons_ne_nil b queued)]
      exact (Nat.le_add_left 1 _).trans (Nat.le_add_right _ _)
    next => exact Nat.zero_le _
  rw [h.received, List.length_append, List.length_map]
  constructor
  · omega
  · omega

/-- Unless it sleeps, the importer can go on, perhaps after a while. -/
theorem asleep_or_step (hC : C.Linked Knows)
    (h : Delivering Knows known₀ bs steps q known queued) :
    q.importer.phase = .asleep ∨ ∃ ms, ((q.wait ms).step C.recorded).isSome := by
  rcases Pipeline.asleep_or_step h.running h.inLoop with hasleep | hstep | ⟨b, since, -, hend⟩
  · exact Or.inl hasleep
  · exact Or.inr hstep
  · -- a linked chain ends every attempt
    obtain ⟨c, hconclude, -⟩ := hC.conclude h.knows b
    have hnone := Option.map_eq_none_iff.mp hend
    rw [hconclude] at hnone
    cases hnone

end Delivering

/-! ## §4. Whole runs. -/

theorem Unattended.delivering (hC : C.Linked Knows) {p q : Pipeline (Recorded σ)}
    {known₀ : List BlockHash} {bs : List Block} {steps : Nat}
    (hstart : Delivering Knows known₀ bs 0 p known₀ bs) (h : Unattended C p steps q)
    (hroom : q.roomless = p.roomless) :
    ∃ known queued, Delivering Knows known₀ bs steps q known queued := by
  induction h with
  | begun => exact ⟨known₀, bs, hstart⟩
  | @worked n q r h hstep ih =>
    -- no room was lacking before either
    have hmove := move_of_step hstep
    have hbefore := roomless_suffix h.journal
    have hafter := roomless_suffix hmove.journal
    have hlength := hbefore.length_le
    have hq : q.roomless = p.roomless := by
      rw [hroom] at hafter
      exact hafter.eq_of_length_le hlength
    obtain ⟨known, queued, hqueued⟩ := ih hq
    exact hqueued.moved hC hmove (hroom.trans hq.symm)
  | waited _ ms ih =>
    obtain ⟨known, queued, h⟩ := ih hroom
    exact ⟨known, queued, { h with }⟩

/-- An importer that is left alone comes to sleep, if it does not lack room. -/
theorem Unattended.exists_asleep (hC : C.Linked Knows) {p : Pipeline (Recorded σ)}
    {known₀ : List BlockHash} {bs : List Block}
    (hstart : Delivering Knows known₀ bs 0 p known₀ bs) (k : Nat) :
    ∀ {steps : Nat} {q : Pipeline (Recorded σ)}, Unattended C p steps q →
      3 * (bs.length * (bs.length + 1) / 2) + 2 < steps + k →
      ∃ m r, Unattended C p m r
        ∧ (r.roomless = p.roomless → r.importer.phase = .asleep) := by
  induction k with
  | zero =>
    intro steps q h hlt
    refine ⟨steps, q, h, fun hroom => ?_⟩
    obtain ⟨known, queued, hq⟩ := h.delivering hC hstart hroom
    have hle := hq.attempts_le.2
    omega
  | succ k ih =>
    intro steps q h hlt
    by_cases hroom : q.roomless = p.roomless
    · obtain ⟨known, queued, hq⟩ := h.delivering hC hstart hroom
      rcases hq.asleep_or_step hC with hasleep | ⟨ms, hsome⟩
      · exact ⟨steps, q, h, fun _ => hasleep⟩
      · obtain ⟨r, hstep⟩ := Option.isSome_iff_exists.mp hsome
        exact ih ((h.waited ms).worked hstep) (by omega)
    · exact ⟨steps, q, h, fun heq => absurd heq hroom⟩

/-- Nothing is queued any more, and just the hashes that were not known have been
connected. -/
structure Delivered (known : List BlockHash) (bs : List Block) (q : Pipeline (Recorded σ)) :
    Prop where
  asleep : q.importer.phase = .asleep
  queue : q.queue.Holds []
  mem_connected_iff : ∀ h, h ∈ (connected q.chain.concluded).map Block.hash
    ↔ h ∈ bs.map Block.hash ∧ h ∉ known

theorem Delivering.delivered_of_asleep {known₀ known : List BlockHash} {bs queued : List Block}
    {steps : Nat} {q : Pipeline (Recorded σ)}
    (h : Delivering Knows known₀ bs steps q known queued) (hasleep : q.importer.phase = .asleep) :
    Delivered known₀ bs q := by
  have hflight : q.importer.inFlight = [] := inFlight_of_resting (by simp [hasleep])
  have hresolved := h.resolved
  have hqueue := h.queue
  rw [h.asleep hasleep] at hqueue
  rw [hflight, h.asleep hasleep] at hresolved
  exact ⟨hasleep, hqueue, hresolved.mem_connected_iff⟩

/-- **BLOCKS MAY COME IN ANY ORDER.**  Some blocks are queued, each of which reaches
a known hash through parents that are queued too, and the importer is left alone
with them.  It hands at most n (n + 1) / 2 of them to the chain, and makes at most
three steps for each, and two more.  It connects only blocks that were queued and
not known, none of them twice and each after its parent.  And it can always go on,
perhaps after a while, until the queue is empty and all of them are connected; the
only exception is a block that finds no room on its way back. -/
theorem Unattended.delivered (hC : C.Linked Knows) {p : Pipeline (Recorded σ)} {c : σ}
    {known : List BlockHash} {bs : List Block} {backoff : Nat} (hchain : p.chain = .start c)
    (hknows : Knows c known) (hqueue : p.queue.Holds bs) (himporter : p.importer = .fresh backoff)
    (hrooted : ∀ b ∈ bs, Rooted known bs b) :
    (∃ steps q, Unattended C p steps q ∧ (q.roomless = p.roomless → Delivered known bs q))
      ∧ ∀ steps q, Unattended C p steps q → q.roomless = p.roomless →
        q.chain.received.length ≤ bs.length * (bs.length + 1) / 2
          ∧ steps ≤ 3 * (bs.length * (bs.length + 1) / 2) + 2
          ∧ ((connected q.chain.concluded).map Block.hash).Nodup
          ∧ (∀ b ∈ connected q.chain.concluded, b ∈ bs ∧ b.hash ∉ known)
          ∧ (∀ before b after, q.chain.concluded = before ++ (b, .outcome .success) :: after →
            b.parent ∈ known ∨ b.parent ∈ (connected before).map Block.hash)
          ∧ (Delivered known bs q ∨ ∃ ms, ((q.wait ms).step C.recorded).isSome) := by
  have hstart := Delivering.start hchain hknows hqueue himporter hrooted
  constructor
  · obtain ⟨m, r, hr, hasleep⟩ :=
      Unattended.exists_asleep hC hstart (3 * (bs.length * (bs.length + 1) / 2) + 3) .begun
        (by omega)
    refine ⟨m, r, hr, fun hroom => ?_⟩
    obtain ⟨_, _, h⟩ := hr.delivering hC hstart hroom
    exact h.delivered_of_asleep (hasleep hroom)
  · intro steps q hq hroom
    obtain ⟨_, _, h⟩ := hq.delivering hC hstart hroom
    refine ⟨h.attempts_le.1, h.attempts_le.2, h.resolved.nodup, h.resolved.wanted,
      h.resolved.parents, ?_⟩
    exact (h.asleep_or_step hC).imp_left h.delivered_of_asleep

/-- Whoever runs the importer until it rests leaves it to itself. -/
theorem Unattended.run {p : Pipeline (Recorded σ)} (limit : Nat) :
    ∀ {n : Nat} {q : Pipeline (Recorded σ)}, Unattended C p n q →
      ∃ m, Unattended C p m (q.run C.recorded limit) := by
  induction limit with
  | zero => intro n q h; exact ⟨n, h⟩
  | succ limit ih =>
    intro n q h
    cases hstep : q.step C.recorded with
    | some r =>
      rw [run_of_step hstep]
      exact ih (h.worked hstep)
    | none =>
      rw [Pipeline.run, hstep]
      exact ⟨n, h⟩

/-- So does who runs it again after each of some pauses. -/
theorem Unattended.rounds {p : Pipeline (Recorded σ)} (ms limit k : Nat) :
    ∀ {n : Nat} {q : Pipeline (Recorded σ)}, Unattended C p n q →
      ∃ m, Unattended C p m ((fun q => (q.wait ms).run C.recorded limit)^[k] q) := by
  induction k with
  | zero => intro n q h; exact ⟨n, h⟩
  | succ k ih =>
    intro n q h
    obtain ⟨m, hm⟩ := (h.waited ms).run limit
    exact ih hm

/-- Three heirs in the wrong order, one of them twice, where two blocks have room. -/
def wrongOrder : Pipeline (Recorded ScriptedChain) where
  queue := .volatile ⟨[heir 3, heir 2, heir 2, heir 1],
    HashIndex.empty.insertAll ([heir 3, heir 2, heir 2, heir 1].map Block.hash), 2⟩
  chain := .start (.start (heir 0) true false)
  metrics := none
  lifecycle := .running
  importer := .fresh 5
  clock := 0
  journal := []

theorem delivered_wrongOrder :
    (∀ b ∈ wrongOrder.queue.blocks, Rooted [(heir 0).hash] wrongOrder.queue.blocks b)
      ∧ ∃ steps q, Unattended ScriptedChain.chain wrongOrder steps q
        ∧ q.roomless = wrongOrder.roomless
        ∧ Delivered [(heir 0).hash] wrongOrder.queue.blocks q
        ∧ connected q.chain.concluded = [heir 1, heir 2, heir 3] := by
  let bs : List Block := [heir 3, heir 2, heir 2, heir 1]
  -- who pauses four times has made eight attempts
  obtain ⟨steps, hq⟩ := Unattended.rounds (C := ScriptedChain.chain) 5 9 5 (.begun (p := wrongOrder))
  generalize hfinal : ((fun q => _)^[5] wrongOrder) = q at hq
  have hholds : wrongOrder.queue.Holds bs :=
    ⟨rfl, HashIndex.Counts.empty.insertAll _, by decide +kernel⟩
  have hone : Rooted [(heir 0).hash] bs (heir 1) := .child (by decide +kernel)
  have htwo : Rooted [(heir 0).hash] bs (heir 2) := .heir (d := heir 1) (by decide +kernel)
    (by decide +kernel) hone
  have hthree : Rooted [(heir 0).hash] bs (heir 3) := .heir (d := heir 2) (by decide +kernel)
    (by decide +kernel) htwo
  have hrooted : ∀ b ∈ bs, Rooted [(heir 0).hash] bs b :=
    List.forall_mem_cons.mpr ⟨hthree, List.forall_mem_cons.mpr ⟨htwo,
      List.forall_mem_cons.mpr ⟨htwo, List.forall_mem_singleton.mpr hone⟩⟩⟩
  have hroom : q.roomless = wrongOrder.roomless := by rw [← hfinal]; decide +kernel
  have hasleep : q.importer.phase = .asleep := by rw [← hfinal]; decide +kernel
  have hrunning : q.importer.stopSignalled = false := by rw [← hfinal]; decide +kernel
  have hdelivered := (Unattended.delivered ScriptedChain.linked_chain rfl
    ⟨rfl, rfl, rfl, rfl⟩ hholds rfl hrooted).2 steps q hq hroom
  have hall : Delivered [(heir 0).hash] bs q :=
    hdelivered.2.2.2.2.2.resolve_right fun ⟨ms, hsome⟩ => by
      unfold step wait at hsome
      rw [hasleep] at hsome
      dsimp only at hsome
      rw [hrunning] at hsome
      cases hsome
  exact ⟨hrooted, steps, q, hq, hroom, hall, by rw [← hfinal]; decide +kernel⟩

end Pipeline
end BlockSync
