/-
  BlockSync.Proofs.Sync.Endurance
  ───────────────────────────────
  **DAMAGE DOES NOT STOP THE IMPORTER.**

  The values of a queue were overwritten behind its back, and an importer works on it by
  itself (`Working`).  A block that it takes is handed to the chain; a damaged value costs
  it a pause.  Either way it took one entry, so the queue is the one after as many polls,
  and the number of steps follows from the number of entries taken (`Enduring.steps`).  As
  long as no block goes back, the entries come to an end, and the importer with them: it
  falls asleep on an empty queue.

  Main results:

      Working.enduring          what each step keeps, as long as no block goes back
      damage_passes             each poll, and each run of an importer
-/
import BlockSync.Proofs.Store.BlockQueue.Damage
import BlockSync.Proofs.Store.BlockQueue.Draining
import BlockSync.Proofs.Sync.Delivery

namespace BlockSync.Pipeline

variable {σ : Type} {C : Chain σ} {p r s : Pipeline (Recorded σ)} {q : StoredQueue} {steps k : Nat}

/-! ## §1. An importer by itself. -/

/-- What may become of a pipeline in a number of steps of its importer, while nobody else
touches the queue, and nobody tells it to stop. -/
inductive Working (C : Chain σ) (p : Pipeline (Recorded σ)) :
    (steps : Nat) → Pipeline (Recorded σ) → Prop where
  | begun : Working C p 0 p
  | worked {n : Nat} {r s : Pipeline (Recorded σ)} (h : Working C p n r)
      (hstep : r.step C.recorded = some s) : Working C p (n + 1) s
  /-- Anything else happens: time passes, the chain changes by itself. -/
  | passed {n : Nat} {r s : Pipeline (Recorded σ)} (h : Working C p n r)
      (hqueue : s.queue = r.queue) (himporter : s.importer = r.importer)
      (hreceived : s.chain.received = r.chain.received)
      (hconcluded : s.chain.concluded = r.chain.concluded) : Working C p n s

theorem Working.waited (h : Working C p steps r) (ms : Nat) : Working C p steps (r.wait ms) :=
  h.passed rfl rfl rfl rfl

/-- An importer that is left alone works by itself. -/
theorem Unattended.working (h : Unattended C p steps r) : Working C p steps r := by
  induction h with
  | begun => exact .begun
  | worked _ hstep ih => exact ih.worked hstep
  | waited _ ms ih => exact ih.waited ms

/-- No attempt has ended without a parent. -/
def NoOrphan (r : Pipeline (Recorded σ)) : Prop :=
  ∀ a ∈ r.chain.concluded, a.2 ≠ .outcome .noParent

/-- The attempts that have ended stay on the record. -/
theorem Move.concluded (h : Move C.recorded r s) : r.chain.concluded <+: s.chain.concluded := by
  cases h with
  | started _ => exact List.prefix_refl _
  | stopped hrest _ =>
    have hchain : r.stop.chain = r.chain := (Keeps.stop hrest).chain
    exact hchain ▸ List.prefix_refl r.chain.concluded
  | took _ _ =>
    obtain ⟨queue, chain, journal, phase, htake, hchain⟩ := r.exists_take_eq C.recorded
    rw [htake]
    rcases hchain with rfl | ⟨b, rfl⟩
    · exact List.prefix_refl _
    · exact List.prefix_refl _
  | finished _ hchain =>
    rw [chain_finish]
    show _ <+: Recorded.concluded _
    rw [(Chain.recorded_conclude hchain).2]
    exact List.prefix_append _ _
  | woke _ _ => exact List.prefix_refl _

/-! ## §2. The invariant. -/

/-- How many steps an importer has made more than two for each entry it took. -/
def sinceEntry : Phase → Nat
  | .ready => 1
  | .asleep => 2
  | _ => 0

/-- The blocks among some stored values. -/
def decodable (values : List Bytes) : List Block :=
  values.filterMap fun v => (StoredQueue.decodeBlock v).toOption

theorem decodable_concat (values : List Bytes) (v : Bytes) :
    decodable (values ++ [v])
      = decodable values ++ (StoredQueue.decodeBlock v).toOption.toList := by
  unfold decodable
  rw [List.filterMap_append, List.filterMap_cons, List.filterMap_nil]
  cases StoredQueue.decodeBlock v with
  | ok b => rfl
  | error e => rfl

/-- How it stands with a pipeline whose importer has taken some entries of a queue. -/
structure Enduring (q : StoredQueue) (k steps : Nat) (r : Pipeline (Recorded σ)) : Prop where
  running : r.importer.stopSignalled = false
  inLoop : r.importer.phase ≠ .ended
  asleep : r.importer.phase = .asleep → k = q.tree.size
  taken : k ≤ q.tree.size
  queue : r.queue = .stored (q.afterPolls k)
  received : r.chain.received = decodable (q.tree.values.take k)
  concluded : r.chain.concluded.map Prod.fst ++ r.importer.inFlight = r.chain.received
  steps : steps = 2 * k + sinceEntry r.importer.phase

namespace Enduring

theorem start {c : σ} {backoff : Nat} (hqueue : p.queue = .stored q) (hchain : p.chain = .start c)
    (himporter : p.importer = .fresh backoff) : Enduring q 0 0 p where
  running := by rw [himporter]; rfl
  inLoop := by rw [himporter]; exact nofun
  asleep := by rw [himporter]; exact nofun
  taken := Nat.zero_le _
  queue := hqueue
  received := by rw [hchain]; rfl
  concluded := by rw [hchain, himporter]; rfl
  steps := by rw [himporter]; rfl

/-- A step between phases without a block in flight, which leaves the queue and the chain
alone. -/
theorem aside (h : Enduring q k steps r) (hfrom : r.importer.inFlight = [])
    (hto : s.importer.inFlight = []) (hrunning : s.importer.stopSignalled = false)
    (hinLoop : s.importer.phase ≠ .ended) (hasleep : s.importer.phase = .asleep → k = q.tree.size)
    (hqueue : s.queue = r.queue) (hchain : s.chain = r.chain)
    (hsteps : sinceEntry r.importer.phase + 1 = sinceEntry s.importer.phase) :
    Enduring q k (steps + 1) s where
  running := hrunning
  inLoop := hinLoop
  asleep := hasleep
  taken := h.taken
  queue := hqueue.trans h.queue
  received := by rw [hchain]; exact h.received
  concluded := by
    have hconcluded := h.concluded
    rw [hfrom] at hconcluded
    rw [hchain, hto]
    exact hconcluded
  steps := by
    have := h.steps
    omega

/-- A step that takes an entry: if its value is a block, then the block is in flight. -/
theorem entry (h : Enduring q k steps r) (hphase : r.importer.phase = .ready)
    (hlt : k < q.tree.size) {v : Bytes} (hv : q.tree.values[k]? = some v)
    (hrunning : s.importer.stopSignalled = false) (hinLoop : s.importer.phase ≠ .ended)
    (hasleep : s.importer.phase ≠ .asleep) (hsteps : sinceEntry s.importer.phase = 0)
    (hqueue : s.queue = r.queue.poll.next)
    (hflight : s.importer.inFlight = (StoredQueue.decodeBlock v).toOption.toList)
    (hreceived : s.chain.received = r.chain.received ++ s.importer.inFlight)
    (hconcluded : s.chain.concluded = r.chain.concluded) : Enduring q (k + 1) (steps + 1) s where
  running := hrunning
  inLoop := hinLoop
  asleep := fun heq => absurd heq hasleep
  taken := hlt
  queue := by
    rw [hqueue, h.queue]
    rfl
  received := by
    have hleft : q.tree.values.take (k + 1) = q.tree.values.take k ++ [v] := by
      rw [List.take_add_one, hv]
      rfl
    rw [hleft, decodable_concat, hreceived, h.received, hflight]
  concluded := by
    have hearlier := h.concluded
    rw [inFlight_of_resting (by simp [hphase]), List.append_nil] at hearlier
    rw [hconcluded, hreceived, hearlier]
  steps := by
    have hearlier := h.steps
    rw [hphase] at hearlier
    have hready : sinceEntry .ready = 1 := rfl
    omega

/-- **The next entry is taken**, a block or not; without one the importer falls asleep. -/
theorem took (hplaced : q.tree.Fills q.span q.tree.values) (h : Enduring q k steps r)
    (hphase : r.importer.phase = .ready) :
    ∃ j, Enduring q j (steps + 1) (r.take C.recorded) := by
  obtain ⟨hvalue, hempty⟩ := StoredQueue.poll_afterPolls hplaced k
  have hpoll : r.queue.poll = (q.afterPolls k).poll.mapNext .stored := by
    rw [h.queue]
    rfl
  rcases Nat.lt_or_ge k q.tree.size with hlt | hge
  · have hvalues : k < q.tree.values.length := by
      rw [← hplaced.size]
      exact hlt
    obtain ⟨v, hv⟩ : ∃ v, q.tree.values[k]? = some v := ⟨_, List.getElem?_eq_getElem hvalues⟩
    have hanswer : r.queue.poll.answer = StoredQueue.decodeBlock v := by
      rw [hpoll]
      exact hvalue v hv
    -- the entry leaves the queue whatever its value is
    refine ⟨k + 1, ?_⟩
    cases hb : StoredQueue.decodeBlock v with
    | ok b =>
      rw [hb] at hanswer
      rw [r.take_of_ok C.recorded hanswer]
      exact h.entry hphase hlt hv h.running nofun nofun rfl rfl (by rw [hb]; rfl) rfl rfl
    | error e =>
      rw [hb] at hanswer
      have hne : e ≠ .emptyQueue := by
        rintro rfl
        obtain ⟨damage, hdamage⟩ := BlockQueue.corruption_of_mem_contents (q := .stored q)
          (List.mem_map.mpr ⟨v, List.mem_of_getElem? hv, hb⟩)
        cases hdamage
      rw [r.take_of_error C.recorded hne hanswer]
      exact h.entry hphase hlt hv h.running nofun nofun rfl rfl (by rw [hb]; rfl)
        (List.append_nil _).symm rfl
  · have hflight : r.importer.inFlight = [] := inFlight_of_resting (by simp [hphase])
    have hlast : k = q.tree.size := Nat.le_antisymm h.taken hge
    rw [(hempty hge).1] at hpoll
    refine ⟨k, ?_⟩
    rw [r.take_of_empty C.recorded (by rw [hpoll]; rfl)]
    refine h.aside hflight rfl h.running nofun (fun _ => hlast) ?_ rfl ?_
    · show r.queue.poll.next = r.queue
      rw [hpoll, h.queue]
      rfl
    · rw [hphase]
      rfl

/-- **Each step of the importer**, unless a block goes back. -/
theorem moved (hplaced : q.tree.Fills q.span q.tree.values) (h : Enduring q k steps r)
    (hmove : Move C.recorded r s) (hs : s.NoOrphan) : ∃ j, Enduring q j (steps + 1) s := by
  cases hmove with
  | started hphase =>
    have hflight : r.importer.inFlight = [] := inFlight_of_resting (by simp [hphase])
    exact ⟨k, h.aside hflight rfl h.running nofun nofun rfl rfl (by rw [hphase]; rfl)⟩
  | stopped _ hstop =>
    rw [h.running] at hstop
    cases hstop
  | took hphase _ => exact h.took hplaced hphase
  | @finished b since v chain hphase hchain =>
    have hflight : r.importer.inFlight = [b] := inFlight_of_importing hphase
    have hsteps := h.steps
    have hconcluded := h.concluded
    rw [hphase] at hsteps
    rw [hflight] at hconcluded
    obtain ⟨hreceived, hrecord⟩ := Chain.recorded_conclude hchain
    -- the verdict is on the record, so the block does not go back
    have hv : v ≠ .outcome .noParent := by
      refine hs (b, v) ?_
      rw [chain_finish]
      show (b, v) ∈ Recorded.concluded _
      rw [hrecord]
      exact List.mem_append_right _ (List.mem_singleton_self _)
    have hready : ({ r with chain := chain }.finish b since v).importer.phase = .ready := by
      unfold finish
      split
      next => exact absurd rfl hv
      next => rfl
    refine ⟨k, ?_, ?_, ?_, h.taken, ?_, ?_, ?_, ?_⟩
    · rw [stopSignalled_finish]
      exact h.running
    · rw [hready]
      exact nofun
    · rw [hready]
      exact nofun
    · rw [queue_finish, queue_settle _ _ _ hv]
      exact h.queue
    · rw [chain_finish]
      exact hreceived.trans h.received
    · rw [chain_finish, inFlight_finish]
      show chain.concluded.map Prod.fst ++ [] = chain.received
      rw [hrecord, hreceived, List.map_append, List.append_nil]
      exact hconcluded
    · rw [hready]
      show steps + 1 = 2 * k + 1
      exact congrArg (· + 1) hsteps
  | woke hphase _ =>
    have hflight : r.importer.inFlight = [] := inFlight_of_resting (by simp [hphase])
    exact ⟨k, h.aside hflight rfl h.running nofun nofun rfl rfl (by rw [hphase]; rfl)⟩

theorem steps_le (h : Enduring q k steps r) : steps ≤ 2 * q.tree.size + 2 := by
  have hsteps := h.steps
  have htaken := h.taken
  have hsince : sinceEntry r.importer.phase ≤ 2 := by
    unfold sinceEntry
    split
    next => exact Nat.le_succ 1
    next => exact Nat.le_refl 2
    next => exact Nat.zero_le 2
  omega

end Enduring

/-! ## §3. Whole runs. -/

/-- **Every state of a run in which no block goes back.** -/
theorem Working.enduring (hplaced : q.tree.Fills q.span q.tree.values) (hstart : Enduring q 0 0 p)
    (h : Working C p steps r) (hr : r.NoOrphan) : ∃ k, Enduring q k steps r := by
  induction h with
  | begun => exact ⟨0, hstart⟩
  | worked _ hstep ih =>
    -- what is on no record now was on none before
    have hmove := move_of_step hstep
    obtain ⟨k, hk⟩ := ih fun a ha => hr a (hmove.concluded.subset ha)
    exact hk.moved hplaced hmove hr
  | passed _ hqueue himporter hreceived hconcluded ih =>
    unfold NoOrphan at hr
    rw [hconcluded] at hr
    obtain ⟨k, hk⟩ := ih hr
    exact ⟨k, {
      running := by rw [himporter]; exact hk.running
      inLoop := by rw [himporter]; exact hk.inLoop
      asleep := by rw [himporter]; exact hk.asleep
      taken := hk.taken
      queue := hqueue.trans hk.queue
      received := hreceived.trans hk.received
      concluded := by rw [hconcluded, himporter, hreceived]; exact hk.concluded
      steps := by rw [himporter]; exact hk.steps }⟩

/-- **DAMAGE STOPS NEITHER THE QUEUE NOR THE IMPORTER.**  A queue has its entries in their
places, and their values may be anything.  Poll after poll answers for one value, a block or
that it is damaged, takes this entry and makes the queue shorter by one; when none is left,
the queue is empty and starts in the middle again.

An importer that works on it by itself hands just the blocks among the values to the chain,
in their order, as long as no attempt ends without a parent.  It never leaves its loop, and
it goes on until the queue is empty: within two steps for each entry, and two more. -/
theorem damage_passes (hplaced : (BlockQueue.stored q).Placed) :
    (∀ k, (q.afterPolls k).tree.entries = q.tree.entries.drop k
      ∧ (q.afterPolls k).length = q.tree.size - k
      ∧ (∀ v, q.tree.values[k]? = some v → (q.afterPolls k).poll.answer =
          match Block.Binary.decode v with
          | .ok b => .ok b
          | .error e => .error (.corruption (.block e)))
      ∧ (q.tree.size ≤ k → (q.afterPolls k).poll = .refuse .emptyQueue (q.afterPolls k)
        ∧ (q.afterPolls k).span = ⟨0x7fffffffffffffff, 0x7fffffffffffffff⟩))
    ∧ ∀ {σ : Type} (C : Chain σ) (c : σ) (p : Pipeline (Recorded σ)) (backoff : Nat),
      p.queue = .stored q → p.chain = .start c → p.importer = .fresh backoff →
      ∀ steps r, Working C p steps r → r.NoOrphan →
        r.hasEnded = false
        ∧ steps ≤ 2 * q.tree.size + 2
        ∧ ∃ k ≤ q.tree.size, r.queue = .stored (q.afterPolls k)
          ∧ r.chain.received = decodable (q.tree.values.take k)
          ∧ r.chain.concluded.map Prod.fst ++ r.importer.inFlight = r.chain.received
          ∧ (r.importer.phase = .asleep →
            k = q.tree.size ∧ r.chain.received = decodable q.tree.values)
          ∧ (r.importer.phase = .asleep
            ∨ (∃ ms, ((r.wait ms).step C.recorded).isSome)
            ∨ ∃ b since, r.importer.phase = .importing b since
              ∧ C.conclude r.chain.state b = none) := by
  refine ⟨fun k => ?_, fun {σ} C c p backoff hqueue hchain himporter steps r hrun hr => ?_⟩
  · obtain ⟨hvalue, hempty⟩ := StoredQueue.poll_afterPolls hplaced k
    refine ⟨(StoredQueue.fills_afterPolls hplaced k).1, StoredQueue.length_afterPolls hplaced k,
      fun v hv => ?_, hempty⟩
    rw [hvalue v hv]
    unfold StoredQueue.decodeBlock
    cases Block.Binary.decode v with
    | ok b => rfl
    | error e => rfl
  · obtain ⟨k, hk⟩ := hrun.enduring hplaced (.start hqueue hchain himporter) hr
    have halive : r.hasEnded = false :=
      Bool.eq_false_iff.mpr fun hended => hk.inLoop (hasEnded_iff.mp hended)
    refine ⟨halive, hk.steps_le, k, hk.taken, hk.queue, hk.received, hk.concluded,
      fun hasleep => ?_, ?_⟩
    · have hall : k = q.tree.size := hk.asleep hasleep
      have hsize : q.tree.size = q.tree.values.length := Tree.Fills.size hplaced
      refine ⟨hall, ?_⟩
      rw [hk.received, hall, hsize, List.take_length]
    · refine (asleep_or_step hk.running hk.inLoop).imp_right (Or.imp_right ?_)
      rintro ⟨b, since, hphase, hend⟩
      exact ⟨b, since, hphase, Option.map_eq_none_iff.mp hend⟩

/-- Two blocks with a damaged value between them. -/
def damagedBetween : StoredQueue :=
  { BlockQueue.threeQueued with
    tree := BlockQueue.threeQueued.tree.insert (Position.encode (Span.middle + 1)) [0] }

/-- An importer that is about to begin with them. -/
def beforeDamage : Pipeline (Recorded ScriptedChain) where
  queue := .stored damagedBetween
  chain := .start (.start default false false)
  metrics := none
  lifecycle := .running
  importer := .fresh 5
  clock := 0
  journal := []

theorem damage_passes_damagedBetween :
    (BlockQueue.stored damagedBetween).Placed
      ∧ (damagedBetween.afterPolls 1).poll.answer = .error (.corruption (.block .truncated))
      ∧ (damagedBetween.afterPolls 3).span = ⟨0x7fffffffffffffff, 0x7fffffffffffffff⟩
      ∧ ∃ steps r, Working ScriptedChain.chain beforeDamage steps r ∧ r.NoOrphan
        ∧ r.importer.phase = .asleep
        ∧ r.chain.received = decodable damagedBetween.tree.values
        ∧ r.chain.received.map Block.number = [1, 3] := by
  have hplaced : (BlockQueue.stored damagedBetween).Placed :=
    ⟨by decide +kernel, by decide +kernel, fun hnil => absurd hnil (by decide +kernel)⟩
  obtain ⟨hpolls, hruns⟩ := damage_passes hplaced
  refine ⟨hplaced, ?_, ((hpolls 3).2.2.2 (by decide +kernel)).2, ?_⟩
  · exact (hpolls 1).2.2.1 [0] (by decide +kernel)
  · -- one pause, at the damaged value
    obtain ⟨steps, hrun⟩ :=
      Unattended.rounds (C := ScriptedChain.chain) 5 9 2 (.begun (p := beforeDamage))
    generalize hfinal : ((fun q => _)^[2] beforeDamage) = r at hrun
    have hasleep : r.importer.phase = .asleep := by rw [← hfinal]; decide +kernel
    have hr : r.NoOrphan := by
      unfold NoOrphan
      rw [← hfinal]
      decide +kernel
    obtain ⟨-, -, k, -, -, -, -, hall, -⟩ :=
      hruns ScriptedChain.chain _ beforeDamage 5 rfl rfl rfl steps r hrun.working hr
    exact ⟨steps, r, hrun.working, hr, hasleep, (hall hasleep).2,
      by rw [← hfinal]; decide +kernel⟩

end BlockSync.Pipeline
