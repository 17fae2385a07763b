/-
  BlockSync.Proofs.Sync.Restarting
  ────────────────────────────────
  **A RESTART IS INVISIBLE TO THE CHAIN.**

  An importer is told to stop, ends the import it is in, and is gone; a new one opens
  the tree of the queue and goes on.  If nobody appends anything meanwhile, nothing is
  left to chance: the front block is attempted, and a block without parent goes behind
  the others.  `Replay` does just that to a line, with the verdicts of a chain that
  answers by the attempts made so far.

      Follows                a pipeline has made the first attempts of a replay
      Course.follows         stopped and restarted at any moments, it still does
      Follows.exists_next    and the next attempt is open to it, wherever it stands
      restarted_invisible    so two courses of work differ only in how far they are

  A restart in the middle of an import is no exception: the stopped importer has put
  the block behind the others by the time it is gone, if that was the verdict.
-/
import BlockSync.Proofs.Chain.Replay
import BlockSync.Proofs.Sync.Stopping

namespace BlockSync

namespace Pipeline

variable {σ : Type} {C : Chain σ} {answer : List Block → Block → Verdict}
  {Made : σ → List Block → List Block → Prop} {l : Line} {n m j k : Nat}
  {p q r : Pipeline (Recorded σ)} {b : Block} {since : Nat}

/-! ## §1. Courses of work. -/

/-- What may become of a pipeline to which nobody appends, while its importer works, is
told to stop, and is followed by a new one on the same tree; with the count of signals
to stop.  A course without a signal is one uninterrupted importer. -/
inductive Course (C : Chain σ) (Made : σ → List Block → List Block → Prop)
    (p : Pipeline (Recorded σ)) : (stops : Nat) → Pipeline (Recorded σ) → Prop where
  | begun : Course C Made p 0 p
  | worked {k : Nat} {q r : Pipeline (Recorded σ)} (h : Course C Made p k q)
      (hstep : q.step C.recorded = some r) : Course C Made p k r
  /-- Anything else happens: time passes, the chain changes by itself. -/
  | passed {k : Nat} {q r : Pipeline (Recorded σ)} (h : Course C Made p k q)
      (hqueue : r.queue = q.queue) (himporter : r.importer = q.importer)
      (hreceived : r.chain.received = q.chain.received)
      (hconcluded : r.chain.concluded = q.chain.concluded)
      (hmade : Made r.chain.state (q.chain.concluded.map Prod.fst) q.importer.inFlight) :
      Course C Made p k r
  | signalled {k : Nat} {q : Pipeline (Recorded σ)} (h : Course C Made p k q) :
      Course C Made p (k + 1) q.signalStop
  | restarted {k : Nat} {q : Pipeline (Recorded σ)} (h : Course C Made p k q)
      (hended : q.hasEnded = true) {t : Tree} (htree : q.queue.tree? = some t) {capacity : Nat}
      {next : BlockQueue} {events : List Event}
      (hopen : BlockQueue.openTree t capacity = .ok (next, events)) (backoff : Nat) :
      Course C Made p k ({ q with queue := next }.restart backoff)

/-- A pipeline in the state of which attempts were made is still in it later. -/
theorem Course.waited (h : Course C Made p k q) (ms : Nat)
    (hmade : Made q.chain.state (q.chain.concluded.map Prod.fst) q.importer.inFlight) :
    Course C Made p k (q.wait ms) :=
  h.passed rfl rfl rfl rfl hmade

theorem Course.trans (h : Course C Made p j q) (h' : Course C Made q k r) :
    Course C Made p (j + k) r := by
  induction h' with
  | begun => exact h
  | worked _ hstep ih => exact ih.worked hstep
  | passed _ hqueue himporter hreceived hconcluded hmade ih =>
    exact ih.passed hqueue himporter hreceived hconcluded hmade
  | signalled _ ih => exact ih.signalled
  | restarted _ hended htree hopen backoff ih => exact ih.restarted hended htree hopen backoff

theorem Course.run (h : Course C Made p k q) (limit : Nat) :
    Course C Made p k (q.run C.recorded limit) := by
  induction limit generalizing q with
  | zero => exact h
  | succ limit ih =>
    unfold Pipeline.run
    cases hstep : q.step C.recorded with
    | none => exact h
    | some r => exact ih (h.worked hstep)

/-! ## §2. What a course keeps. -/

/-- The chain was ready to end each of these attempts once. -/
def Heard (C : Chain σ) (Made : σ → List Block → List Block → Prop)
    (es : List (Block × Verdict)) : Prop :=
  ∀ before b v later, es = before ++ (b, v) :: later →
    ∃ d, Made d (before.map Prod.fst) [b] ∧ (C.conclude d b).isSome

theorem Heard.concat {es : List (Block × Verdict)} {v : Verdict} {d : σ} (h : Heard C Made es)
    (hmade : Made d (es.map Prod.fst) [b]) (hready : (C.conclude d b).isSome) :
    Heard C Made (es ++ [(b, v)]) := by
  intro before b' v' later hes
  -- the attempt is the last one, or one of those before
  rcases List.eq_nil_or_concat later with rfl | ⟨es', e, rfl⟩
  · obtain ⟨rfl, heq⟩ := List.append_inj' hes rfl
    cases heq
    exact ⟨d, hmade, hready⟩
  · rw [List.concat_eq_append, ← List.cons_append, ← List.append_assoc] at hes
    exact h _ _ _ _ (List.append_inj' hes rfl).1

/-- A pipeline has made the first attempts of a replay, and is about to make the next
one.  A block in flight is still at the front of the line. -/
structure Follows (C : Chain σ) (answer : List Block → Block → Verdict)
    (Made : σ → List Block → List Block → Prop) (l : Line) (n : Nat)
    (q : Pipeline (Recorded σ)) : Prop where
  concluded : q.chain.concluded = (Replay.after answer l n).attempts
  count : q.chain.concluded.length = n
  received : q.chain.received = q.chain.concluded.map Prod.fst ++ q.importer.inFlight
  made : Made q.chain.state (q.chain.concluded.map Prod.fst) q.importer.inFlight
  resting : q.importer.inFlight = [] → q.queue.Lines (Replay.after answer l n).line
  importing : ∀ b ∈ q.importer.inFlight, b.Storable
    ∧ (∃ rest, (Replay.after answer l n).line.blocks = b :: rest)
    ∧ q.queue.Lines (Replay.after answer l n).line.pop
  asleep : q.importer.phase = .asleep → (Replay.after answer l n).line.blocks = []
  ended : q.importer.phase = .ended → q.importer.stopSignalled = true
  heard : Heard C Made q.chain.concluded

namespace Follows

/-- The block in flight is the front block, and the queue is behind it already. -/
theorem front (h : Follows C answer Made l n q) (hphase : q.importer.phase = .importing b since) :
    b.Storable ∧ (∃ rest, (Replay.after answer l n).line.blocks = b :: rest)
      ∧ q.queue.Lines (Replay.after answer l n).line.pop :=
  h.importing b (by rw [inFlight_of_importing hphase]; exact List.mem_singleton_self b)

/-- Between phases in which no block is in flight only the queue may be another one
that stands for the same line. -/
theorem aside (h : Follows C answer Made l n q) (hfrom : q.importer.inFlight = [])
    (hto : r.importer.inFlight = []) (hchain : r.chain = q.chain)
    (hqueue : r.queue.Lines (Replay.after answer l n).line)
    (hasleep : r.importer.phase = .asleep → (Replay.after answer l n).line.blocks = [])
    (hended : r.importer.phase = .ended → r.importer.stopSignalled = true) :
    Follows C answer Made l n r where
  concluded := by rw [hchain]; exact h.concluded
  count := by rw [hchain]; exact h.count
  received := by rw [hchain, hto, ← hfrom]; exact h.received
  made := by rw [hchain, hto, ← hfrom]; exact h.made
  resting _ := hqueue
  importing b hb := by rw [hto] at hb; cases hb
  asleep := hasleep
  ended := hended
  heard := by rw [hchain]; exact h.heard

theorem passed (h : Follows C answer Made l n q) (hqueue : r.queue = q.queue)
    (hphase : r.importer.phase = q.importer.phase)
    (hstop : q.importer.stopSignalled = true → r.importer.stopSignalled = true)
    (hreceived : r.chain.received = q.chain.received)
    (hconcluded : r.chain.concluded = q.chain.concluded)
    (hmade : Made r.chain.state (q.chain.concluded.map Prod.fst) q.importer.inFlight) :
    Follows C answer Made l n r := by
  have hflight : r.importer.inFlight = q.importer.inFlight := by
    unfold Importer.inFlight
    rw [hphase]
  exact {
    concluded := by rw [hconcluded]; exact h.concluded
    count := by rw [hconcluded]; exact h.count
    received := by rw [hreceived, hconcluded, hflight]; exact h.received
    made := by rw [hconcluded, hflight]; exact hmade
    resting := by rw [hflight, hqueue]; exact h.resting
    importing := by rw [hflight, hqueue]; exact h.importing
    asleep := by rw [hphase]; exact h.asleep
    ended := by rw [hphase]; exact fun hended => hstop (h.ended hended)
    heard := by rw [hconcluded]; exact h.heard }

/-- The front block goes to the chain, and is still at the front of the line. -/
theorem took (hchain : C.AnswersBy answer Made) (h : Follows C answer Made l n q)
    (hphase : q.importer.phase = .ready) : Follows C answer Made l n (q.take C.recorded) := by
  have hflight : q.importer.inFlight = [] := inFlight_of_resting (by simp [hphase])
  have hlines := h.resting hflight
  cases hline : (Replay.after answer l n).line.blocks with
  | nil =>
    -- it finds nothing, and falls asleep
    obtain ⟨hanswer, hnext⟩ := hlines.poll_nil hline
    rw [q.take_of_empty C.recorded hanswer]
    refine h.aside hflight rfl rfl ?_ (fun _ => hline) nofun
    show q.queue.poll.next.Lines _
    rw [hnext]
    exact hlines
  | cons b rest =>
    obtain ⟨hanswer, hnext⟩ := hlines.poll_cons hline
    have hreceived := h.received
    have hmade := h.made
    rw [hflight] at hreceived hmade
    rw [q.take_of_ok C.recorded hanswer]
    exact {
      concluded := h.concluded
      count := h.count
      received := by
        show q.chain.received ++ [b] = q.chain.concluded.map Prod.fst ++ [b]
        rw [hreceived, List.append_nil]
      made := hchain.receive hmade b
      resting := nofun
      importing := by
        intro d hd
        obtain rfl := List.mem_singleton.mp hd
        exact ⟨hlines.holds.storable d (by rw [hline]; exact List.mem_cons_self),
          ⟨rest, hline⟩, hnext⟩
      asleep := nofun
      ended := nofun
      heard := h.heard }

/-- A verdict moves the queue on as it moves the line. -/
theorem lines_finish {line : Line} {v : Verdict} {chain : Recorded σ} (h : q.queue.Lines line)
    (hb : b.Storable) :
    ({ q with chain := chain }.finish b since v).queue.Lines (line.settle b v) := by
  rw [queue_finish]
  unfold Line.settle
  by_cases hv : v = .outcome .noParent
  · subst hv
    rw [queue_settle_noParent, if_pos rfl]
    exact h.enqueue hb
  · rw [queue_settle _ _ _ hv, if_neg hv]
    exact h

/-- **The end of an import is the next attempt of the replay.** -/
theorem finished (hanswers : C.AnswersBy answer Made) (h : Follows C answer Made l n q)
    (hphase : q.importer.phase = .importing b since) {v : Verdict} {chain : Recorded σ}
    (hchain : C.recorded.conclude q.chain b = some (v, chain)) :
    Follows C answer Made l (n + 1) ({ q with chain := chain }.finish b since v) := by
  have hflight : q.importer.inFlight = [b] := inFlight_of_importing hphase
  have hdone := inFlight_finish { q with chain := chain } b since v
  obtain ⟨hb, ⟨rest, hline⟩, hlines⟩ := h.front hphase
  have hmade := h.made
  rw [hflight] at hmade
  obtain ⟨hreceived, hconcluded⟩ := Chain.recorded_conclude hchain
  have hstate := Chain.conclude_of_recorded hchain
  -- the verdict is the one the replay has at this attempt
  obtain ⟨hv, hnext⟩ := hanswers.conclude hmade hstate
  have hafter := Replay.after_succ_of_cons hline
  rw [← h.concluded, ← hv] at hafter
  have hawake := awake_finish { q with chain := chain } b since v
  exact {
    concluded := by
      rw [chain_finish, hconcluded, hafter]
    count := by
      rw [chain_finish, hconcluded, List.length_append, h.count]
      rfl
    received := by
      rw [chain_finish, hdone, hreceived, hconcluded, h.received, hflight, List.map_append,
        List.append_nil]
      rfl
    made := by
      rw [chain_finish, hdone, hconcluded, List.map_append]
      exact hnext
    resting := by
      intro _
      rw [hafter]
      exact lines_finish hlines hb
    importing := by
      intro d hd
      rw [hdone] at hd
      cases hd
    asleep := fun hasleep => absurd hasleep hawake.2
    ended := fun hended => absurd hended hawake.1
    heard := by
      rw [chain_finish, hconcluded]
      exact h.heard.concat hmade (by rw [hstate]; rfl) }

/-- **One move of the importer.** -/
theorem moved (hchain : C.AnswersBy answer Made) (h : Follows C answer Made l n q)
    (hmove : Move C.recorded q r) : ∃ m, Follows C answer Made l m r := by
  cases hmove with
  | started hphase =>
    have hrest : q.importer.inFlight = [] := inFlight_of_resting (by simp [hphase])
    exact ⟨n, h.aside hrest rfl rfl (h.resting hrest) nofun nofun⟩
  | stopped hrest hstop =>
    have hkeeps := Keeps.stop hrest
    have hsignalled := (Move.signalled (C := C.recorded) (.stopped hrest hstop) hstop).1
    have hqueue : q.stop.queue = q.queue := q.queue_moveTo .stopped
    refine ⟨n, h.aside hrest (hkeeps.inFlight.trans hrest) hkeeps.chain ?_ nofun
      fun _ => hsignalled⟩
    rw [hqueue]
    exact h.resting hrest
  | took hphase _ => exact ⟨n, h.took hchain hphase⟩
  | finished hphase hconclude => exact ⟨n + 1, h.finished hchain hphase hconclude⟩
  | woke hphase _ =>
    have hrest : q.importer.inFlight = [] := inFlight_of_resting (by simp [hphase])
    exact ⟨n, h.aside hrest rfl rfl (h.resting hrest) nofun nofun⟩

/-- **A new importer on the same tree.** -/
theorem restarted (h : Follows C answer Made l n q) (hended : q.hasEnded = true) {t : Tree}
    (htree : q.queue.tree? = some t) {capacity : Nat} {next : BlockQueue} {events : List Event}
    (hopen : BlockQueue.openTree t capacity = .ok (next, events)) (backoff : Nat) :
    Follows C answer Made l n ({ q with queue := next }.restart backoff) := by
  have hrest := inFlight_of_hasEnded hended
  exact h.aside hrest rfl rfl ((h.resting hrest).of_openTree htree hopen) nofun nofun

end Follows

/-- **A course follows the replay, however often it was interrupted.** -/
theorem Course.follows (hchain : C.AnswersBy answer Made) (hp : Follows C answer Made l n p)
    (h : Course C Made p k q) : ∃ m, Follows C answer Made l m q := by
  induction h with
  | begun => exact ⟨n, hp⟩
  | worked _ hstep ih =>
    obtain ⟨m, hm⟩ := ih
    exact hm.moved hchain (move_of_step hstep)
  | passed _ hqueue himporter hreceived hconcluded hmade ih =>
    obtain ⟨m, hm⟩ := ih
    exact ⟨m, hm.passed hqueue (by rw [himporter]) (by rw [himporter]; exact id) hreceived
      hconcluded hmade⟩
  | signalled _ ih =>
    obtain ⟨m, hm⟩ := ih
    exact ⟨m, hm.passed rfl rfl (fun _ => rfl) rfl rfl hm.made⟩
  | restarted _ hended htree hopen backoff ih =>
    obtain ⟨m, hm⟩ := ih
    exact ⟨m, hm.restarted hended htree hopen backoff⟩

/-- No move of an importer is a signal to stop. -/
theorem Move.unsignalled (h : Move C.recorded q r) (hstop : q.importer.stopSignalled = false) :
    r.importer.stopSignalled = false := by
  cases h with
  | started _ => exact hstop
  | stopped _ hsignalled =>
    rw [hstop] at hsignalled
    cases hsignalled
  | took _ _ =>
    obtain ⟨queue, chain, journal, phase, htake, -⟩ := q.exists_take_eq C.recorded
    rw [htake]
    exact hstop
  | finished _ _ => exact (stopSignalled_finish _ _ _ _).trans hstop
  | woke _ _ => exact hstop

theorem Course.unsignalled (hp : p.importer.stopSignalled = false) (h : Course C Made p k q) :
    k = 0 → q.importer.stopSignalled = false := by
  induction h with
  | begun => exact fun _ => hp
  | worked _ hstep ih => exact fun hk => (move_of_step hstep).unsignalled (ih hk)
  | passed _ _ himporter _ _ _ ih =>
    intro hk
    rw [himporter]
    exact ih hk
  | signalled _ _ => exact nofun
  | restarted _ _ _ _ backoff _ => exact fun _ => rfl

/-! ## §3. What a course can still do. -/

namespace Follows

/-- Whoever is told to stop at rest leaves the chain alone from then on. -/
theorem chain_run_of_signalled (hstop : q.importer.stopSignalled = true)
    (hrest : q.importer.inFlight = []) (limit : Nat) :
    (q.run C.recorded limit).chain = q.chain := by
  induction limit generalizing q with
  | zero => rfl
  | succ limit ih =>
    unfold Pipeline.run
    cases hstep : q.step C.recorded with
    | none => rfl
    | some r =>
      obtain ⟨hsignalled, ⟨hkeeps, -⟩ | ⟨b, since, v, chain, hphase, -⟩⟩ :=
        (move_of_step hstep).signalled hstop
      · exact (ih hsignalled (hkeeps.inFlight.trans hrest)).trans hkeeps.chain
      · rw [inFlight_of_importing hphase] at hrest
        cases hrest

/-- At rest there is, or there can be, an importer that was not told to stop. -/
theorem exists_unsignalled (hchain : C.AnswersBy answer Made) (h : Follows C answer Made l n q)
    (hrest : q.importer.inFlight = []) :
    ∃ r, Course C Made q 0 r ∧ Follows C answer Made l n r ∧ r.importer.inFlight = []
      ∧ r.importer.stopSignalled = false := by
  cases hstop : q.importer.stopSignalled with
  | false => exact ⟨q, .begun, h, hrest, hstop⟩
  | true =>
    -- two steps lead out of the loop, and the tree is opened again
    have hended : (q.run C.recorded 2).hasEnded = true :=
      hasEnded_run_of_signalled hstop (by rw [hrest]; exact nofun)
    have hcourse : Course C Made q 0 (q.run C.recorded 2) := Course.begun.run 2
    obtain ⟨m, hm⟩ := hcourse.follows hchain h
    obtain rfl : m = n := by
      rw [← hm.count, ← h.count, chain_run_of_signalled hstop hrest]
    obtain ⟨t, next, events, htree, hopen, -⟩ :=
      (hm.resting (inFlight_of_hasEnded hended)).openTree 0
    exact ⟨_, hcourse.restarted hended htree hopen 0, hm.restarted hended htree hopen 0, rfl, rfl⟩

/-- **A block that waits is taken at last.** -/
theorem exists_importing (hchain : C.AnswersBy answer Made) (h : Follows C answer Made l n q)
    (hrest : q.importer.inFlight = []) (hstop : q.importer.stopSignalled = false)
    {rest : List Block} (hline : (Replay.after answer l n).line.blocks = b :: rest) :
    ∃ r since, Course C Made q 0 r ∧ Follows C answer Made l n r
      ∧ r.importer.phase = .importing b since := by
  have hlines := h.resting hrest
  -- from where it looks at the queue it takes the block
  have htake : ∀ {r : Pipeline (Recorded σ)}, Course C Made q 0 r → Follows C answer Made l n r →
      r.importer.phase = .ready → r.importer.stopSignalled = false →
      ∃ r' since, Course C Made q 0 r' ∧ Follows C answer Made l n r'
        ∧ r'.importer.phase = .importing b since := by
    intro r hcourse hr hready hrunning
    obtain ⟨hanswer, -⟩ :=
      (hr.resting (inFlight_of_resting (by simp [hready]))).poll_cons hline
    refine ⟨r.take C.recorded, r.clock, hcourse.worked (step_of_ready hready hrunning),
      hr.took hchain hready, ?_⟩
    rw [r.take_of_ok C.recorded hanswer]
    rfl
  cases hphase : q.importer.phase with
  | unstarted =>
    exact htake (Course.begun.worked (step_of_unstarted hphase))
      (h.aside hrest rfl rfl hlines nofun nofun) rfl hstop
  | ready => exact htake .begun h hphase hstop
  | asleep =>
    -- it fell asleep on an empty queue, and nobody appends
    rw [h.asleep hphase] at hline
    cases hline
  | importing d since =>
    rw [inFlight_of_importing hphase] at hrest
    cases hrest
  | pausing wakeAt =>
    -- time passes until the pause is over
    let due : Pipeline (Recorded σ) := { q with clock := wakeAt }
    have hcourse : Course C Made q 0 due := Course.begun.passed rfl rfl rfl rfl h.made
    exact htake (hcourse.worked (step_of_pausing hphase hstop (Nat.le_refl wakeAt)))
      (h.aside hrest rfl rfl hlines nofun nofun) rfl hstop
  | ended =>
    rw [h.ended hphase] at hstop
    cases hstop

/-- The import ends as soon as the chain gets into a state that is ready for it. -/
theorem exists_finished (hchain : C.AnswersBy answer Made) (h : Follows C answer Made l n q)
    (hphase : q.importer.phase = .importing b since) {d : σ}
    (hmade : Made d (q.chain.concluded.map Prod.fst) [b]) (hready : (C.conclude d b).isSome) :
    ∃ r, Course C Made q 0 r ∧ Follows C answer Made l (n + 1) r := by
  obtain ⟨⟨v, next⟩, hconclude⟩ := Option.isSome_iff_exists.mp hready
  let due : Pipeline (Recorded σ) := { q with chain := { q.chain with state := d } }
  have hflight : q.importer.inFlight = [b] := inFlight_of_importing hphase
  have hmade' : Made due.chain.state (q.chain.concluded.map Prod.fst) q.importer.inFlight := by
    rw [hflight]
    exact hmade
  have hdue : Follows C answer Made l n due := h.passed rfl rfl id rfl rfl hmade'
  let ended : Recorded σ := ⟨next, q.chain.received, q.chain.concluded ++ [(b, v)]⟩
  have hrecorded : C.recorded.conclude due.chain b = some (v, ended) := by
    show (C.conclude d b).map _ = _
    rw [hconclude]
    rfl
  have hcourse : Course C Made q 0 due := Course.begun.passed rfl rfl rfl rfl hmade'
  exact ⟨_, hcourse.worked (step_of_importing hphase hrecorded),
    hdue.finished hchain hphase hrecorded⟩

/-- **The next attempt is open to whoever follows a replay**, if another course made it. -/
theorem exists_next (hchain : C.AnswersBy answer Made) (h : Follows C answer Made l n q)
    (hr : Follows C answer Made l m r) (hlt : n < m) :
    ∃ q', Course C Made q 0 q' ∧ Follows C answer Made l (n + 1) q' := by
  obtain ⟨b, rest, later, hline, hattempts⟩ :=
    Replay.exists_attempt (by rw [← hr.concluded]; exact hr.count) hlt
  rw [← hr.concluded, ← h.concluded] at hattempts
  obtain ⟨d, hmade, hready⟩ := hr.heard _ _ _ _ hattempts
  rcases resting_or_importing q.importer with hrest | ⟨d', since, hphase⟩
  · obtain ⟨q₁, hcourse₁, h₁, hrest₁, hstop₁⟩ := h.exists_unsignalled hchain hrest
    obtain ⟨q₂, since, hcourse₂, h₂, hphase₂⟩ := h₁.exists_importing hchain hrest₁ hstop₁ hline
    rw [h.concluded, ← h₂.concluded] at hmade
    obtain ⟨q₃, hcourse₃, h₃⟩ := h₂.exists_finished hchain hphase₂ hmade hready
    exact ⟨q₃, (hcourse₁.trans hcourse₂).trans hcourse₃, h₃⟩
  · -- what is in flight is the front block, so its import need only end
    obtain ⟨-, ⟨rest', hline'⟩, -⟩ := h.front hphase
    obtain ⟨rfl, -⟩ := List.cons_eq_cons.mp (hline'.symm.trans hline)
    exact h.exists_finished hchain hphase hmade hready

theorem exists_reaching (hchain : C.AnswersBy answer Made) (h : Follows C answer Made l n q)
    (hr : Follows C answer Made l m r) (hle : n ≤ m) :
    ∃ q', Course C Made q 0 q' ∧ Follows C answer Made l m q' := by
  -- induction on how far the other course is ahead
  obtain ⟨ahead, rfl⟩ := Nat.exists_eq_add_of_le hle
  clear hle
  induction ahead generalizing n q with
  | zero => exact ⟨q, .begun, h⟩
  | succ ahead ih =>
    obtain ⟨q₁, hcourse₁, h₁⟩ := h.exists_next hchain hr (by omega)
    rw [show n + (ahead + 1) = n + 1 + ahead by omega] at hr ⊢
    obtain ⟨q', hcourse, h'⟩ := ih h₁ hr
    exact ⟨q', hcourse₁.trans hcourse, h'⟩

/-! ## §4. Two courses from one beginning. -/

theorem start {s : StoredQueue} {bs : List Block} {c : σ} {backoff : Nat}
    (hqueue : p.queue = .stored s) (hholds : s.Holds bs) (hchain : p.chain = .start c)
    (hmade : Made c [] []) (himporter : p.importer = .fresh backoff) :
    Follows C answer Made ⟨s.span, bs⟩ 0 p where
  concluded := by rw [hchain]; rfl
  count := by rw [hchain]; rfl
  received := by rw [hchain, himporter]; rfl
  made := by rw [hchain, himporter]; exact hmade
  resting _ := by rw [hqueue]; exact ⟨hholds, rfl⟩
  importing b hb := by rw [himporter] at hb; cases hb
  asleep h := by rw [himporter] at h; cases h
  ended h := by rw [himporter] at h; cases h
  heard := by
    rw [hchain]
    intro before b v later hes
    exact absurd hes (List.append_ne_nil_of_right_ne_nil before (List.cons_ne_nil _ later)).symm

theorem take_concluded (h : Follows C answer Made l n q) (hm : m ≤ q.chain.concluded.length) :
    q.chain.concluded.take m = (Replay.after answer l m).attempts := by
  rw [h.count] at hm
  rw [h.concluded, Replay.take_attempts hm]

/-- An attempt that has begun is the next one of the replay. -/
theorem take_received (h : Follows C answer Made l n q) (hm : m ≤ q.chain.received.length) :
    q.chain.received.take m = (Replay.after answer l m).attempts.map Prod.fst := by
  have hreceived := h.received
  rcases resting_or_importing q.importer with hrest | ⟨b, since, hphase⟩
  · -- every attempt that has begun has ended
    rw [hrest, List.append_nil] at hreceived
    rw [hreceived, List.length_map] at hm
    rw [hreceived, ← List.map_take, h.take_concluded hm]
  · -- the one in flight is on the front block, as the next one of the replay is
    obtain ⟨-, ⟨rest, hline⟩, -⟩ := h.front hphase
    rw [inFlight_of_importing hphase] at hreceived
    have hafter : (Replay.after answer l (n + 1)).attempts.map Prod.fst = q.chain.received := by
      rw [Replay.after_succ_of_cons hline, List.map_append, ← h.concluded, hreceived]
      rfl
    have hbegun : q.chain.received.length = n + 1 := by
      rw [hreceived, List.length_append, List.length_map, h.count, List.length_singleton]
    rw [← hafter, ← List.map_take, Replay.take_attempts (by omega)]

end Follows

/-- **A RESTART IS INVISIBLE TO THE CHAIN.**  Take any blocks in the tree of a queue, at
any positions, and any chain that answers by the attempts made so far.  Let two
importers begin with them, and let either be told to stop, end the import it is in,
and be followed by a new one on the same tree, at any moments and any number of times,
or never.  If nobody appends, then the two courses agree on every attempt that both
have begun, and on every verdict that both have heard; and the one that is behind can
go on, without a further stop, to where the other is.

An importer without a signal does not end.  One with a signal ends two steps later, if
the chain lets it, and whenever one has ended the tree of its queue can be opened. -/
theorem restarted_invisible (hanswers : C.AnswersBy answer Made) {s : StoredQueue}
    {bs : List Block} {c : σ} {backoff : Nat} (hqueue : p.queue = .stored s) (hholds : s.Holds bs)
    (hchain : p.chain = .start c) (hmade : Made c [] []) (himporter : p.importer = .fresh backoff)
    (hq : Course C Made p j q) (hr : Course C Made p k r) :
    (∀ n ≤ q.chain.received.length, n ≤ r.chain.received.length →
        q.chain.received.take n = r.chain.received.take n)
      ∧ (∀ n ≤ q.chain.concluded.length, n ≤ r.chain.concluded.length →
        q.chain.concluded.take n = r.chain.concluded.take n)
      ∧ (q.chain.concluded.length ≤ r.chain.concluded.length →
        ∃ q', Course C Made q 0 q' ∧ q'.chain.concluded = r.chain.concluded)
      ∧ (j = 0 → q.hasEnded = false)
      ∧ ((∀ b ∈ q.importer.inFlight, (C.recorded.conclude q.chain b).isSome) →
        (q.signalStop.run C.recorded 2).hasEnded = true)
      ∧ (q.hasEnded = true → ∀ capacity, ∃ t next events, q.queue.tree? = some t
        ∧ BlockQueue.openTree t capacity = .ok (next, events)) := by
  have hp : Follows C answer Made ⟨s.span, bs⟩ 0 p := .start hqueue hholds hchain hmade himporter
  obtain ⟨n, hn⟩ := hq.follows hanswers hp
  obtain ⟨m, hm⟩ := hr.follows hanswers hp
  refine ⟨?_, ?_, ?_, ?_, ?_, ?_⟩
  · intro i hi hi'
    rw [hn.take_received hi, hm.take_received hi']
  · intro i hi hi'
    rw [hn.take_concluded hi, hm.take_concluded hi']
  · intro hle
    rw [hn.count, hm.count] at hle
    obtain ⟨q', hcourse, hq'⟩ := hn.exists_reaching hanswers hm hle
    exact ⟨q', hcourse, hq'.concluded.trans hm.concluded.symm⟩
  · intro hj
    have hrunning := hq.unsignalled (by rw [himporter]; rfl) hj
    -- who has left the loop was told to
    rw [Bool.eq_false_iff]
    intro hended
    rw [hn.ended (hasEnded_iff.mp hended)] at hrunning
    cases hrunning
  · intro hready
    exact hasEnded_run_of_signalled (p := q.signalStop) rfl hready
  · intro hended capacity
    obtain ⟨t, next, events, htree, hopen, -⟩ :=
      (hn.resting (inFlight_of_hasEnded hended)).openTree capacity
    exact ⟨t, next, events, htree, hopen⟩

/-- An orphan waits before its parent. -/
def orphanQueue : StoredQueue :=
  let bs : List Block := [orphan, .linking 1 (.replicate 1) (.replicate 0)]
  ⟨Tree.empty.apply (Position.putFrom Span.middle (bs.map Block.Binary.encode)),
    ⟨Span.middle, Span.middle + 2⟩, HashIndex.empty.insertAll (bs.map Block.hash), 2⟩

def orphanFirst : Pipeline (Recorded ScriptedChain) where
  queue := .stored orphanQueue
  chain := .start (.start (.linking 0 (.replicate 0) (.replicate 0)) true false)
  metrics := none
  lifecycle := .running
  importer := .fresh 5
  clock := 0
  journal := []

/-- The signal comes in the import of the orphan, and the orphan goes behind its parent
before the importer ends. -/
theorem restarted_invisible_orphanFirst :
    let parent : Block := .linking 1 (.replicate 1) (.replicate 0)
    let C := ScriptedChain.chain
    let Made := C.MadeFrom orphanFirst.chain.state
    ∃ q r next, Course C Made orphanFirst 0 q ∧ Course C Made orphanFirst 1 r
      ∧ r.hasEnded = true ∧ r.chain.concluded = [(orphan, .outcome .noParent)]
      ∧ Course C Made orphanFirst 1 next ∧ next.chain.concluded = q.chain.concluded
      ∧ q.chain.concluded = [(orphan, .outcome .noParent), (parent, .outcome .success),
          (orphan, .outcome .success)] := by
  intro parent C Made
  let bs : List Block := [orphan, parent]
  have hstorable : ∀ b ∈ bs, b.Storable := by decide +kernel
  have hroom : Span.fresh.backEnd (bs.map Block.Binary.encode).length = .ok (Span.middle + 2) := rfl
  have hholds : orphanQueue.Holds bs :=
    .of_fills (Tree.Fills.empty.append _ hroom) (StoredQueue.map_decodeBlock_encode hstorable)
      (HashIndex.Counts.empty.insertAll _)
  have hanswers := C.answersBy_verdictAfter orphanFirst.chain.state
  have hmade : Made orphanFirst.chain.state [] [] := ⟨_, rfl, rfl⟩
  have hp : Follows C (C.verdictAfter orphanFirst.chain.state) Made ⟨_, bs⟩ 0 orphanFirst :=
    .start rfl hholds rfl hmade rfl
  -- one importer is never told to stop, and pauses after the orphan
  let paused := orphanFirst.run C.recorded 3
  let q := (paused.wait 5).run C.recorded 6
  have hpaused : Course C Made orphanFirst 0 paused := Course.begun.run 3
  obtain ⟨_, hfollows⟩ := hpaused.follows hanswers hp
  have hq : Course C Made orphanFirst 0 q := (hpaused.waited 5 hfollows.made).run 6
  -- another one ends after it
  let importing := orphanFirst.run C.recorded 2
  let r := importing.signalStop.run C.recorded 2
  have himporting : Course C Made orphanFirst 0 importing := Course.begun.run 2
  have hr : Course C Made orphanFirst 1 r := himporting.signalled.run 2
  have hended : r.hasEnded = true := by decide +kernel
  have hthree : q.chain.concluded = [(orphan, .outcome .noParent), (parent, .outcome .success),
    (orphan, .outcome .success)] := by decide +kernel
  have hone : r.chain.concluded = [(orphan, .outcome .noParent)] := by decide +kernel
  clear_value r q
  -- its tree opens, and a new importer can go on to where the first one is
  obtain ⟨-, -, -, -, -, htrees⟩ :=
    restarted_invisible hanswers rfl hholds rfl hmade rfl hr hq
  obtain ⟨t, queue, events, htree, hopen⟩ := htrees hended 2
  have hrestarted := hr.restarted hended htree hopen 5
  obtain ⟨-, -, hreach, -⟩ :=
    restarted_invisible hanswers rfl hholds rfl hmade rfl hrestarted hq
  have hbehind : r.chain.concluded.length ≤ q.chain.concluded.length := by
    rw [hone, hthree]
    decide
  obtain ⟨next, hnext, hconcluded⟩ := hreach hbehind
  exact ⟨q, r, next, hq, hr, hended, hone, hrestarted.trans hnext, hconcluded, hthree⟩

end Pipeline
end BlockSync
