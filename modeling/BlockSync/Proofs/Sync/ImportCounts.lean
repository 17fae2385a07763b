/-
  BlockSync.Proofs.Sync.ImportCounts
  ──────────────────────────────────
  **THE METRICS OF IMPORTS ADD UP.**

  An attempt that ends leaves its traces at three places: its duration first, then its
  outcome or a failure, and in the end the gauge of pending blocks.  In between a block
  may go back into the queue.  For all that, the attempt is tallied exactly once
  (`tally_settle`), and nothing else touches the tally (`Booked.moved`, `tally_call`).

  So from fresh metrics on, whoever makes the attempts and however they overlap
  (`Attended`), the counters and the durations agree with the attempts that ended
  (`counts_of_attended`).
-/
import BlockSync.Proofs.Metrics.Tally
import BlockSync.Proofs.Sync.Gauges

namespace BlockSync

namespace Pipeline

variable {σ : Type} {C : Chain σ}

/-! ## §1. What touches the tally. -/

/-- What the metrics say about attempts, if metrics are kept. -/
def tally? (p : Pipeline σ) : Option Tally := p.metrics.map Metrics.tally

section Tally

variable (p : Pipeline σ)

theorem tally_measure {f : Metrics → Metrics} {g : Tally → Tally}
    (hf : ∀ m, (f m).tally = g m.tally) : (p.measure f).tally? = p.tally?.map g := by
  unfold tally? measure
  cases p.metrics with
  | none => rfl
  | some m => exact congrArg some (hf m)

/-- The gauges are no part of it. -/
theorem tally_gauge {f : Metrics → Metrics} (hf : ∀ m, (f m).tally = m.tally) :
    (p.measure f).tally? = p.tally? := by
  rw [p.tally_measure (g := id) hf, Option.map_id_fun, id]

theorem tally_updateBlockGauge : p.updateBlockGauge.tally? = p.tally? :=
  p.tally_gauge (f := fun m => m.setBlocksPending p.queue.length) fun _ => rfl

/-- An outcome is counted before anything is done about the block. -/
theorem tally_settleOutcome (b : Block) (o : Outcome) :
    (p.settleOutcome b o).tally?
      = p.tally?.map fun t => { t with outcomes := t.outcomes.increment o.name } := by
  have hcount : (p.measure fun m => m.countOutcome o.name).tally?
      = p.tally?.map fun t => { t with outcomes := t.outcomes.increment o.name } :=
    p.tally_measure fun _ => rfl
  rw [← hcount]
  cases o with
  | noParent =>
    refine (tally_updateBlockGauge _).trans ?_
    exact congrArg (Option.map Metrics.tally) (metrics_requeue _ b)
  | _ => exact tally_updateBlockGauge _

/-- **The end of an attempt is tallied once**, whatever the verdict. -/
theorem tally_settle (b : Block) (elapsed : Nat) (v : Verdict) :
    (p.settle b elapsed v).tally?
      = p.tally?.map fun t => t.attempt (Float.ofNat elapsed / 1000) v := by
  let q := p.measure fun m => m.observe (Float.ofNat elapsed / 1000)
  have htime : q.tally? = p.tally?.map fun t =>
      { t with durations := some ((t.durations.getD .empty).observe (Float.ofNat elapsed / 1000)) } :=
    p.tally_measure fun _ => rfl
  have hfailure : ∀ events, ((q.log events).measure Metrics.countFailure).tally?
      = q.tally?.map fun t => { t with failures := t.failures + 1 } :=
    fun events => (q.log events).tally_measure fun _ => rfl
  cases v with
  | outcome o =>
    show (q.settleOutcome b o).tally? = _
    rw [q.tally_settleOutcome b o, htime, Option.map_map]
    rfl
  | failed message =>
    show ((q.log _).measure Metrics.countFailure).tally? = _
    rw [hfailure, htime, Option.map_map]
    rfl
  | crashed payload =>
    show ((q.log _).measure Metrics.countFailure).tally? = _
    rw [hfailure, htime, Option.map_map]
    rfl

theorem tally_finish (b : Block) (since : Nat) (v : Verdict) :
    (p.finish b since v).tally? = (p.settle b (p.clock - since) v).tally? := by
  obtain ⟨phase, -, hfinish⟩ := p.finish_eq_goTo b since v
  rw [hfinish]
  rfl

end Tally

/-! ## §2. Attempts, whoever makes them. -/

/-- The metrics agree with the attempts that ended since there were some others. -/
def Booked (before : List (Block × Verdict)) (p : Pipeline (Recorded σ)) : Prop :=
  ∃ t es, p.tally? = some t ∧ p.chain.concluded = before ++ es ∧ Tallied t es

namespace Booked

variable {before : List (Block × Verdict)} {p q : Pipeline (Recorded σ)}

theorem fresh (h : p.metrics = some .fresh) : Booked p.chain.concluded p := by
  refine ⟨Metrics.fresh.tally, [], ?_, (List.append_nil _).symm, .fresh⟩
  unfold tally?
  rw [h]
  rfl

theorem keep (h : Booked before p) (htally : q.tally? = p.tally?)
    (hconcluded : q.chain.concluded = p.chain.concluded) : Booked before q := by
  obtain ⟨t, es, ht, hes, htallied⟩ := h
  exact ⟨t, es, htally.trans ht, hconcluded.trans hes, htallied⟩

/-- One attempt ends, and is tallied. -/
theorem settled {b : Block} {v : Verdict} {chain : Recorded σ} (h : Booked before p)
    (hchain : C.recorded.conclude p.chain b = some (v, chain)) (elapsed : Nat) :
    Booked before ({ p with chain := chain }.settle b elapsed v) := by
  obtain ⟨t, es, ht, hes, htallied⟩ := h
  refine ⟨t.attempt (Float.ofNat elapsed / 1000) v, es ++ [(b, v)], ?_, ?_,
    htallied.attempt b _ v⟩
  · show tally? _ = _
    rw [tally_settle]
    exact congrArg (Option.map _) ht
  · rw [(Nudges.settle _ b elapsed v).chain, (Chain.recorded_conclude hchain).2, hes,
      List.append_assoc]

/-- **An import at once is tallied.** -/
theorem processed {b : Block} {o : Option Outcome} (h : Booked before p)
    (hprocess : p.process? C.recorded b = some (o, q)) : Booked before q := by
  obtain ⟨⟨v, chain⟩, hchain, heq⟩ := Option.map_eq_some_iff.mp hprocess
  cases heq
  have hbegun : Booked before (p.beginImport C.recorded b) := h.keep rfl rfl
  exact hbegun.settled hchain 0

/-- **The importer tallies each attempt it ends**, and makes no other change. -/
theorem moved (h : Booked before p) (hmove : Move C.recorded p q) : Booked before q := by
  cases hmove with
  | started _ => exact h.keep rfl rfl
  | stopped hrest _ =>
    refine h.keep (congrArg (Option.map Metrics.tally) (p.metrics_moveTo .stopped)) ?_
    exact congrArg Recorded.concluded (Keeps.stop hrest).chain
  | took _ _ =>
    obtain ⟨queue, chain, journal, phase, htake, hchain⟩ := p.exists_take_eq C.recorded
    rw [htake]
    refine h.keep rfl ?_
    -- a block that is handed over has not been attempted yet
    rcases hchain with rfl | ⟨b, rfl⟩
    · rfl
    · rfl
  | @finished b since v chain _ hchain =>
    refine (h.settled hchain (p.clock - since)).keep
      (tally_finish { p with chain := chain } b since v) ?_
    rw [chain_finish, (Nudges.settle _ b _ v).chain]
  | woke _ _ => exact h.keep rfl rfl

end Booked

/-- A pipeline at work, with its importer and with others that hand blocks to its chain
beside it. -/
inductive Attended (C : Chain σ) (p : Pipeline (Recorded σ)) : Pipeline (Recorded σ) → Prop where
  | begun : Attended C p p
  | worked {q r : Pipeline (Recorded σ)} (h : Attended C p q)
      (hstep : q.step C.recorded = some r) : Attended C p r
  /-- Somebody else has a block imported at once. -/
  | processed {q r : Pipeline (Recorded σ)} (h : Attended C p q) {b : Block}
      {o : Option Outcome} (hprocess : q.process? C.recorded b = some (o, r)) : Attended C p r
  /-- An attempt ends that was not made by the importer; whatever came in between, it
  began some time ago. -/
  | ended {q : Pipeline (Recorded σ)} (h : Attended C p q) {b : Block} {v : Verdict}
      {chain : Recorded σ} (hchain : C.recorded.conclude q.chain b = some (v, chain))
      (elapsed : Nat) : Attended C p ({ q with chain := chain }.settle b elapsed v)
  /-- All else: blocks are handed over and appended, time passes, somebody closes. -/
  | passed {q r : Pipeline (Recorded σ)} (h : Attended C p q) (htally : r.tally? = q.tally?)
      (hconcluded : r.chain.concluded = q.chain.concluded) : Attended C p r

namespace Attended

variable {p q r : Pipeline (Recorded σ)}

theorem booked {before : List (Block × Verdict)} (hp : Booked before p)
    (h : Attended C p q) : Booked before q := by
  induction h with
  | begun => exact hp
  | worked _ hstep ih => exact ih.moved (move_of_step hstep)
  | processed _ hprocess ih => exact ih.processed hprocess
  | ended _ hchain elapsed ih => exact ih.settled hchain elapsed
  | passed _ htally hconcluded ih => exact ih.keep htally hconcluded

end Attended

/-- **THE METRICS OF IMPORTS ADD UP.**  From fresh metrics on, whether the importer makes
the attempts or somebody else does, one after the other or at the same time, and however
they end: of each outcome as many are counted as attempts ended with it, no other label is
counted, and there are as many failures as attempts that failed or crashed.  A duration is
recorded for each attempt that ended, so there are as many as outcomes and failures
together. -/
theorem counts_of_attended {p q : Pipeline (Recorded σ)} (hfresh : p.metrics = some .fresh)
    (h : Attended C p q) :
    ∃ m es, q.metrics = some m ∧ q.chain.concluded = p.chain.concluded ++ es
      ∧ (∀ o : Outcome, m.outcomes.count o.name = es.countP fun e => e.2 = .outcome o)
      ∧ (∀ e ∈ m.outcomes.counts, ∃ o : Outcome, e.1 = o.name)
      ∧ m.failures = es.countP (fun e => e.2.outcome? = none)
      ∧ m.observations = es.length
      ∧ m.observations
        = (Outcome.all.map fun o => m.outcomes.count o.name).sum + m.failures := by
  obtain ⟨t, es, ht, hes, htallied⟩ := h.booked (.fresh hfresh)
  obtain ⟨m, hm, rfl⟩ := Option.map_eq_some_iff.mp ht
  exact ⟨m, es, hm, hes, htallied.outcomes, htallied.labels, htallied.failures,
    htallied.observations, htallied.observations_eq_sum⟩

end Pipeline

namespace Synchronizer

variable {σ : Type} {C : Chain σ}

/-! ## §3. Behind the facade. -/

theorem tally_updateHashGauge (s : Synchronizer σ) :
    s.updateHashGauge.pipeline.tally? = s.pipeline.tally? :=
  s.pipeline.tally_gauge (f := fun m => m.setHashesPending s.frontier.length) fun _ => rfl

theorem tally_onFrontierGauged {α : Type} (s : Synchronizer σ)
    (op : Frontier → Reply Frontier α) :
    (s.onFrontierGauged op).2.pipeline.tally? = s.pipeline.tally? := by
  cases h : (op s.frontier).answer with
  | ok a =>
    rw [s.onFrontierGauged_of_ok h]
    exact tally_updateHashGauge _
  | error e => rw [s.onFrontierGauged_of_error h]; rfl

/-- An append sets the gauge in the end, if it is accepted. -/
theorem tally_of_gauged {s t : Synchronizer σ} (h : t.pipeline.metrics = s.pipeline.metrics) :
    t.updateBlockGauge.pipeline.tally? = s.pipeline.tally? :=
  t.pipeline.tally_updateBlockGauge.trans (congrArg (Option.map Metrics.tally) h)

/-- **No call makes an attempt.** -/
theorem tally_call (s : Synchronizer σ) (c : Call) :
    (s.call c).pipeline.tally? = s.pipeline.tally? := by
  cases c with
  | addBlocks bs =>
    by_cases hbs : bs = []
    · subst hbs
      rfl
    · show (s.addBlocks bs).2.pipeline.tally? = _
      cases h : (s.pipeline.queue.enqueueBatch bs).answer with
      | ok kept =>
        obtain ⟨t, hadd, hmetrics, -⟩ := s.exists_addBlocks_of_ok hbs h
        rw [hadd]
        exact tally_of_gauged hmetrics
      | error e => rw [s.addBlocks_of_error hbs h]; rfl
  | addBlock b =>
    show (s.addBlock b).2.pipeline.tally? = _
    cases h : (s.pipeline.queue.enqueue b).answer with
    | ok u =>
      obtain ⟨t, hadd, hmetrics, -⟩ := s.exists_addBlock_of_ok h
      rw [hadd]
      exact tally_of_gauged hmetrics
    | error e => rw [s.addBlock_of_error h]; rfl
  | addHash h =>
    show (s.addHash h).2.pipeline.tally? = _
    cases hanswer : (s.frontier.pushFront h).answer with
    | ok u =>
      obtain ⟨events, hadd⟩ := s.addHash_of_ok hanswer
      rw [hadd]
      rfl
    | error e => rw [s.addHash_of_error hanswer]; rfl
  | addHashes hs =>
    obtain ⟨events, hadd⟩ := s.exists_addHashes_eq hs
    show (s.addHashes hs).2.pipeline.tally? = _
    rw [hadd]
    exact (s.log events).tally_onFrontierGauged _
  | returnHashes hs =>
    by_cases hne : hs = []
    · subst hne
      rfl
    · obtain ⟨events, hreturn⟩ := s.exists_returnHashes_eq hne
      show (s.returnHashes hs).2.pipeline.tally? = _
      rw [hreturn]
      exact (s.log events).tally_onFrontierGauged _
  | logFrontierSize => exact tally_updateHashGauge _
  | setHighestDifficulty d => rfl
  | clear =>
    -- both gauges are set
    exact (Pipeline.tally_updateBlockGauge _).trans (tally_updateHashGauge _)
  | _ => exact s.tally_onFrontierGauged _

end Synchronizer

namespace Pipeline.Attended

open Synchronizer

variable {σ : Type} {C : Chain σ}

theorem happen {p : Pipeline (Recorded σ)} {s : Synchronizer (Recorded σ)}
    (h : Attended C p s.pipeline) (d : Deed σ) : Attended C p (s.happen C d).pipeline := by
  rcases s.deed_cases C d with ⟨c, rfl⟩ | rfl | haside
  · exact h.passed (s.tally_call c)
      (congrArg Recorded.concluded (Served.call s c).pipeline.chain)
  · cases hstep : s.pipeline.step C.recorded with
    | none =>
      show Attended C p (s.work C.recorded).pipeline
      rw [work_of_rest hstep]
      exact h
    | some q =>
      show Attended C p (s.work C.recorded).pipeline
      rw [work_of_step hstep]
      exact h.worked hstep
  · exact h.passed (congrArg (Option.map Metrics.tally) haside.metrics) haside.concluded

/-- Whatever happens to a synchronizer, its pipeline is at work. -/
theorem after {p : Pipeline (Recorded σ)} (deeds : List (Deed σ)) :
    ∀ {s : Synchronizer (Recorded σ)}, Attended C p s.pipeline →
      Attended C p (s.after C deeds).pipeline := by
  induction deeds with
  | nil => intro s h; exact h
  | cons d deeds ih => intro s h; exact ih (h.happen d)

end Pipeline.Attended

namespace Synchronizer

/-- A block fails in the loop and a second one has no parent; while that one waits in the
queue, the first is imported by itself. -/
theorem counts_of_attended_metered :
    ∃ q m, Pipeline.Attended ScriptedChain.chain metered.pipeline q ∧ q.metrics = some m
      ∧ Outcome.all.map (fun o => m.outcomes.count o.name) = [1, 1, 0, 0]
      ∧ m.failures = 1 ∧ m.observations = 3 := by
  -- the loop, and then an attempt beside it
  let s := metered.after ScriptedChain.chain
    [.call (.addBlocks [heir 1, heir 2]), .work, .work, .work, .work, .work]
  let processed := s.pipeline.process? ScriptedChain.chain.recorded (heir 1)
  have hsome : processed.isSome := by decide +kernel
  obtain ⟨⟨o, q⟩, hprocess⟩ := Option.isSome_iff_exists.mp hsome
  -- what is read off the attempts in the end
  have hread {α : Type} (f : List (Block × Verdict) → α) (a : α)
      (h : processed.map (fun r => f r.2.chain.concluded) = some a) : f q.chain.concluded = a := by
    rw [hprocess] at h
    exact Option.some.inj h
  have hloop : Pipeline.Attended ScriptedChain.chain metered.pipeline s.pipeline :=
    .after _ .begun
  have hrun := hloop.processed hprocess
  obtain ⟨m, es, hm, hes, houtcomes, -, hfailures, htimes, -⟩ :=
    Pipeline.counts_of_attended rfl hrun
  have hended : es = q.chain.concluded := hes.symm
  subst hended
  refine ⟨q, m, hrun, hm, ?_, ?_, ?_⟩
  · simp only [houtcomes]
    exact hread (fun es => Outcome.all.map fun o => es.countP fun e => e.2 = .outcome o)
      [1, 1, 0, 0] (by decide +kernel)
  · rw [hfailures]
    exact hread (fun es => es.countP fun e => e.2.outcome? = none) 1 (by decide +kernel)
  · rw [htimes]
    exact hread List.length 3 (by decide +kernel)

end Synchronizer
end BlockSync
