/-
  BlockSync.Proofs.Sync.PendingBlocks
  ───────────────────────────────────
  **WHAT THE GAUGE OF PENDING BLOCKS SHOWS.**

  The importer takes a block from the queue, and the gauge is set when the attempt
  ends with an outcome.  If it fails or crashes, the gauge stays as it was, and still
  shows the block that is gone.  Every call that changes the queue sets the gauge.  So
  the gauge, read while no import is in progress, is ahead of the queue by the blocks of
  attempts that failed or crashed last, and by nothing else (`blockGauge_after`).

  The invariant is `Ahead`, which also knows of the block in flight: the gauge shows it
  if it was not set since the block was taken.
-/
import BlockSync.Proofs.Sync.Gauges

namespace BlockSync

/-! ## §1. How far ahead. -/

namespace Pipeline

variable {σ : Type} {C : Chain σ} {p q : Pipeline (Recorded σ)}

/-- The gauge of pending blocks shows the length of the queue.  Or it has not been set
for a while, and shows those blocks as well that were taken since: of the last
attempts, which all failed or crashed, and of the one in progress. -/
def Ahead (p : Pipeline (Recorded σ)) : Prop :=
  p.blockGauge = some (p.queue.length : Int)
    ∨ ∃ failed, failed <:+ p.chain.concluded ∧ (∀ e ∈ failed, e.2.outcome? = none)
      ∧ p.blockGauge
        = some ((p.queue.length + failed.length + p.importer.inFlight.length : Nat) : Int)

namespace Ahead

theorem isSome_metrics (h : Ahead p) : p.metrics.isSome := by
  rw [← Option.isSome_map (f := Metrics.blocksPending)]
  show p.blockGauge.isSome
  rcases h with hgauge | ⟨failed, -, -, hgauge⟩
  · rw [hgauge]
    rfl
  · rw [hgauge]
    rfl

theorem aside (h : Ahead p) (hgauge : q.blockGauge = p.blockGauge) (hqueue : q.queue = p.queue)
    (hflight : q.importer.inFlight = p.importer.inFlight)
    (hconcluded : q.chain.concluded = p.chain.concluded) : Ahead q := by
  unfold Ahead
  rw [hgauge, hqueue, hflight, hconcluded]
  exact h

theorem keep (h : Ahead p) (hkeeps : Keeps p q) (hmetrics : q.metrics = p.metrics)
    (hqueue : q.queue = p.queue) : Ahead q :=
  h.aside (congrArg (Option.map Metrics.blocksPending) hmetrics) hqueue hkeeps.inFlight
    (congrArg Recorded.concluded hkeeps.chain)

/-- A block leaves the queue, and the gauge still shows it. -/
theorem shorter (h : Ahead p) (hrest : p.importer.inFlight = [])
    (hgauge : q.blockGauge = p.blockGauge) (hlength : p.queue.length = q.queue.length + 1)
    (hflight : q.importer.inFlight.length = 1)
    (hconcluded : q.chain.concluded = p.chain.concluded) : Ahead q := by
  refine Or.inr ?_
  rw [hgauge, hconcluded, hflight]
  rcases h with hshown | ⟨failed, hlast, hnone, hshown⟩
  · refine ⟨[], List.nil_suffix, fun e he => (by cases he), ?_⟩
    rw [hshown, hlength]
    rfl
  · -- what is in flight now was in the queue before
    refine ⟨failed, hlast, hnone, ?_⟩
    rw [hshown, hlength, hrest]
    congr 2
    simp only [List.length_nil]
    omega

theorem took (h : Ahead p) (hsound : Sound p) (hrest : p.importer.inFlight = []) :
    Ahead (p.take C.recorded) := by
  obtain ⟨hqueue, hflight, hmetrics⟩ := take_leaves C.recorded p
  have hholds := hsound.holds
  have hlength := hholds.length_eq
  cases hblocks : p.queue.blocks with
  | nil =>
    rw [hblocks] at hholds
    obtain ⟨hanswer, hnext⟩ := hholds.poll_nil
    rw [p.take_of_empty C.recorded hanswer]
    exact h.keep ((Keeps.onQueue p BlockQueue.poll).trans (Keeps.goTo hrest (by simp))) rfl hnext
  | cons b rest =>
    rw [hblocks] at hholds hlength
    obtain ⟨hanswer, hnext⟩ := hholds.poll_cons
    refine h.shorter hrest (congrArg (Option.map Metrics.blocksPending) hmetrics) ?_ ?_ ?_
    · rw [hqueue, hnext.length_eq, hlength]
      rfl
    · rw [hflight, hanswer]
      rfl
    · rw [p.take_of_ok C.recorded hanswer]
      rfl

/-- An attempt without an outcome is one more of those that the gauge still shows. -/
theorem unsettled {b : Block} {v : Verdict} (h : Ahead p) (hb : p.importer.inFlight = [b])
    (hv : v.outcome? = none) (hgauge : q.blockGauge = p.blockGauge) (hqueue : q.queue = p.queue)
    (hflight : q.importer.inFlight = [])
    (hconcluded : q.chain.concluded = p.chain.concluded ++ [(b, v)]) : Ahead q := by
  unfold Ahead
  rw [hgauge, hqueue, hflight, hconcluded]
  rcases h with hshown | ⟨failed, hlast, hnone, hshown⟩
  · exact Or.inl hshown
  · refine Or.inr ⟨failed ++ [(b, v)], ?_, ?_, ?_⟩
    · obtain ⟨earlier, hearlier⟩ := hlast
      exact ⟨earlier, by rw [← hearlier, List.append_assoc]⟩
    · intro e he
      rcases List.mem_append.mp he with he | he
      · exact hnone e he
      · rw [List.mem_singleton.mp he]
        exact hv
    · rw [hshown, hb, List.length_append]
      rfl

/-- An attempt ends, and the gauge is set if it has an outcome. -/
theorem finished {b : Block} {since : Nat} {v : Verdict} {chain : Recorded σ} (h : Ahead p)
    (hphase : p.importer.phase = .importing b since)
    (hchain : C.recorded.conclude p.chain b = some (v, chain)) :
    Ahead ({ p with chain := chain }.finish b since v) := by
  have hgauge := (gauges_finish { p with chain := chain } b since v).1
  have hqueue := queue_finish { p with chain := chain } b since v
  cases hv : v.outcome? with
  | some o =>
    cases v with
    | outcome o =>
      refine Or.inl ?_
      rw [hgauge, hqueue]
      exact blockGauge_settle_outcome _ b _ o h.isSome_metrics
    | _ => cases hv
  | none =>
    -- only a block without parent goes back into the queue
    have hne : v ≠ .outcome .noParent := by
      rintro rfl
      cases hv
    rw [queue_settle _ b _ hne] at hqueue
    rw [(gauges_settle_of_none _ b _ hv).1] at hgauge
    refine h.unsettled (inFlight_of_importing hphase) hv hgauge hqueue
      (inFlight_finish _ b since v) ?_
    rw [chain_finish]
    exact (Chain.recorded_conclude hchain).2

theorem moved (h : Ahead p) (hsound : Sound p) (hmove : Move C.recorded p q) : Ahead q := by
  cases hmove with
  | started hphase =>
    have hrest : p.importer.inFlight = [] := inFlight_of_resting (by simp [hphase])
    exact h.keep ((Keeps.log p _).trans (Keeps.goTo hrest (by simp))) rfl rfl
  | stopped hrest _ =>
    exact h.keep (Keeps.stop hrest) (p.metrics_moveTo .stopped) (p.queue_moveTo .stopped)
  | took hphase _ => exact h.took hsound (inFlight_of_resting (by simp [hphase]))
  | finished hphase hchain => exact h.finished hphase hchain
  | woke hphase _ =>
    have hrest : p.importer.inFlight = [] := inFlight_of_resting (by simp [hphase])
    exact h.keep (Keeps.goTo hrest (by simp)) rfl rfl

/-- At rest only attempts that failed or crashed are shown beside the queue. -/
theorem at_rest (h : Ahead p) (hrest : p.importer.inFlight = []) :
    ∃ failed, failed <:+ p.chain.concluded ∧ (∀ e ∈ failed, e.2.outcome? = none)
      ∧ p.blockGauge = some ((p.queue.length + failed.length : Nat) : Int) := by
  rcases h with hshown | ⟨failed, hlast, hnone, hshown⟩
  · exact ⟨[], List.nil_suffix, fun e he => (by cases he), hshown⟩
  · rw [hrest] at hshown
    exact ⟨failed, hlast, hnone, hshown⟩

/-- If the last attempt had an outcome, then none that failed is shown. -/
theorem eq_length_at_rest (h : Ahead p) (hrest : p.importer.inFlight = [])
    (hlast : ∀ e ∈ p.chain.concluded.getLast?, e.2.outcome? ≠ none) :
    p.blockGauge = some (p.queue.length : Int) := by
  obtain ⟨failed, ⟨earlier, hearlier⟩, hnone, hshown⟩ := h.at_rest hrest
  rcases List.eq_nil_or_concat failed with rfl | ⟨es, e, rfl⟩
  · exact hshown
  · -- the last attempt would be one of them
    exfalso
    refine hlast e ?_ (hnone e (by simp))
    rw [← hearlier]
    simp

end Ahead

/-- The step that ends an attempt with an outcome sets the gauge. -/
theorem exists_step_outcome {b : Block} {since : Nat} {o : Outcome} {chain : Recorded σ}
    (hm : p.metrics.isSome) (hphase : p.importer.phase = .importing b since)
    (hchain : C.recorded.conclude p.chain b = some (.outcome o, chain)) :
    ∃ q, p.step C.recorded = some q ∧ q.blockGauge = some (q.queue.length : Int) := by
  refine ⟨{ p with chain := chain }.finish b since (.outcome o), ?_, ?_⟩
  · unfold step
    rw [hphase]
    dsimp only
    rw [hchain]
    cases o with
    | _ => rfl
  · rw [(gauges_finish _ b since _).1, queue_finish]
    exact blockGauge_settle_outcome _ b _ o hm

end Pipeline

namespace Synchronizer

variable {σ : Type} {C : Chain σ}

/-! ## §2. Whole runs. -/

theorem ahead_call {s : Synchronizer (Recorded σ)} (h : s.pipeline.Ahead) (c : Call) :
    (s.call c).pipeline.Ahead := by
  have hserved := Served.call s c
  cases s.update_blocks_call h.isSome_metrics c with
  | set _ hgauge => exact Or.inl hgauge
  | left _ hsame =>
    obtain ⟨hgauge, hqueue⟩ := Prod.mk.inj hsame
    exact h.aside hgauge hqueue hserved.pipeline.inFlight
      (congrArg Recorded.concluded hserved.pipeline.chain)

/-- **Each deed leaves the gauge right, or ahead by failed attempts.** -/
theorem ahead_happen {s : Synchronizer (Recorded σ)} (h : s.pipeline.Ahead)
    (hsound : s.pipeline.Sound) (d : Deed σ) : (s.happen C d).pipeline.Ahead := by
  rcases s.deed_cases C d with ⟨c, rfl⟩ | rfl | haside
  · exact ahead_call h c
  · show (s.work C.recorded).pipeline.Ahead
    rcases s.work_eq_or_move C.recorded with hrest | hmove
    · rw [hrest]
      exact h
    · exact h.moved hsound hmove
  · exact h.aside (congrArg (Option.map Metrics.blocksPending) haside.metrics) haside.queue
      haside.inFlight haside.concluded

/-- Right at the start, the gauge is right or ahead by failed attempts ever after. -/
theorem ahead_after {settings : Settings} {canRun : Bool} {site : Site (Recorded σ)}
    {s : Synchronizer (Recorded σ)} (hqueue : site.pipeline.queue.Reachable)
    (hgauge : site.pipeline.blockGauge = some (site.pipeline.queue.length : Int))
    (hstart : start settings canRun site = .ok s) (deeds : List (Deed σ))
    (hdeeds : ∀ d ∈ deeds, ∀ b ∈ d.blocks, b.Storable) : (s.after C deeds).pipeline.Ahead := by
  obtain ⟨events, hpipeline⟩ := exists_pipeline_start hstart
  have hahead : s.pipeline.Ahead := by
    rw [hpipeline]
    exact Or.inl hgauge
  -- a block is only taken from a queue in good order
  have hboth : (s.after C deeds).pipeline.Sound ∧ (s.after C deeds).pipeline.Ahead :=
    after_kept (fun t => t.pipeline.Sound ∧ t.pipeline.Ahead)
      (fun d hd h => ⟨h.1.happen d hd, ahead_happen h.2 h.1 d⟩) hdeeds
      ⟨.of_start hqueue hstart, hahead⟩
  exact hboth.2

/-- **WHAT THE GAUGE OF PENDING BLOCKS SHOWS.**  It shows the length of the queue when a
synchronizer starts.  After any deeds, while no import is in progress, it shows the
length of the queue and the blocks of some attempts that ended last and all failed or
crashed: such an attempt took its block from the queue and does not set the gauge.  So
if none has ended yet, or the last one ended with an outcome, the gauge shows the
length.  It does so after every append that is accepted, after a clear and after every
attempt that ends with an outcome, whatever it showed before. -/
theorem blockGauge_after {settings : Settings} {canRun : Bool} {site : Site (Recorded σ)}
    {s₀ : Synchronizer (Recorded σ)} (hqueue : site.pipeline.queue.Reachable)
    (hgauge : site.pipeline.blockGauge = some (site.pipeline.queue.length : Int))
    (hstart : start settings canRun site = .ok s₀) (deeds : List (Deed σ))
    (hdeeds : ∀ d ∈ deeds, ∀ b ∈ d.blocks, b.Storable) :
    let s := s₀.after C deeds
    (s.pipeline.importer.inFlight = [] →
        ∃ failed, failed <:+ s.pipeline.chain.concluded ∧ (∀ e ∈ failed, e.2.outcome? = none)
          ∧ s.pipeline.blockGauge = some ((s.size + failed.length : Nat) : Int))
      ∧ (s.pipeline.importer.inFlight = [] →
        (∀ e ∈ s.pipeline.chain.concluded.getLast?, e.2.outcome? ≠ none) →
        s.pipeline.blockGauge = some (s.size : Int))
      ∧ (∀ c, s.SetsBlockGauge c →
        (s.call c).pipeline.blockGauge = some ((s.call c).size : Int))
      ∧ ∀ b since o chain, s.pipeline.importer.phase = .importing b since →
        C.recorded.conclude s.pipeline.chain b = some (.outcome o, chain) →
        (s.work C.recorded).pipeline.blockGauge = some ((s.work C.recorded).size : Int) := by
  intro s
  have hahead : s.pipeline.Ahead := ahead_after hqueue hgauge hstart deeds hdeeds
  refine ⟨hahead.at_rest, hahead.eq_length_at_rest, fun c hc => ?_, ?_⟩
  · cases s.update_blocks_call hahead.isSome_metrics c with
    | set _ hset => exact hset
    | left hnot _ => exact absurd hc hnot
  · intro b since o chain hphase hchain
    obtain ⟨q, hstep, hset⟩ := Pipeline.exists_step_outcome hahead.isSome_metrics hphase hchain
    rw [work_of_step hstep]
    exact hset

/-- A block is queued, and its import fails. -/
def failedImport : List (Deed ScriptedChain) := [.call (.addBlock (heir 1)), .work, .work, .work]

/-- The importer is at rest and nothing is queued, but the gauge shows a block. -/
theorem blockGauge_failedImport :
    start ⟨1, 2, 5⟩ true metered.toSite = .ok metered
      ∧ let s := metered.after ScriptedChain.chain failedImport
        s.pipeline.importer.inFlight = [] ∧ s.size = 0 ∧ s.pipeline.blockGauge = some 1 :=
  ⟨rfl, by decide +kernel, by decide +kernel, by decide +kernel⟩

/-- The block comes again, and its import succeeds. -/
theorem blockGauge_after_retriedImport :
    let s := metered.after ScriptedChain.chain
      (failedImport ++ [.call (.addBlock (heir 1)), .work, .work])
    s.pipeline.chain.concluded.map (·.2.outcome?) = [none, some .success]
      ∧ s.pipeline.blockGauge = some (s.size : Int) := by
  intro s
  have hqueue : metered.pipeline.queue.Reachable :=
    .opened (t := .empty) (fun _ he => (by cases he)) (BlockQueue.openTree_empty 2)
  have hstart : start ⟨1, 2, 5⟩ true metered.toSite = .ok metered := rfl
  have hafter := blockGauge_after (C := ScriptedChain.chain) hqueue (by decide +kernel) hstart
    (failedImport ++ [.call (.addBlock (heir 1)), .work, .work]) (by decide +kernel)
  exact ⟨by decide +kernel, hafter.2.1 (by decide +kernel) (by decide +kernel)⟩

end Synchronizer
end BlockSync
