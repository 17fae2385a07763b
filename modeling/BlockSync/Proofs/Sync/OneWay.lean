/-
  BlockSync.Proofs.Sync.OneWay
  ────────────────────────────
  **LIFE GOES ONE WAY.**

  Three places move the state of life: a call to close when it begins, the same call
  when it comes to its end, and an importer that leaves its loop.  Whatever the order in
  which they get their turns, and whoever else has a turn in between:

      the state never steps back
      who is out of the loop has left it stopped
      while nobody closes and nobody is out of the loop it is running

  The ends move to stopped, which is never refused.  The beginning of a close moves to
  stopping if it saw the importer running, and by then that need not be so any more: another
  call may have gone all the way in between (`refused_overtaken`).  So

      a move is refused exactly if a call that saw the importer running
      finds the state stopped when it gets to its move

  and then the state stays stopped.  Calls that wait one beside another, or come one after
  the other, but do not interrupt each other between look and move, are never refused.

  Several importers that share one state of life (`Crew`) are never refused either: the
  first that leaves moves it, and the others find it where they want it.

  Main results:

      refused_overtaken    a move that is refused
      alone_act            what one act of a crew may change
      lifecycle_one_way    whole runs of both
-/
import BlockSync.Proofs.Sync.Contention

namespace BlockSync

/-! ## §1. Several importers that share a state. -/

/-- Several importers with one queue, one chain and one state of life.  One of them has
the turn, and the pipeline is as that one sees it. -/
structure Crew (σ : Type) where
  pipeline : Pipeline σ
  others : List Importer

namespace Crew

variable {σ : Type} {C : Chain σ}

/-- All the importers, the one first that has the turn. -/
def importers (c : Crew σ) : List Importer := c.pipeline.importer :: c.others

/-- What may happen to a crew. -/
inductive Act (σ : Type) where
  /-- The importer that has the turn goes on by one step, if it can. -/
  | work
  /-- The turn passes on to the next one; whoever it is meant for gets it in the end. -/
  | pass
  /-- Another importer joins, and has not run yet. -/
  | hire (backoff : Nat)
  /-- Who has the turn is told to stop. -/
  | signal
  /-- Who has the turn is woken, if it sleeps. -/
  | rouse
  | append (b : Block)
  | appendBatch (bs : List Block)
  /-- Somebody else takes the front block. -/
  | poll
  | clear
  | wait (ms : Nat)
  /-- The chain changes by itself. -/
  | stir (f : σ → σ)

/-- The crew after an act. -/
def act (C : Chain σ) (c : Crew σ) : Act σ → Crew σ
  | .work => { c with pipeline := (c.pipeline.step C).getD c.pipeline }
  | .pass =>
    match c.others with
    | [] => c
    | k :: rest =>
      { pipeline := { c.pipeline with importer := k }
        others := rest ++ [c.pipeline.importer] }
  | .hire backoff => { c with others := .fresh backoff :: c.others }
  | .signal => { c with pipeline := c.pipeline.signalStop }
  | .rouse => { c with pipeline := c.pipeline.ring }
  | .append b => { c with pipeline := (c.pipeline.enqueue b).2 }
  | .appendBatch bs => { c with pipeline := (c.pipeline.enqueueBatch bs).2 }
  | .poll => { c with pipeline := (c.pipeline.onQueue BlockQueue.poll).2 }
  | .clear => { c with pipeline := { c.pipeline with queue := c.pipeline.queue.clear } }
  | .wait ms => { c with pipeline := c.pipeline.wait ms }
  | .stir f => { c with pipeline := { c.pipeline with chain := f c.pipeline.chain } }

/-- The crew after some acts. -/
def after (C : Chain σ) (acts : List (Act σ)) (c : Crew σ) : Crew σ := acts.foldl (act C) c

/-- A crew that has not done anything yet. -/
structure Unstarted (c : Crew σ) : Prop where
  lifecycle : c.pipeline.lifecycle = .running
  importers : ∀ k ∈ c.importers, k.phase = .unstarted

/-- The signs of life of a crew. -/
def vitals (c : Crew σ) : Vitals :=
  { c.pipeline.vitals with
    ended := c.pipeline.hasEnded || c.others.any fun k => k.phase = .ended }

theorem ended_vitals_iff {c : Crew σ} :
    c.vitals.ended = true ↔ ∃ k ∈ c.importers, k.phase = .ended := by
  unfold vitals importers
  rw [Bool.or_eq_true, Pipeline.hasEnded_iff, List.any_eq_true]
  simp only [decide_eq_true_eq, List.mem_cons, exists_eq_or_imp]

/-- What leaves the signs of life of the importer that has the turn leaves those of all. -/
theorem vitals_of_same (c : Crew σ) {p : Pipeline σ} (h : p.vitals = c.pipeline.vitals) :
    vitals { c with pipeline := p } = c.vitals := by
  have hended : p.hasEnded = c.pipeline.hasEnded := congrArg Vitals.ended h
  show Vitals.mk p.vitals.lifecycle p.vitals.refusals (p.hasEnded || _) = _
  rw [h, hended]
  rfl

/-- Who has the turn leaves the loop. -/
theorem vitals_of_left (c : Crew σ) {p : Pipeline σ} (h : p.vitals = c.pipeline.vitals.left) :
    vitals { c with pipeline := p } = c.vitals.left := by
  have hended : p.hasEnded = true := congrArg Vitals.ended h
  show Vitals.mk p.vitals.lifecycle p.vitals.refusals (p.hasEnded || _) = _
  rw [h, hended, Bool.true_or]
  rfl

/-- Who has the turn changes nothing about who is out of the loop. -/
theorem vitals_pass (c : Crew σ) : (c.act C .pass).vitals = c.vitals := by
  obtain ⟨p, others⟩ := c
  cases others with
  | nil => rfl
  | cons k rest =>
    refine congrArg (Vitals.mk p.lifecycle p.refusals) ?_
    rw [Bool.eq_iff_iff]
    show (Pipeline.hasEnded { p with importer := k } || (rest ++ [p.importer]).any _) = true ↔ _
    simp only [Bool.or_eq_true, Pipeline.hasEnded_iff, List.any_append, List.any_cons,
      List.any_nil, decide_eq_true_eq, Bool.or_false]
    rw [← or_assoc]
    exact or_comm

/-- **Every act of a crew leads onward**, and only the step out of the loop moves the
state. -/
theorem alone_act (c : Crew σ) (a : Act σ) : c.vitals.Alone (c.act C a).vitals := by
  cases a with
  | work =>
    cases hstep : c.pipeline.step C with
    | none =>
      refine .of_eq (c.vitals_of_same ?_)
      rw [hstep]
      rfl
    | some p =>
      rcases Pipeline.vitals_of_step hstep with ⟨hsame, -⟩ | ⟨hleft, -⟩
      · refine .of_eq (c.vitals_of_same ?_)
        rw [hstep]
        exact hsame
      · have hact : (c.act C .work).vitals = c.vitals.left := by
          refine c.vitals_of_left ?_
          rw [hstep]
          exact hleft
        rw [hact]
        exact .left _
  | pass => exact .of_eq c.vitals_pass
  | hire backoff => exact .refl _
  | signal => exact .refl _
  | rouse =>
    exact .of_eq (c.vitals_of_same
      ((Pipeline.Nudges.ring _).vitals (Pipeline.refusals_ring _)))
  | append b =>
    exact .of_eq (c.vitals_of_same
      ((Pipeline.Nudges.enqueue _ b).vitals (Pipeline.refusals_enqueue _ b)))
  | appendBatch bs =>
    exact .of_eq (c.vitals_of_same
      ((Pipeline.Nudges.enqueueBatch _ bs).vitals (Pipeline.refusals_enqueueBatch _ bs)))
  | poll =>
    exact .of_eq (c.vitals_of_same (Pipeline.vitals_eq rfl
      (Pipeline.refusals_onQueue _ _ fun e => Pipeline.fromQueue_of_mem_poll) rfl))
  | clear => exact .refl _
  | wait ms => exact .refl _
  | stir f => exact .refl _

theorem alone_after (acts : List (Act σ)) :
    ∀ c : Crew σ, c.vitals.Alone (c.after C acts).vitals := by
  induction acts with
  | nil => intro c; exact .refl _
  | cons a acts ih => intro c; exact (c.alone_act a).trans (ih _)

end Crew

/-! ## §2. Whole runs. -/

namespace Synchronizer

variable {σ : Type}

/-- **LIFE GOES ONE WAY.**  A synchronizer that has started may be called, closed by any
number of calls at once, each of which goes on step by step, and given up; its importer gets
its turns in between.  At any moment of this, its state is not behind any state it had
before; if the importer is out of its loop the state is stopped; and as long as nobody has
begun to close and the importer is in its loop the state is running.

A turn writes a refusal exactly if a call to close gets to its move that saw the importer
running, and the state is stopped by now; then nothing but the log changes.  So no move was
refused if no call to close went on while another one, that saw the importer running, stood
before its move.  With nobody else in between, a call to close is `close`.

The first half is true of a crew as well, however many importers join it and whoever has the
turn: who is out of the loop has left the state stopped, while everybody is in the loop the
state is running, and no move is refused. -/
theorem lifecycle_one_way (C : Chain σ) :
    (∀ (settings : Settings) (canRun : Bool) (site : Site σ) (s₀ : Synchronizer σ),
      start settings canRun site = .ok s₀ →
      ∀ turns : List (Contended.Turn σ), let s := (Contended.fresh s₀).after C turns
        (∀ more, s.lifecycle.rank ≤ (s.after C more).lifecycle.rank)
        ∧ (s.pipeline.hasEnded = true → s.lifecycle = .stopped)
        ∧ (.look ∉ turns → s.pipeline.hasEnded = false → s.lifecycle = .running)
        ∧ (∀ t, s.Late t →
          (s.turn C t).pipeline = s.pipeline.log [.transitionRefused .stopped .stopping])
        ∧ (∀ t, ¬ s.Late t → (s.turn C t).pipeline.refusals = s.pipeline.refusals)
        ∧ (Contended.Unbroken C turns (.fresh s₀) →
          s.pipeline.refusals = site.pipeline.refusals)
        ∧ (s.givenUp = false → (s.after C s.wholeClose).toSynchronizer = s.close))
    ∧ ∀ c₀ : Crew σ, c₀.Unstarted → ∀ acts : List (Crew.Act σ), let c := c₀.after C acts
        (∀ more, c.pipeline.lifecycle.rank ≤ (c.after C more).pipeline.lifecycle.rank)
        ∧ (∀ k ∈ c.importers, k.phase = .ended → c.pipeline.lifecycle = .stopped)
        ∧ ((∀ k ∈ c.importers, k.phase ≠ .ended) → c.pipeline.lifecycle = .running)
        ∧ c.pipeline.refusals = c₀.pipeline.refusals := by
  refine ⟨fun settings canRun site s₀ hstart turns => ?_, fun c₀ hnew acts => ?_⟩
  · intro s
    obtain ⟨events, hpipeline⟩ := exists_pipeline_start hstart
    have hrunning : s₀.lifecycle = .running := by unfold lifecycle; rw [hpipeline]; rfl
    have hlive : ¬ s₀.pipeline.hasEnded = true := by rw [hpipeline]; exact Bool.false_ne_true
    have honward : s₀.pipeline.vitals.Onward s.pipeline.vitals :=
      Contended.onward_after turns (.fresh s₀)
    refine ⟨fun more => (Contended.onward_after more s).forward, fun hended => ?_,
      fun hopen hinLoop => ?_, fun t => Contended.turn_of_late,
      fun t => Contended.refusals_turn C, fun hunbroken => ?_, Contended.after_wholeClose⟩
    · exact (honward.stopped hended).resolve_left hlive
    · have halone : s₀.pipeline.vitals.Alone s.pipeline.vitals :=
        Contended.alone_after (s := .fresh s₀) hopen rfl
      rcases halone.undisturbed with hsame | hended
      · exact hsame.trans hrunning
      · cases hended.symm.trans hinLoop
    · exact ((Contended.Steady.of_start hstart).refusals_after turns hunbroken).trans
        (refusals_start hstart)
  · intro c
    have halone : c₀.vitals.Alone c.vitals := c₀.alone_after acts
    have hlive : ¬ c₀.vitals.ended = true := fun h => by
      obtain ⟨k, hk, hended⟩ := Crew.ended_vitals_iff.mp h
      rw [hnew.importers k hk] at hended
      cases hended
    refine ⟨fun more => (c.alone_after more).forward, fun k hk hended => ?_, fun hinLoop => ?_,
      halone.refusals⟩
    · exact (halone.stopped (Crew.ended_vitals_iff.mpr ⟨k, hk, hended⟩)).resolve_left hlive
    · rcases halone.undisturbed with hsame | hended
      · exact hsame.trans hnew.lifecycle
      · obtain ⟨k, hk, hphase⟩ := Crew.ended_vitals_iff.mp hended
        exact absurd hphase (hinLoop k hk)

/-- A call to close sees the importer running.  A second one sees the same, goes on until it
waits, and the importer leaves its loop; then the first call gets to its move. -/
def overtaken : List (Contended.Turn (Recorded ScriptedChain)) :=
  [.look, .look, .proceed 1, .proceed 1, .proceed 1, .work, .work, .proceed 0]

/-- **Its move is refused**, for the state is stopped by then, and it stays so. -/
theorem refused_overtaken :
    start ⟨2, 10, 20⟩ true gatekept.toSite = .ok gatekept
      ∧ let s := (Contended.fresh gatekept).after ScriptedChain.chain.recorded overtaken
        s.pipeline.refusals = gatekept.pipeline.refusals + 1
          ∧ s.pipeline.journal.head? = some (.transitionRefused .stopped .stopping)
          ∧ s.lifecycle = .stopped :=
  ⟨rfl, by decide +kernel, by decide +kernel, by decide +kernel⟩

/-- Two importers over an empty queue, neither of which has run. -/
def pair : Crew ScriptedChain :=
  ⟨{ gatekept.pipeline with chain := gatekept.pipeline.chain.state }, [.fresh 20]⟩

/-- While an import is in progress a call to close goes on until it waits, and a second one
comes to its end beside it.  Then the import ends, the importer leaves its loop, and the
first call comes to its end too. -/
def closedTwice : List (Contended.Turn (Recorded ScriptedChain)) :=
  [.call (.addBlock (.linking 100 (.replicate 100) (.replicate 99))), .work, .work]
    ++ [.look, .proceed 0, .proceed 0, .proceed 0]
    ++ [.look, .proceed 1, .proceed 1, .proceed 1, .proceed 1]
    ++ [.stir (fun r => { r with state := r.state.release 1 }), .work, .work]
    ++ [.proceed 0, .proceed 0]

/-- Neither call interrupts the other one, so nothing is refused; that the importer leaves its
loop last moves nothing.  Where one call is overtaken by another its move is refused.  Of two
importers one leaves its loop, and the other one follows it. -/
theorem lifecycle_one_way_closedTwice :
    let after := fun turns => (Contended.fresh gatekept).after ScriptedChain.chain.recorded turns
    let acts : List (Crew.Act ScriptedChain) := [.work, .signal, .pass, .work, .work, .pass, .work]
    let early := pair.after ScriptedChain.chain (acts.take 6)
    let late := pair.after ScriptedChain.chain (acts ++ [.pass, .signal, .rouse, .work])
    start ⟨2, 10, 20⟩ true gatekept.toSite = .ok gatekept
      ∧ (after closedTwice).pipeline.refusals = gatekept.pipeline.refusals
      ∧ (after closedTwice).pipeline.hasEnded = true ∧ (after closedTwice).lifecycle = .stopped
      ∧ (after (overtaken.take 7)).Late (.proceed 0)
      ∧ ((after (overtaken.take 7)).turn ScriptedChain.chain.recorded (.proceed 0)).pipeline
        = (after (overtaken.take 7)).pipeline.log [.transitionRefused .stopped .stopping]
      ∧ early.pipeline.lifecycle = .running
      ∧ (∃ k ∈ late.importers, k.phase = .ended) ∧ late.pipeline.lifecycle = .stopped := by
  intro after acts early late
  have hstart : start ⟨2, 10, 20⟩ true gatekept.toSite = .ok gatekept := rfl
  have hruns := (lifecycle_one_way ScriptedChain.chain.recorded).1 _ _ _ _ hstart
  obtain ⟨-, hstopped, -, -, -, hrefusals, -⟩ := hruns closedTwice
  obtain ⟨-, -, -, hlate, -, -, -⟩ := hruns (overtaken.take 7)
  have hended : (after closedTwice).pipeline.hasEnded = true := by decide +kernel
  have hbehind : (after (overtaken.take 7)).Late (.proceed 0) :=
    ⟨0, rfl, by decide +kernel, by decide +kernel⟩
  have hnew : pair.Unstarted := ⟨rfl, by decide +kernel⟩
  have hcrew := (lifecycle_one_way ScriptedChain.chain).2 pair hnew
  obtain ⟨-, -, hrunning, -⟩ := hcrew (acts.take 6)
  obtain ⟨-, hleft, -, -⟩ := hcrew (acts ++ [.pass, .signal, .rouse, .work])
  have hout : ∃ k ∈ late.importers, k.phase = .ended := by decide +kernel
  obtain ⟨k, hk, hphase⟩ := hout
  exact ⟨hstart, hrefusals (by decide +kernel), hended, hstopped hended, hbehind,
    hlate _ hbehind, hrunning (by decide +kernel), ⟨k, hk, hphase⟩, hleft k hk hphase⟩

end Synchronizer
end BlockSync
