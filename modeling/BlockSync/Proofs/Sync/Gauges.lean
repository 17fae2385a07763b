/-
  BlockSync.Proofs.Sync.Gauges
  ────────────────────────────
  **WHO SETS THE GAUGES.**

  Two gauges are to show how many blocks and how many hashes are pending.  Nothing ties
  them to the stores: whoever changes a store has to set its gauge as well.

      update_blocks_call       every call that changes the queue does
      update_hashes_call       every call that changes the frontier does, but for
                               those that announce a single hash
      Move.hashGauge           the importer never touches the frontier
      blockGauge_settle_outcome, gauges_settle_of_none
                               an attempt that ends sets the gauge of pending blocks if
                               it has an outcome, and not if it failed or crashed

  A call that is refused leaves its store alone, and the gauge too.
-/
import BlockSync.Proofs.Sync.Conservation
import BlockSync.Proofs.Sync.Stores

namespace BlockSync

namespace Pipeline

variable {σ : Type} {C : Chain σ}

/-! ## §1. Who sets a gauge. -/

/-- What the gauge of pending blocks shows, if metrics are kept. -/
def blockGauge (p : Pipeline σ) : Option Int := p.metrics.map Metrics.blocksPending

/-- What the gauge of pending hashes shows, if metrics are kept. -/
def hashGauge (p : Pipeline σ) : Option Int := p.metrics.map Metrics.hashesPending

section Metrics

variable (p : Pipeline σ)

@[simp] theorem metrics_ring : p.ring.metrics = p.metrics := by
  unfold ring
  split
  · rfl
  · rfl

@[simp] theorem metrics_enqueue (b : Block) : (p.enqueue b).2.metrics = p.metrics := by
  cases h : (p.queue.enqueue b).answer with
  | ok u =>
    rw [p.enqueue_of_ok h]
    exact metrics_ring _
  | error e => rw [p.enqueue_of_error h]; rfl

@[simp] theorem metrics_enqueueBatch (bs : List Block) :
    (p.enqueueBatch bs).2.metrics = p.metrics := by
  cases h : (p.queue.enqueueBatch bs).answer with
  | ok kept =>
    rw [p.enqueueBatch_of_ok h]
    show (if kept > 0 then _ else _ : Pipeline σ).metrics = _
    split
    · exact metrics_ring _
    · rfl
  | error e => rw [p.enqueueBatch_of_error h]; rfl

@[simp] theorem metrics_requeue (b : Block) : (p.requeue b).metrics = p.metrics := by
  rw [← p.metrics_enqueue b]
  unfold requeue
  split
  next heq => rw [heq]
  next heq => rw [heq]; rfl

@[simp] theorem metrics_moveTo (target : Lifecycle) : (p.moveTo target).metrics = p.metrics := by
  obtain ⟨life, events, hmove⟩ := p.exists_moveTo_eq target
  rw [hmove]
  rfl

/-- Counts and durations have nothing to do with the gauges. -/
theorem gauges_measure {f : Metrics → Metrics}
    (hf : ∀ m, (f m).blocksPending = m.blocksPending ∧ (f m).hashesPending = m.hashesPending) :
    (p.measure f).blockGauge = p.blockGauge ∧ (p.measure f).hashGauge = p.hashGauge := by
  unfold blockGauge hashGauge measure
  cases p.metrics with
  | none => exact ⟨rfl, rfl⟩
  | some m => exact ⟨congrArg some (hf m).1, congrArg some (hf m).2⟩

theorem hashGauge_updateBlockGauge : p.updateBlockGauge.hashGauge = p.hashGauge := by
  unfold hashGauge updateBlockGauge measure
  cases p.metrics with
  | none => rfl
  | some m => rfl

theorem blockGauge_updateBlockGauge (hm : p.metrics.isSome) :
    p.updateBlockGauge.blockGauge = some (p.queue.length : Int) := by
  obtain ⟨m, hm⟩ := Option.isSome_iff_exists.mp hm
  unfold blockGauge updateBlockGauge measure
  rw [hm]
  rfl

end Metrics

section Settle

variable (p : Pipeline σ) (b : Block) (elapsed : Nat)

/-- Whatever is done about a block, the gauge is set after that. -/
theorem exists_settle_outcome_eq (o : Outcome) :
    ∃ q : Pipeline σ, p.settle b elapsed (.outcome o) = q.updateBlockGauge
      ∧ q.metrics.isSome = p.metrics.isSome ∧ q.hashGauge = p.hashGauge := by
  -- what is measured before
  let q := (p.measure fun m => m.observe (Float.ofNat elapsed / 1000)).measure fun m =>
    m.countOutcome o.name
  have hsome : q.metrics.isSome = p.metrics.isSome := by
    simp [q, measure]
  have htime := (p.gauges_measure (f := fun m => m.observe (Float.ofNat elapsed / 1000))
    fun _ => ⟨rfl, rfl⟩).2
  have hgauge : q.hashGauge = p.hashGauge :=
    (gauges_measure _ (f := fun m => m.countOutcome o.name) fun _ => ⟨rfl, rfl⟩).2.trans htime
  cases o with
  | noParent =>
    refine ⟨(q.log [.parentUnknown b.number]).requeue b, rfl, ?_, ?_⟩
    · rw [metrics_requeue]
      exact hsome
    · unfold hashGauge
      rw [metrics_requeue]
      exact hgauge
  | success => exact ⟨q.log [.imported b.number], rfl, hsome, hgauge⟩
  | exist => exact ⟨q.log [.notImported b.number .exist], rfl, hsome, hgauge⟩
  | invalid => exact ⟨q.log [.notImported b.number .invalid], rfl, hsome, hgauge⟩

theorem blockGauge_settle_outcome (o : Outcome) (hm : p.metrics.isSome) :
    (p.settle b elapsed (.outcome o)).blockGauge
      = some ((p.settle b elapsed (.outcome o)).queue.length : Int) := by
  obtain ⟨q, hq, hsome, -⟩ := p.exists_settle_outcome_eq b elapsed o
  rw [hq, q.blockGauge_updateBlockGauge (hsome.trans hm)]
  rfl

/-- An attempt without an outcome counts as a failure and sets no gauge. -/
theorem gauges_settle_of_none {v : Verdict} (hv : v.outcome? = none) :
    (p.settle b elapsed v).blockGauge = p.blockGauge
      ∧ (p.settle b elapsed v).hashGauge = p.hashGauge := by
  have htime := p.gauges_measure (f := fun m => m.observe (Float.ofNat elapsed / 1000))
    fun _ => ⟨rfl, rfl⟩
  have hcount : ∀ q : Pipeline σ, (q.measure Metrics.countFailure).blockGauge = q.blockGauge
      ∧ (q.measure Metrics.countFailure).hashGauge = q.hashGauge :=
    fun q => q.gauges_measure fun _ => ⟨rfl, rfl⟩
  cases v with
  | outcome o => cases hv
  | failed message => exact ⟨(hcount _).1.trans htime.1, (hcount _).2.trans htime.2⟩
  | crashed payload => exact ⟨(hcount _).1.trans htime.1, (hcount _).2.trans htime.2⟩

theorem hashGauge_settle (v : Verdict) : (p.settle b elapsed v).hashGauge = p.hashGauge := by
  cases hv : v.outcome? with
  | none => exact (p.gauges_settle_of_none b elapsed hv).2
  | some o =>
    cases v with
    | outcome o =>
      obtain ⟨q, hq, -, hgauge⟩ := p.exists_settle_outcome_eq b elapsed o
      rw [hq, q.hashGauge_updateBlockGauge]
      exact hgauge
    | _ => cases hv

end Settle

section Finish

variable (p : Pipeline σ) (b : Block) (since : Nat)

theorem gauges_finish (v : Verdict) :
    (p.finish b since v).blockGauge = (p.settle b (p.clock - since) v).blockGauge
      ∧ (p.finish b since v).hashGauge = (p.settle b (p.clock - since) v).hashGauge := by
  obtain ⟨phase, -, hfinish⟩ := p.finish_eq_goTo b since v
  rw [hfinish]
  exact ⟨rfl, rfl⟩

end Finish

/-- The importer has nothing to do with hashes. -/
theorem Move.hashGauge {p q : Pipeline σ} (h : Move C p q) : q.hashGauge = p.hashGauge := by
  cases h with
  | started _ => rfl
  | stopped _ _ => exact congrArg (Option.map Metrics.hashesPending) (p.metrics_moveTo .stopped)
  | took _ _ => exact congrArg (Option.map Metrics.hashesPending) (take_leaves C p).2.2
  | @finished b since v chain _ _ =>
    rw [(gauges_finish { p with chain := chain } b since v).2]
    exact hashGauge_settle { p with chain := chain } b _ v
  | woke _ _ => rfl

end Pipeline

/-! ## §2. What a call does to a gauge. -/

namespace Synchronizer

variable {σ : Type} {C : Chain σ}

/-- The gauge of pending blocks and what it is to show. -/
def blockView (s : Synchronizer σ) : Option Int × BlockQueue :=
  (s.pipeline.blockGauge, s.pipeline.queue)

/-- The gauge of pending hashes and what it is to show. -/
def hashView (s : Synchronizer σ) : Option Int × Frontier := (s.pipeline.hashGauge, s.frontier)

/-- Whether a call sets the gauge of pending blocks. -/
def SetsBlockGauge (s : Synchronizer σ) : Call → Prop
  | .addBlocks bs => (s.addBlocks bs).1.isOk = true
  | .addBlock b => (s.addBlock b).1.isOk = true
  | .clear => True
  | _ => False

/-- Whether a call sets the gauge of pending hashes. -/
def SetsHashGauge (s : Synchronizer σ) : Call → Prop
  | .setBestHash h => (s.setBestHash h).1.isOk = true
  | .addHashes hs => (s.addHashes hs).1.isOk = true
  | .addNewBlockHash h => (s.addNewBlockHash h).1.isOk = true
  | .returnHashes hs => hs ≠ [] ∧ (s.returnHashes hs).1.isOk = true
  | .takeHashes => s.takeHashes.1.isOk = true
  | .logFrontierSize => True
  | .clear => True
  | _ => False

/-- A gauge is set, and then it shows the length of its store; or nothing happens to
either. -/
inductive Update {α : Type} (length : α → Nat) (sets : Prop) (before after : Option Int × α) :
    Prop where
  | set (hsets : sets) (hgauge : after.1 = some (length after.2 : Int))
  | left (hsets : ¬ sets) (hsame : after = before)

section Views

variable (s : Synchronizer σ)

theorem hashGauge_updateHashGauge (hm : s.pipeline.metrics.isSome) :
    s.updateHashGauge.pipeline.hashGauge = some (s.frontier.length : Int) := by
  obtain ⟨m, hm⟩ := Option.isSome_iff_exists.mp hm
  unfold Pipeline.hashGauge updateHashGauge Pipeline.measure
  rw [hm]
  rfl

theorem blockView_updateHashGauge : s.updateHashGauge.blockView = s.blockView := by
  unfold blockView Pipeline.blockGauge updateHashGauge Pipeline.measure
  cases s.pipeline.metrics with
  | none => rfl
  | some m => rfl

theorem hashView_updateBlockGauge : s.updateBlockGauge.hashView = s.hashView := by
  unfold hashView
  exact congrArg (·, s.frontier) s.pipeline.hashGauge_updateBlockGauge

theorem exists_addBlock_of_ok {b : Block} (h : (s.pipeline.queue.enqueue b).answer = .ok ()) :
    ∃ t : Synchronizer σ, s.addBlock b = (.ok (), t.updateBlockGauge)
      ∧ t.pipeline.metrics = s.pipeline.metrics ∧ t.frontier = s.frontier := by
  have hmetrics := s.pipeline.metrics_enqueue b
  unfold addBlock
  rw [s.pipeline.enqueue_of_ok h] at hmetrics ⊢
  exact ⟨_, rfl, hmetrics, rfl⟩

theorem addBlock_of_error {b : Block} {e : StoreError}
    (h : (s.pipeline.queue.enqueue b).answer = .error e) :
    s.addBlock b
      = (.error (.ofStore e), { s with pipeline := (s.pipeline.onQueue (·.enqueue b)).2 }) := by
  unfold addBlock
  rw [s.pipeline.enqueue_of_error h]

theorem exists_addBlocks_of_ok {bs : List Block} {kept : Nat} (hbs : bs ≠ [])
    (h : (s.pipeline.queue.enqueueBatch bs).answer = .ok kept) :
    ∃ t : Synchronizer σ, s.addBlocks bs = (.ok (), t.updateBlockGauge)
      ∧ t.pipeline.metrics = s.pipeline.metrics ∧ t.frontier = s.frontier := by
  have hmetrics := s.pipeline.metrics_enqueueBatch bs
  unfold addBlocks
  rw [List.getLast?_eq_some_getLast hbs]
  rw [s.pipeline.enqueueBatch_of_ok h] at hmetrics ⊢
  exact ⟨_, rfl, hmetrics, rfl⟩

theorem addBlocks_of_error {bs : List Block} {e : StoreError} (hbs : bs ≠ [])
    (h : (s.pipeline.queue.enqueueBatch bs).answer = .error e) :
    s.addBlocks bs = (.error (.ofStore e),
      { s with pipeline := (s.pipeline.onQueue (·.enqueueBatch bs)).2 }) := by
  unfold addBlocks
  rw [List.getLast?_eq_some_getLast hbs]
  dsimp only
  rw [s.pipeline.enqueueBatch_of_error h]

/-- An accepted append ends with the gauge: `t` is what it leaves before. -/
theorem update_of_gauged {t : Synchronizer σ} {sets : Prop} (hsets : sets)
    (hm : s.pipeline.metrics.isSome) (hmetrics : t.pipeline.metrics = s.pipeline.metrics)
    (hfrontier : t.frontier = s.frontier) :
    Update BlockQueue.length sets s.blockView t.updateBlockGauge.blockView
      ∧ t.updateBlockGauge.hashView = s.hashView := by
  have hsome : t.pipeline.metrics.isSome := by rw [hmetrics]; exact hm
  refine ⟨.set hsets (t.pipeline.blockGauge_updateBlockGauge hsome), ?_⟩
  rw [hashView_updateBlockGauge]
  unfold hashView Pipeline.hashGauge
  rw [hmetrics, hfrontier]

/-- An append is accepted and sets the gauge of pending blocks, or it changes nothing. -/
theorem update_addBlock (hm : s.pipeline.metrics.isSome) (b : Block) :
    Update BlockQueue.length ((s.addBlock b).1.isOk = true) s.blockView (s.addBlock b).2.blockView
      ∧ (s.addBlock b).2.hashView = s.hashView := by
  cases h : (s.pipeline.queue.enqueue b).answer with
  | ok u =>
    obtain ⟨t, hadd, hmetrics, hfrontier⟩ := s.exists_addBlock_of_ok h
    rw [hadd]
    exact s.update_of_gauged rfl hm hmetrics hfrontier
  | error e =>
    rw [s.addBlock_of_error h]
    refine ⟨.left Bool.false_ne_true ?_, rfl⟩
    exact congrArg (s.pipeline.blockGauge, ·) (BlockQueue.next_enqueue_of_error h)

theorem update_addBlocks (hm : s.pipeline.metrics.isSome) (bs : List Block) :
    Update BlockQueue.length ((s.addBlocks bs).1.isOk = true) s.blockView
        (s.addBlocks bs).2.blockView
      ∧ (s.addBlocks bs).2.hashView = s.hashView := by
  by_cases hbs : bs = []
  · -- an empty batch is refused before the queue is asked
    subst hbs
    exact ⟨.left Bool.false_ne_true rfl, rfl⟩
  · cases h : (s.pipeline.queue.enqueueBatch bs).answer with
    | ok kept =>
      obtain ⟨t, hadd, hmetrics, hfrontier⟩ := s.exists_addBlocks_of_ok hbs h
      rw [hadd]
      exact s.update_of_gauged rfl hm hmetrics hfrontier
    | error e =>
      rw [s.addBlocks_of_error hbs h]
      refine ⟨.left Bool.false_ne_true ?_, rfl⟩
      exact congrArg (s.pipeline.blockGauge, ·) (BlockQueue.next_enqueueBatch_of_error h)

/-- So it goes with operations on the frontier and the gauge of pending hashes. -/
theorem update_onFrontierGauged {α : Type} (op : Frontier → Reply Frontier α)
    (hm : s.pipeline.metrics.isSome)
    (hrefused : ∀ e, (op s.frontier).answer = .error e → (op s.frontier).next = s.frontier) :
    Update Frontier.length ((s.onFrontierGauged op).1.isOk = true) s.hashView
        (s.onFrontierGauged op).2.hashView := by
  cases h : (op s.frontier).answer with
  | ok a =>
    rw [s.onFrontierGauged_of_ok h]
    exact .set rfl ((s.onFrontier op).2.hashGauge_updateHashGauge hm)
  | error e =>
    rw [s.onFrontierGauged_of_error h]
    exact .left Bool.false_ne_true (congrArg (s.pipeline.hashGauge, ·) (hrefused e h))

theorem blockView_onFrontierGauged {α : Type} (op : Frontier → Reply Frontier α) :
    (s.onFrontierGauged op).2.blockView = s.blockView := by
  cases h : (op s.frontier).answer with
  | ok a =>
    rw [s.onFrontierGauged_of_ok h]
    exact blockView_updateHashGauge _
  | error e => rw [s.onFrontierGauged_of_error h]; rfl

theorem blockView_addHash (h : BlockHash) : (s.addHash h).2.blockView = s.blockView := by
  cases hanswer : (s.frontier.pushFront h).answer with
  | ok u =>
    obtain ⟨events, hadd⟩ := s.addHash_of_ok hanswer
    rw [hadd]
    rfl
  | error e => rw [s.addHash_of_error hanswer]; rfl

/-- A single hash goes to the front, or there is no room; no gauge is set. -/
theorem addHash_cases {hs : List BlockHash} (hholds : s.frontier.Holds hs) (h : BlockHash) :
    ((s.addHash h).1.isOk = true ∧ (s.addHash h).2.pipeline.hashGauge = s.pipeline.hashGauge
        ∧ (s.addHash h).2.frontier.Holds (h :: hs))
      ∨ ((s.addHash h).1.isOk = false ∧ (s.addHash h).2.hashView = s.hashView) := by
  rcases hholds.pushFrontBatch [h] with ⟨hanswer, hnext⟩ | ⟨hanswer, hnext⟩
  · obtain ⟨events, hadd⟩ := s.addHash_of_ok hanswer
    rw [hadd]
    exact Or.inl ⟨rfl, rfl, hnext⟩
  · rw [s.addHash_of_error hanswer]
    exact Or.inr ⟨rfl, congrArg (s.pipeline.hashGauge, ·) hnext⟩

/-- **Every call that changes the queue sets the gauge of pending blocks.** -/
theorem update_blocks_call (hm : s.pipeline.metrics.isSome) (c : Call) :
    Update BlockQueue.length (s.SetsBlockGauge c) s.blockView (s.call c).blockView := by
  cases c with
  | addBlocks bs => exact (s.update_addBlocks hm bs).1
  | addBlock b => exact (s.update_addBlock hm b).1
  | addHash h => exact .left not_false (s.blockView_addHash h)
  | addHashes hs =>
    obtain ⟨events, hadd⟩ := s.exists_addHashes_eq hs
    refine .left not_false ?_
    show (s.addHashes hs).2.blockView = _
    rw [hadd]
    exact (s.log events).blockView_onFrontierGauged _
  | returnHashes hs =>
    refine .left not_false ?_
    by_cases hne : hs = []
    · subst hne
      rfl
    · obtain ⟨events, hreturn⟩ := s.exists_returnHashes_eq hne
      show (s.returnHashes hs).2.blockView = _
      rw [hreturn]
      exact (s.log events).blockView_onFrontierGauged _
  | logFrontierSize =>
    exact .left not_false (s.log [.frontierSize s.frontier.length]).blockView_updateHashGauge
  | setHighestDifficulty d => exact .left not_false rfl
  | clear =>
    refine .set trivial (Pipeline.blockGauge_updateBlockGauge _ ?_)
    show (s.pipeline.metrics.map _).isSome
    rw [Option.isSome_map]
    exact hm
  | _ => exact .left not_false (s.blockView_onFrontierGauged _)

/-- **Every call that changes the frontier sets the gauge of pending hashes**, but for
single hashes. -/
theorem update_hashes_call (hm : s.pipeline.metrics.isSome) {c : Call}
    (hc : ∀ h, c ≠ .addHash h) :
    Update Frontier.length (s.SetsHashGauge c) s.hashView (s.call c).hashView := by
  cases c with
  | addBlocks bs => exact .left not_false (s.update_addBlocks hm bs).2
  | addBlock b => exact .left not_false (s.update_addBlock hm b).2
  | setBestHash h =>
    refine s.update_onFrontierGauged _ hm fun e he => ?_
    rw [(Frontier.Holds.reset s.frontier h).1] at he
    cases he
  | addHash h => exact absurd rfl (hc h)
  | addHashes hs =>
    obtain ⟨events, hadd⟩ := s.exists_addHashes_eq hs
    show Update _ ((s.addHashes hs).1.isOk = true) _ (s.addHashes hs).2.hashView
    rw [hadd]
    exact (s.log events).update_onFrontierGauged _ hm
      fun _ => Frontier.next_pushFrontBatch_of_error
  | addNewBlockHash h =>
    exact s.update_onFrontierGauged _ hm fun _ => Frontier.next_pushBack_of_error
  | returnHashes hs =>
    by_cases hne : hs = []
    · exact .left (fun h => h.1 hne) (by subst hne; rfl)
    · obtain ⟨events, hreturn⟩ := s.exists_returnHashes_eq hne
      show Update _ (hs ≠ [] ∧ (s.returnHashes hs).1.isOk = true) _ (s.returnHashes hs).2.hashView
      rw [hreturn]
      have hupdate := (s.log events).update_onFrontierGauged (·.returnBatch hs) hm
        fun _ => Frontier.next_pushFrontBatch_of_error
      cases hupdate with
      | set hok hgauge => exact .set ⟨hne, hok⟩ hgauge
      | left hrefused hsame => exact .left (fun h => hrefused h.2) hsame
  | takeHashes => exact s.update_onFrontierGauged _ hm fun _ => Frontier.next_drainFront_of_error
  | logFrontierSize =>
    exact .set trivial (hashGauge_updateHashGauge (s.log [.frontierSize s.frontier.length]) hm)
  | setHighestDifficulty d => exact .left not_false rfl
  | clear =>
    refine .set trivial ?_
    show (updateBlockGauge _).hashView.1
      = some (((updateBlockGauge _).hashView.2.length : Nat) : Int)
    rw [hashView_updateBlockGauge]
    exact hashGauge_updateHashGauge _ hm

end Views

/-- Metrics are kept, and the first attempt to import a block fails. -/
def metered : Synchronizer (Recorded ScriptedChain) :=
  { waitingForParent with
    pipeline := { waitingForParent.pipeline with
      metrics := some .fresh
      chain := .start ((ScriptedChain.start (heir 0) true false).script (heir 1).hash [.fail]) } }

end Synchronizer
end BlockSync
