/-
  BlockSync.Proofs.Sync.Recording
  ───────────────────────────────
  **A CHAIN WITH A RECORD.**

  What a pipeline does to its chain is seen from the chain: which blocks it was
  handed, and how it concluded on each.  `Chain.recorded` keeps both lists beside
  the states of any chain.  The record is never read, so a pipeline takes the same
  steps with it and without it (`Pipeline.forget_step`).
-/
import BlockSync.Proofs.Sync.Pipeline

namespace BlockSync

/-! ## §1. The record. -/

/-- A state of a chain with the record of what went before. -/
structure Recorded (σ : Type) where
  state : σ
  /-- The blocks handed over, in order. -/
  received : List Block
  /-- The attempts that ended, in order, each with its verdict. -/
  concluded : List (Block × Verdict)

/-- A state with nothing in its record. -/
def Recorded.start {σ : Type} (c : σ) : Recorded σ := ⟨c, [], []⟩

/-- A chain that keeps a record. -/
def Chain.recorded {σ : Type} (C : Chain σ) : Chain (Recorded σ) where
  best r := C.best r.state
  receive r b := { r with state := C.receive r.state b, received := r.received ++ [b] }
  conclude r b := (C.conclude r.state b).map fun (v, c) =>
    (v, { r with state := c, concluded := r.concluded ++ [(b, v)] })

/-- The end of an attempt goes behind the others on the record. -/
theorem Chain.recorded_conclude {σ : Type} {C : Chain σ} {r next : Recorded σ} {b : Block}
    {v : Verdict} (h : C.recorded.conclude r b = some (v, next)) :
    next.received = r.received ∧ next.concluded = r.concluded ++ [(b, v)] := by
  obtain ⟨⟨w, c⟩, -, heq⟩ := Option.map_eq_some_iff.mp h
  cases heq
  exact ⟨rfl, rfl⟩

/-- An end on the record is an end without it. -/
theorem Chain.conclude_of_recorded {σ : Type} {C : Chain σ} {r next : Recorded σ} {b : Block}
    {v : Verdict} (h : C.recorded.conclude r b = some (v, next)) :
    C.conclude r.state b = some (v, next.state) := by
  obtain ⟨⟨w, c⟩, hstate, heq⟩ := Option.map_eq_some_iff.mp h
  cases heq
  exact hstate

namespace Pipeline

variable {σ : Type} (C : Chain σ) (p : Pipeline (Recorded σ))

/-- A pipeline without the record of its chain. -/
def forget (p : Pipeline (Recorded σ)) : Pipeline σ := { p with chain := p.chain.state }

/-! ## §2. Nothing looks at the record. -/

theorem forget_moveTo (target : Lifecycle) :
    (p.moveTo target).forget = p.forget.moveTo target := by
  show (if p.lifecycle = target then p
      else if p.lifecycle.allows target then { p with lifecycle := target }
      else p.log [.transitionRefused p.lifecycle target]).forget
    = if p.lifecycle = target then p.forget
      else if p.lifecycle.allows target then { p.forget with lifecycle := target }
      else p.forget.log [.transitionRefused p.lifecycle target]
  split
  · rfl
  · split
    · rfl
    · rfl

theorem forget_stop : p.stop.forget = p.forget.stop :=
  congrArg (fun q : Pipeline σ => (q.log [.importerStopped]).goTo .ended)
    (p.forget_moveTo .stopped)

theorem forget_ring : p.ring.forget = p.forget.ring := by
  have himporter : p.forget.importer = p.importer := rfl
  unfold ring
  rw [himporter]
  split
  · rfl
  · rfl

theorem forget_requeue (b : Block) : (p.requeue b).forget = p.forget.requeue b := by
  unfold requeue
  cases h : (p.queue.enqueue b).answer with
  | ok u =>
    rw [p.enqueue_of_ok h, p.forget.enqueue_of_ok h]
    exact forget_ring _
  | error e =>
    rw [p.enqueue_of_error h, p.forget.enqueue_of_error h]
    rfl

theorem forget_settle (b : Block) (elapsed : Nat) (v : Verdict) :
    (p.settle b elapsed v).forget = p.forget.settle b elapsed v := by
  cases v with
  | outcome o =>
    cases o with
    | noParent => exact congrArg updateBlockGauge (forget_requeue _ b)
    | _ => rfl
  | failed message => rfl
  | crashed payload => rfl

theorem forget_finish (b : Block) (since : Nat) (v : Verdict) :
    (p.finish b since v).forget = p.forget.finish b since v := by
  have hsettle := p.forget_settle b (p.clock - since) v
  cases v with
  | outcome o =>
    cases o with
    | noParent => exact congrArg pause hsettle
    | _ => exact congrArg (·.goTo .ready) hsettle
  | failed message => exact congrArg (·.goTo .ready) hsettle
  | crashed payload => exact congrArg (·.goTo .ready) hsettle

theorem forget_take : (p.take C.recorded).forget = p.forget.take C := by
  cases h : p.queue.poll.answer with
  | ok b =>
    rw [p.take_of_ok C.recorded h, p.forget.take_of_ok C h]
    rfl
  | error e =>
    by_cases he : e = .emptyQueue
    · subst he
      rw [p.take_of_empty C.recorded h, p.forget.take_of_empty C h]
      rfl
    · rw [p.take_of_error C.recorded he h, p.forget.take_of_error C he h]
      rfl

/-- **A pipeline takes the same steps with a record and without it.** -/
theorem forget_step : (p.step C.recorded).map forget = p.forget.step C := by
  have himporter : p.forget.importer = p.importer := rfl
  have hclock : p.forget.clock = p.clock := rfl
  unfold step
  rw [himporter, hclock]
  cases p.importer.phase with
  | unstarted => rfl
  | ready =>
    refine congrArg some ?_
    split
    · exact p.forget_stop
    · exact forget_take C p
  | asleep =>
    dsimp only
    split
    · exact congrArg some p.forget_stop
    · rfl
  | importing b since =>
    show ((C.recorded.conclude p.chain b).map _).map forget = (C.conclude p.chain.state b).map _
    unfold Chain.recorded
    dsimp only
    cases C.conclude p.chain.state b with
    | none => rfl
    | some r => exact congrArg some (forget_finish _ b since r.1)
  | pausing wakeAt =>
    dsimp only
    split
    · exact congrArg some p.forget_stop
    · split
      · rfl
      · rfl
  | ended => rfl

end Pipeline
end BlockSync
