/-
  BlockSync.Sync.Pipeline
  ───────────────────────
  **FROM THE QUEUE INTO THE CHAIN.**

  One importer takes blocks from the queue and hands them to the chain, one at a
  time, for the chain must see parents before children.

      an outcome that is final      the block is done with
      noParent                      the block goes back to the end of the queue,
                                    and the importer pauses
      a failure or a crash          the block is dropped, and the importer goes on

  The importer is a machine of small steps (`Pipeline.step`).  It rests where
  only others can help: on an empty queue, at a chain that is not ready, in its
  pause, and at its end.  Producers append between any two steps.  A signal to
  stop wins over taking a block and over the pause, but an import that has begun
  goes on to its end first.
-/
import BlockSync.Chain.Basic
import BlockSync.Metrics.Registry
import BlockSync.Store.BlockQueue

namespace BlockSync

/-! ## §1. The importer. -/

/-- Where an importer stands. -/
inductive Phase where
  /-- It has not run yet. -/
  | unstarted
  /-- It will look at the queue next. -/
  | ready
  /-- It found the queue empty and waits for an append. -/
  | asleep
  /-- It handed a block to the chain at some time and waits for the end. -/
  | importing (block : Block) (since : Nat)
  /-- It pauses until some time. -/
  | pausing (wakeAt : Nat)
  /-- It has left its loop. -/
  | ended
deriving DecidableEq

/-- An importer: where it stands, how long it pauses, and whether it was told
to stop. -/
structure Importer where
  phase : Phase
  backoff : Nat
  stopSignalled : Bool

/-- An importer that has not run yet. -/
def Importer.fresh (backoff : Nat) : Importer := ⟨.unstarted, backoff, false⟩

/-- The block an importer has taken and not finished with. -/
def Importer.inFlight (i : Importer) : List Block :=
  match i.phase with
  | .importing b _ => [b]
  | _ => []

/-- Everything the importer works with. -/
structure Pipeline (σ : Type) where
  queue : BlockQueue
  chain : σ
  metrics : Option Metrics
  lifecycle : Lifecycle
  importer : Importer
  /-- The time in milliseconds. -/
  clock : Nat
  /-- The events so far, the last one first. -/
  journal : List Event

namespace Pipeline

variable {σ : Type}

/-! ## §2. Small changes. -/

/-- Log events, the oldest first. -/
def log (p : Pipeline σ) (events : List Event) : Pipeline σ :=
  { p with journal := events.reverse ++ p.journal }

/-- The events so far, the oldest first. -/
def events (p : Pipeline σ) : List Event := p.journal.reverse

/-- Change the metrics, if any are kept. -/
def measure (p : Pipeline σ) (f : Metrics → Metrics) : Pipeline σ :=
  { p with metrics := p.metrics.map f }

/-- Set the gauge of pending blocks to the size of the queue. -/
def updateBlockGauge (p : Pipeline σ) : Pipeline σ :=
  p.measure fun m => m.setBlocksPending p.queue.length

/-- Bring the importer into a phase. -/
def goTo (p : Pipeline σ) (phase : Phase) : Pipeline σ :=
  { p with importer := { p.importer with phase := phase } }

/-- Signal the importer to stop. -/
def signalStop (p : Pipeline σ) : Pipeline σ :=
  { p with importer := { p.importer with stopSignalled := true } }

/-- Move the state of life on, if that is allowed.  Moving it to where it is
changes nothing; what is not allowed is logged and changes nothing either. -/
def moveTo (p : Pipeline σ) (target : Lifecycle) : Pipeline σ :=
  if p.lifecycle = target then p
  else if p.lifecycle.allows target then { p with lifecycle := target }
  else p.log [.transitionRefused p.lifecycle target]

/-- Whether the importer has left its loop. -/
def hasEnded (p : Pipeline σ) : Bool :=
  match p.importer.phase with
  | .ended => true
  | _ => false

/-! ## §3. The queue. -/

/-- An append wakes the importer if it sleeps. -/
def ring (p : Pipeline σ) : Pipeline σ :=
  match p.importer.phase with
  | .asleep => p.goTo .ready
  | _ => p

/-- Run an operation on the queue and log its events. -/
def onQueue {α : Type} (p : Pipeline σ) (op : BlockQueue → Reply BlockQueue α) :
    Except StoreError α × Pipeline σ :=
  let reply := op p.queue
  (reply.answer, { p with queue := reply.next }.log reply.events)

/-- Append one block. -/
def enqueue (p : Pipeline σ) (b : Block) : Except StoreError Unit × Pipeline σ :=
  match p.onQueue (·.enqueue b) with
  | (.ok (), p) => (.ok (), p.ring)
  | refused => refused

/-- Append the beginning of a list that fits. -/
def enqueueBatch (p : Pipeline σ) (bs : List Block) : Except StoreError Nat × Pipeline σ :=
  match p.onQueue (·.enqueueBatch bs) with
  | (.ok kept, p) => (.ok kept, if kept > 0 then p.ring else p)
  | refused => refused

/-! ## §4. One import. -/

/-- Hand a block to the chain. -/
def beginImport (C : Chain σ) (p : Pipeline σ) (b : Block) : Pipeline σ :=
  let p := p.log [.importing p.queue.length b.number b.hash]
  { p with chain := C.receive p.chain b }

/-- Put a block without parent back to the end of the queue. -/
def requeue (p : Pipeline σ) (b : Block) : Pipeline σ :=
  match p.enqueue b with
  | (.ok (), p) => p
  | (.error e, p) => p.log [.requeueFailed b.number e]

/-- Act on the outcome of an import. -/
def settleOutcome (p : Pipeline σ) (b : Block) (o : Outcome) : Pipeline σ :=
  let p := p.measure fun m => m.countOutcome o.name
  let p := match o with
    | .success => p.log [.imported b.number]
    | .noParent => (p.log [.parentUnknown b.number]).requeue b
    | o => p.log [.notImported b.number o]
  p.updateBlockGauge

/-- Act on the verdict on a block that was handed over `elapsed` milliseconds
ago. -/
def settle (p : Pipeline σ) (b : Block) (elapsed : Nat) (v : Verdict) : Pipeline σ :=
  let p := p.measure fun m => m.observe (Float.ofNat elapsed / 1000)
  match v with
  | .outcome o => p.settleOutcome b o
  | .failed message => (p.log [.importFailed b.number message]).measure Metrics.countFailure
  | .crashed payload => (p.log [.importCrashed b.number payload]).measure Metrics.countFailure

/-- Import a block at once; `none` if the chain is not ready.  The answer is the
outcome, or nothing if the import failed or crashed. -/
def process? (C : Chain σ) (p : Pipeline σ) (b : Block) :
    Option (Option Outcome × Pipeline σ) :=
  let p := p.beginImport C b
  (C.conclude p.chain b).map fun (v, chain) =>
    (v.outcome?, { p with chain := chain }.settle b 0 v)

/-! ## §5. The loop. -/

/-- The importer leaves its loop. -/
def stop (p : Pipeline σ) : Pipeline σ :=
  ((p.moveTo .stopped).log [.importerStopped]).goTo .ended

/-- The importer pauses from now on. -/
def pause (p : Pipeline σ) : Pipeline σ :=
  p.goTo (.pausing (p.clock + p.importer.backoff))

/-- Look at the queue: take its front block and hand it to the chain, or fall
asleep on an empty queue, or pause after any other error. -/
def take (C : Chain σ) (p : Pipeline σ) : Pipeline σ :=
  match p.onQueue BlockQueue.poll with
  | (.ok b, p) => (p.beginImport C b).goTo (.importing b p.clock)
  | (.error .emptyQueue, p) => p.goTo .asleep
  | (.error e, p) => (p.log [.takeFailed e]).pause

/-- **One step of the importer**; `none` where it rests.  Where it waits for the signal and
for something else, it looks for both in one go, for the signal first, and that look is one
step together with what it does then: a signal that comes later is seen by the next look. -/
def step (C : Chain σ) (p : Pipeline σ) : Option (Pipeline σ) :=
  match p.importer.phase with
  | .unstarted => some ((p.log [.importerStarted p.importer.backoff]).goTo .ready)
  | .ready => some (if p.importer.stopSignalled then p.stop else p.take C)
  | .asleep => if p.importer.stopSignalled then some p.stop else none
  | .importing b since =>
    (C.conclude p.chain b).map fun (v, chain) =>
      let p := { p with chain := chain }.settle b (p.clock - since) v
      match v with
      | .outcome .noParent => p.pause
      | _ => p.goTo .ready
  | .pausing wakeAt =>
    if p.importer.stopSignalled then some p.stop
    else if wakeAt ≤ p.clock then some (p.goTo .ready)
    else none
  | .ended => none

/-- Run the importer until it rests, for at most `limit` steps. -/
def run (C : Chain σ) : (limit : Nat) → Pipeline σ → Pipeline σ
  | 0, p => p
  | limit + 1, p =>
    match p.step C with
    | some p => run C limit p
    | none => p

/-- Time passes. -/
def wait (p : Pipeline σ) (ms : Nat) : Pipeline σ := { p with clock := p.clock + ms }

/-- The pipeline with a new importer in place of the old one. -/
def renew (p : Pipeline σ) (backoff : Nat) : Pipeline σ :=
  { p with importer := .fresh backoff }

/-- The pipeline of a new process: a new importer, alive, at the beginning of
time. -/
def restart (p : Pipeline σ) (backoff : Nat) : Pipeline σ :=
  { p.renew backoff with lifecycle := .running, clock := 0 }

end Pipeline
end BlockSync
