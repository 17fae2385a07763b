/-
  BlockSync.Sync.Rehearsal
  ────────────────────────
  **A SYNCHRONIZER WITH A SCRIPTED CHAIN, ON A CLOCK SET BY HAND.**

  Nothing moves by itself: the importer runs until it rests when it is told to,
  when the chain gets permits, and before and after the clock is moved on.

  With a pause that lasts, every block of the queue is taken at most once in a
  run.  Without a pause a block comes back as long as scripts say so, and each
  round through the queue in which nothing else changes would repeat for ever;
  `stepLimit` leaves room for everything but that.
-/
import BlockSync.Chain.Scripted
import BlockSync.Store.Database
import BlockSync.Sync.Synchronizer

namespace BlockSync.Rehearsal

/-! ## §1. Running. -/

/-- The steps after which a run that has not come to rest never will. -/
def stepLimit (p : Pipeline ScriptedChain) : Nat :=
  let rounds := p.chain.answersLeft + p.queue.entryCount + 2
  3 * rounds * (p.queue.entryCount + 2) + 8

/-- Run the importer of a pipeline until it rests. -/
def runPipeline (p : Pipeline ScriptedChain) : Pipeline ScriptedChain :=
  p.run ScriptedChain.chain (stepLimit p)

/-- Run the importer until it rests, and the call to close that waits for it. -/
def run (s : Site ScriptedChain) : Site ScriptedChain :=
  s.run ScriptedChain.chain (stepLimit s.pipeline)

/-- Change the chain from outside. -/
def onChain (s : Site ScriptedChain) (f : ScriptedChain → ScriptedChain) : Site ScriptedChain :=
  { s with pipeline := { s.pipeline with chain := f s.pipeline.chain } }

/-- Give the chain permits, then run. -/
def release (s : Site ScriptedChain) (permits : Nat) : Site ScriptedChain :=
  run (onChain s (·.release permits))

/-- Run, move the clock on in one jump, and run again. -/
def advance (s : Site ScriptedChain) (ms : Nat) : Site ScriptedChain :=
  let s := run s
  run { s with pipeline := s.pipeline.wait ms }

/-! ## §2. One importer by itself. -/

/-- When the stop signal of an importer is set. -/
inductive StopTime where
  /-- Before it runs, or nobody is left who could set it. -/
  | before
  /-- After it has come to rest. -/
  | atRest
deriving Repr, DecidableEq

/-- Run a new importer to its end.  The answer tells whether it had ended when
it came to rest, and whether it has ended now. -/
def runImporter (p : Pipeline ScriptedChain) (backoff : Nat) (stop : StopTime) :
    (Bool × Bool) × Pipeline ScriptedChain :=
  let p := p.renew backoff
  let p := runPipeline (match stop with
    | .before => p.signalStop
    | .atRest => p)
  let early := p.hasEnded
  let p := runPipeline p.signalStop
  ((early, p.hasEnded), p)

/-! ## §3. Dying and starting again. -/

/-- A site at the beginning, its importer not yet at work. -/
def site (frontier : Frontier) (queue : BlockQueue) (chain : ScriptedChain)
    (metrics : Option Metrics) : Site ScriptedChain where
  frontier := frontier
  pipeline :=
    { queue := queue
      chain := chain
      metrics := metrics
      lifecycle := .running
      importer := ⟨.ended, 0, false⟩
      clock := 0
      journal := [] }
  closing := false

/-- The process dies: all tasks stop where they stand, and a block in flight is
lost. -/
def kill (s : Site ScriptedChain) : Site ScriptedChain :=
  { s with pipeline := s.pipeline.goTo .ended, closing := false }

/-- The site with other stores. -/
def withStores (s : Site ScriptedChain) (frontier : Frontier) (queue : BlockQueue) :
    Site ScriptedChain :=
  { s with frontier := frontier, pipeline := { s.pipeline with queue := queue } }

end BlockSync.Rehearsal
