/-
  BlockSync.Sync.Synchronizer
  ───────────────────────────
  **WHAT THE NETWORK CALLS INTO.**

  A synchronizer owns the frontier, the block queue and the importer:

      1. peers announce hashes, which go to the front of the frontier
      2. hashes of blocks that are already queued are left out
      3. the fetcher takes batches of hashes and downloads the blocks
      4. the blocks go into the queue, and the importer into the chain
      5. hashes that nobody delivered go back to the front

  It also remembers the block announced last and the highest total difficulty.
  Closing signals the importer to stop and waits for its end; an import that has
  begun runs to its end first.  A call to close goes step by step (`closeStep`), so
  that several of them may be under way at once.
-/
import BlockSync.Store.Frontier
import BlockSync.Sync.Error
import BlockSync.Sync.Pipeline

namespace BlockSync

/-! ## §1. What a synchronizer is made of. -/

/-- The parts that outlive the facade: the stores, the importer, and whether a
call to close still waits for the importer's end. -/
structure Site (σ : Type) where
  frontier : Frontier
  pipeline : Pipeline σ
  closing : Bool

/-- The facade of the producers and of the fetcher. -/
structure Synchronizer (σ : Type) extends Site σ where
  settings : Settings
  lastBlock : Option Block
  highestDifficulty : Difficulty
  /-- Whether nobody has waited for the importer's end yet. -/
  joinable : Bool

/-- The sizes and the state of a synchronizer. -/
structure Stats where
  frontier : Nat
  queued : Nat
  capacity : Nat
  lifecycle : Lifecycle
  highestDifficulty : Difficulty

namespace Site

variable {σ : Type}

/-- Log events. -/
def log (s : Site σ) (events : List Event) : Site σ :=
  { s with pipeline := s.pipeline.log events }

/-- A call to close comes to its end: the stores are flushed. -/
def finishClose (s : Site σ) : Site σ :=
  { s with pipeline := (s.pipeline.moveTo .stopped).log [.closed] }

/-- A call to close that waited for the importer goes on once it has ended. -/
def resumeClose (s : Site σ) : Site σ :=
  if s.closing && s.pipeline.hasEnded then { s with closing := false }.finishClose else s

/-- Run the importer until it rests, for at most `limit` steps, and then the
call to close that waits for it. -/
def run (C : Chain σ) (limit : Nat) (s : Site σ) : Site σ :=
  { s with pipeline := s.pipeline.run C limit }.resumeClose

end Site

namespace Synchronizer

variable {σ : Type}

/-! ## §2. Building. -/

/-- What is worth a log line when there are blocks from an earlier run. -/
def resumeEvents (site : Site σ) : Option Block → List Event
  | some b => [.resumed site.pipeline.queue.length site.frontier.length b.number]
  | none => []

/-- Build a synchronizer over opened stores and start its importer.  Blocks that
are already queued were announced in an earlier run. -/
def start (settings : Settings) (canRun : Bool) (site : Site σ) :
    Except SyncError (Synchronizer σ) := do
  settings.check.mapError .settings
  if !canRun then .error (.noExecutor SyncError.noReactor)
  let last ← site.pipeline.queue.peekBack.mapError .ofStore
  let site := site.log (resumeEvents site last)
  .ok { site with
    pipeline := site.pipeline.restart settings.noParentBackoff
    closing := false
    settings := settings
    lastBlock := last
    highestDifficulty := .zero
    joinable := true }

/-! ## §3. Small changes. -/

/-- Log events. -/
def log (s : Synchronizer σ) (events : List Event) : Synchronizer σ :=
  { s with pipeline := s.pipeline.log events }

/-- Set the gauge of pending hashes to the size of the frontier. -/
def updateHashGauge (s : Synchronizer σ) : Synchronizer σ :=
  { s with pipeline := s.pipeline.measure fun m => m.setHashesPending s.frontier.length }

/-- Set the gauge of pending blocks to the size of the queue. -/
def updateBlockGauge (s : Synchronizer σ) : Synchronizer σ :=
  { s with pipeline := s.pipeline.updateBlockGauge }

/-- Run an operation on the frontier and log its events. -/
def onFrontier {α : Type} (s : Synchronizer σ) (op : Frontier → Reply Frontier α) :
    Except SyncError α × Synchronizer σ :=
  let reply := op s.frontier
  (reply.answer.mapError .ofStore, { s with frontier := reply.next }.log reply.events)

/-- Run an operation on the frontier; if it succeeds, set the gauge. -/
def onFrontierGauged {α : Type} (s : Synchronizer σ) (op : Frontier → Reply Frontier α) :
    Except SyncError α × Synchronizer σ :=
  match s.onFrontier op with
  | (.ok a, s) => (.ok a, s.updateHashGauge)
  | refused => refused

/-! ## §4. Blocks. -/

/-- Queue a list of blocks from a peer.  Blocks beyond the capacity are dropped;
the last block of the list becomes the one announced last either way. -/
def addBlocks (s : Synchronizer σ) (bs : List Block) :
    Except SyncError Unit × Synchronizer σ :=
  match bs.getLast? with
  | none => (.error (.invalidArgument "block list must not be empty"), s)
  | some last =>
    match s.pipeline.enqueueBatch bs with
    | (.error e, p) => (.error (.ofStore e), { s with pipeline := p })
    | (.ok _, p) =>
      let s := { s with pipeline := p, lastBlock := some last }
      (.ok (), (s.log [.blocksWaiting p.queue.length last.number]).updateBlockGauge)

/-- Queue a single block. -/
def addBlock (s : Synchronizer σ) (b : Block) : Except SyncError Unit × Synchronizer σ :=
  match s.pipeline.enqueue b with
  | (.error e, p) => (.error (.ofStore e), { s with pipeline := p })
  | (.ok (), p) =>
    let s := { s with pipeline := p, lastBlock := some b }
    (.ok (), (s.log [.blockWaiting p.queue.length b.number]).updateBlockGauge)

/-- The block announced last, or the head of the chain once the queue is empty. -/
def announcedLast (C : Chain σ) (s : Synchronizer σ) : Block :=
  if s.pipeline.queue.isEmpty then C.best s.pipeline.chain
  else s.lastBlock.getD (C.best s.pipeline.chain)

/-- The count of blocks waiting for import. -/
def size (s : Synchronizer σ) : Nat := s.pipeline.queue.length

/-! ## §5. Hashes. -/

/-- Drop all pending hashes and make one the only target. -/
def setBestHash (s : Synchronizer σ) (h : BlockHash) : Except SyncError Unit × Synchronizer σ :=
  s.onFrontierGauged (·.reset h)

/-- The hash at the front of the frontier. -/
def bestHash (s : Synchronizer σ) : Except SyncError BlockHash :=
  s.frontier.peek.mapError .ofStore

/-- Push a single hash to the front. -/
def addHash (s : Synchronizer σ) (h : BlockHash) : Except SyncError Unit × Synchronizer σ :=
  match s.onFrontier (·.pushFront h) with
  | (.ok (), s) => (.ok (), s.log [.announced h s.frontier.length])
  | refused => refused

/-- Push announced hashes to the front, leaving out those of queued blocks. -/
def addHashes (s : Synchronizer σ) (hs : List BlockHash) : Except SyncError Unit × Synchronizer σ :=
  let s := s.log (hs.map fun h => .announced h s.frontier.length)
  let missing := s.pipeline.queue.filterExisting hs
  let s := if missing.length < hs.length
    then s.log [.skippedQueued (hs.length - missing.length)] else s
  s.onFrontierGauged (·.pushFrontBatch missing)

/-- Append a hash, to be fetched after everything else. -/
def addNewBlockHash (s : Synchronizer σ) (h : BlockHash) :
    Except SyncError Unit × Synchronizer σ :=
  s.onFrontierGauged (·.pushBack h)

/-- Put back hashes that no peer delivered, in the order they were handed out. -/
def returnHashes (s : Synchronizer σ) (hs : List BlockHash) :
    Except SyncError Unit × Synchronizer σ :=
  if hs.isEmpty then (.ok (), s)
  else (s.log (.uncovered hs.length :: hs.map .returned)).onFrontierGauged (·.returnBatch hs)

/-- The next hashes to fetch, as many as may be asked for at once. -/
def takeHashes (s : Synchronizer σ) : Except SyncError (List BlockHash) × Synchronizer σ :=
  s.onFrontierGauged (·.drainFront s.settings.maxBlocksAsk)

/-- Log the size of the frontier. -/
def logFrontierSize (s : Synchronizer σ) : Synchronizer σ :=
  (s.log [.frontierSize s.frontier.length]).updateHashGauge

/-! ## §6. Everything else. -/

/-- Remember a total difficulty as the highest. -/
def setHighestDifficulty (s : Synchronizer σ) (d : Difficulty) : Synchronizer σ :=
  { s with highestDifficulty := d }

/-- Empty both stores. -/
def clear (s : Synchronizer σ) : Synchronizer σ :=
  let s := { s with
    frontier := s.frontier.clear
    pipeline := { s.pipeline with queue := s.pipeline.queue.clear } }
  s.updateHashGauge.updateBlockGauge

/-- The state of the importer's life. -/
def lifecycle (s : Synchronizer σ) : Lifecycle := s.pipeline.lifecycle

/-- The sizes and the state. -/
def stats (s : Synchronizer σ) : Stats :=
  ⟨s.frontier.length, s.pipeline.queue.length, s.pipeline.queue.capacity, s.lifecycle,
    s.highestDifficulty⟩

/-- Let something happen to the parts behind the facade. -/
def onSite (s : Synchronizer σ) (f : Site σ → Site σ) : Synchronizer σ :=
  { s with toSite := f s.toSite }

/-- Give up the facade; the importer is signalled to stop. -/
def drop (s : Synchronizer σ) : Site σ :=
  { s.toSite with pipeline := s.pipeline.signalStop }

/-! ## §7. Closing. -/

/-- Move the state of life on to stopping, if it was seen running. -/
def leaveRunning (s : Synchronizer σ) (seen : Bool) : Synchronizer σ :=
  if seen then { s with pipeline := s.pipeline.moveTo .stopping } else s

/-- Signal the importer to stop. -/
def signalStop (s : Synchronizer σ) : Synchronizer σ :=
  { s with pipeline := s.pipeline.signalStop }

/-- Take the importer's handle, to wait for its end. -/
def takeHandle (s : Synchronizer σ) : Synchronizer σ :=
  { s with joinable := false, closing := true }

/-- Where a call to close stands. -/
inductive Closer where
  /-- It has looked whether the importer is running. -/
  | looked (running : Bool)
  /-- It has moved the state of life, if it saw it running. -/
  | moved
  /-- It has signalled the importer to stop. -/
  | signalled
  /-- It has taken the handle and waits for the importer's end. -/
  | waiting
  /-- There is nothing for it to wait for. -/
  | free
  /-- It has come to its end, or it was given up. -/
  | gone
deriving Repr, DecidableEq

/-- **One step of a call to close**; `none` at its end, and where it waits for an importer
that is in its loop.  The state, the signal and the handle are behind a lock each, so others
may have turns between any two steps: between the look and the move as well. -/
def closeStep (s : Synchronizer σ) : Closer → Option (Synchronizer σ × Closer)
  | .looked running => some (s.leaveRunning running, .moved)
  | .moved => some (s.signalStop, .signalled)
  | .signalled => some (if s.joinable then (s.takeHandle, .waiting) else (s, .free))
  | .waiting => if s.pipeline.hasEnded then some ({ s with closing := false }, .free) else none
  | .free => some (s.onSite Site.finishClose, .gone)
  | .gone => none

/-- **Close, with nobody else having a turn** until the call waits or comes to its end.  The
first call waits for the importer's end; a later one does not, and comes to its end at
once. -/
def close (s : Synchronizer σ) : Synchronizer σ :=
  let s := (s.leaveRunning s.lifecycle.isRunning).signalStop
  if s.joinable then s.takeHandle else s.onSite Site.finishClose

end Synchronizer
end BlockSync
