/-
  BlockSync.Journal
  ─────────────────
  **EVENTS WORTH A LOG LINE.**

  Every event is a value; its level, its message and its fields as text are
  functions of it.  What was logged can thus be stated and counted without
  looking at any text.
-/
import BlockSync.Chain.Outcome
import BlockSync.Lifecycle
import BlockSync.Store.Error

namespace BlockSync

/-! ## §1. Events. -/

/-- How much an event matters. -/
inductive Level where
  | trace
  | debug
  | info
  | warn
  | error
deriving Repr, DecidableEq

/-- The name of a level. -/
def Level.name : Level → String
  | .trace => "TRACE"
  | .debug => "DEBUG"
  | .info => "INFO"
  | .warn => "WARN"
  | .error => "ERROR"

/-- Something that happened. -/
inductive Event where
  | openedFrontier (hashes : Nat)
  | openedQueue (blocks capacity : Nat)
  | droppedExcess (kept dropped capacity : Nat)
  | indexLost (cause : StoreError)
  | importerStarted (backoff : Nat)
  | importerStopped
  | takeFailed (cause : StoreError)
  | importing (queued : Nat) (number : UInt64) (hash : BlockHash)
  | imported (number : UInt64)
  | notImported (number : UInt64) (outcome : Outcome)
  | parentUnknown (number : UInt64)
  | requeueFailed (number : UInt64) (cause : StoreError)
  | importFailed (number : UInt64) (message : String)
  | importCrashed (number : UInt64) (payload : CrashPayload)
  | transitionRefused (current target : Lifecycle)
  | resumed (queued frontier : Nat) (last : UInt64)
  | blocksWaiting (queued : Nat) (last : UInt64)
  | blockWaiting (queued : Nat) (last : UInt64)
  | announced (hash : BlockHash) (frontier : Nat)
  | skippedQueued (skipped : Nat)
  | uncovered (count : Nat)
  | returned (hash : BlockHash)
  | frontierSize (frontier : Nat)
  | closed
deriving DecidableEq

namespace Event

/-! ## §2. Their text. -/

/-- The level of an event. -/
def level : Event → Level
  | .openedFrontier .. => .debug
  | .openedQueue .. => .debug
  | .droppedExcess .. => .warn
  | .indexLost .. => .warn
  | .importerStarted .. => .info
  | .importerStopped => .info
  | .takeFailed .. => .error
  | .importing .. => .debug
  | .imported .. => .info
  | .notImported .. => .debug
  | .parentUnknown .. => .info
  | .requeueFailed .. => .error
  | .importFailed .. => .error
  | .importCrashed .. => .error
  | .transitionRefused .. => .warn
  | .resumed .. => .info
  | .blocksWaiting .. => .info
  | .blockWaiting .. => .debug
  | .announced .. => .trace
  | .skippedQueued .. => .debug
  | .uncovered .. => .info
  | .returned .. => .debug
  | .frontierSize .. => .info
  | .closed => .info

/-- The message of an event. -/
def message : Event → String
  | .openedFrontier .. => "Opened hash store"
  | .openedQueue .. => "Opened block queue"
  | .droppedExcess .. => "Block queue full, dropping excess blocks"
  | .indexLost .. => "Failed to rebuild block index, starting empty"
  | .importerStarted .. => "Import worker started"
  | .importerStopped => "Import worker stopped"
  | .takeFailed .. => "Failed to take block from queue"
  | .importing .. => "Importing block"
  | .imported .. => "Success importing block"
  | .notImported .. => "Block not imported, dropping it"
  | .parentUnknown .. => "No parent on the chain for block"
  | .requeueFailed .. => "Failed to requeue block without parent"
  | .importFailed .. => "Block import failed"
  | .importCrashed .. => "Block import panicked"
  | .transitionRefused .. => "Invalid worker state transition attempted"
  | .resumed .. => "Resuming from persisted sync queue"
  | .blocksWaiting .. => "Blocks waiting to be processed"
  | .blockWaiting .. => "Blocks waiting to be processed"
  | .announced .. => "Adding hash to hash queue"
  | .skippedQueued .. => "Skipping hashes of already queued blocks"
  | .uncovered .. => "Hashes remained uncovered"
  | .returned .. => "Return hash"
  | .frontierSize .. => "Block hashes list size"
  | .closed => "Sync queue closed"

/-- The fields of an event, by name. -/
def fields : Event → List (String × String)
  | .openedFrontier hashes => [("hashes", toString hashes)]
  | .openedQueue blocks capacity =>
    [("blocks", toString blocks), ("capacity", toString capacity)]
  | .droppedExcess kept dropped capacity =>
    [("kept", toString kept), ("dropped", toString dropped), ("capacity", toString capacity)]
  | .indexLost cause => [("error", cause.message)]
  | .importerStarted backoff => [("backoff_ms", toString backoff)]
  | .importerStopped => []
  | .takeFailed cause => [("error", cause.message)]
  | .importing queued number hash =>
    [("queue_size", toString queued), ("number", toString number), ("hash", hash.short)]
  | .imported number => [("number", toString number)]
  | .notImported number outcome =>
    [("number", toString number), ("outcome", outcome.name)]
  | .parentUnknown number => [("number", toString number)]
  | .requeueFailed number cause =>
    [("number", toString number), ("error", cause.message)]
  | .importFailed number message => [("number", toString number), ("error", message)]
  | .importCrashed number payload =>
    [("number", toString number), ("reason", payload.reason)]
  | .transitionRefused current target =>
    [("from", current.name), ("to", target.name)]
  | .resumed queued frontier last =>
    [("queue_size", toString queued), ("hash_queue_size", toString frontier),
      ("last_number", toString last)]
  | .blocksWaiting queued last =>
    [("queue_size", toString queued), ("last_number", toString last)]
  | .blockWaiting queued last =>
    [("queue_size", toString queued), ("last_number", toString last)]
  | .announced hash frontier =>
    [("hash", hash.short), ("hash_queue_size", toString frontier)]
  | .skippedQueued skipped => [("skipped", toString skipped)]
  | .uncovered count => [("count", toString count)]
  | .returned hash => [("hash", hash.text)]
  | .frontierSize frontier => [("hash_queue_size", toString frontier)]
  | .closed => []

end Event
end BlockSync
