/-
  BlockSync.Store.WaitingRoom
  ───────────────────────────
  **WAITING FOR A BLOCK.**

  Consumers may wait for a block instead of being refused.  A waiter goes through
  small steps, between which anything may happen to the queue:

      starting   → it takes a ticket for the next ring of the bell
      listening  → it looks at the queue; it takes a block, or finds none
      asleep     → if the bell rang since it took its ticket, it starts over
      served     → it has its block, or the error it met

  An append inserts first and rings the bell afterwards.  As the ticket is taken
  before the queue is looked at, a ring between the two is not missed.
-/
import BlockSync.Store.BlockQueue

namespace BlockSync

/-! ## §1. One waiter. -/

/-- How far a waiter got.  A ticket knows whether the bell rang since. -/
inductive WaitPhase where
  | starting
  | listening (rung : Bool)
  | asleep (rung : Bool)
  | served (result : Except StoreError Block)

/-- A consumer that asked for a block. -/
structure Waiter where
  id : Nat
  phase : WaitPhase

namespace Waiter

/-- The result of a waiter that was served. -/
def result? (w : Waiter) : Option (Except StoreError Block) :=
  match w.phase with
  | .served r => some r
  | _ => none

/-- A waiter after the bell rang. -/
def hear (w : Waiter) : Waiter :=
  match w.phase with
  | .listening _ => { w with phase := .listening true }
  | .asleep _ => { w with phase := .asleep true }
  | _ => w

/-- One step of a waiter; a waiter that sleeps or was served stays as it is. -/
def step (w : Waiter) (q : BlockQueue) : Waiter × BlockQueue × List Event :=
  match w.phase with
  | .starting => ({ w with phase := .listening false }, q, [])
  | .listening rung =>
    let reply := q.poll
    match reply.answer with
    | .error .emptyQueue => ({ w with phase := .asleep rung }, reply.next, reply.events)
    | answer => ({ w with phase := .served answer }, reply.next, reply.events)
  | .asleep true => ({ w with phase := .starting }, q, [])
  | .asleep false => (w, q, [])
  | .served _ => (w, q, [])

/-- Some steps of one waiter, nobody else acting in between. -/
def steps : (count : Nat) → Waiter → BlockQueue → Waiter × BlockQueue × List Event
  | 0, w, q => (w, q, [])
  | n + 1, w, q =>
    let (w, q, events) := w.step q
    let (w, q, more) := steps n w q
    (w, q, events ++ more)

/-- A waiter alone comes to rest after four steps at most: from sleep through a
new ticket and a look at the queue to sleep again. -/
def run (w : Waiter) (q : BlockQueue) : Waiter × BlockQueue × List Event :=
  w.steps 4 q

end Waiter

/-! ## §2. The room. -/

/-- A queue and the consumers that wait for its blocks, in the order in which
they came. -/
structure WaitingRoom where
  queue : BlockQueue
  waiters : List Waiter
  nextId : Nat

namespace WaitingRoom

/-- A room without waiters. -/
def ofQueue (q : BlockQueue) : WaitingRoom := ⟨q, [], 0⟩

/-- Everybody who has a ticket hears the bell. -/
def ring (r : WaitingRoom) : WaitingRoom :=
  { r with waiters := r.waiters.map Waiter.hear }

/-- Let the waiters run one after the other, each until it rests. -/
def runAll : List Waiter → BlockQueue → List Waiter × BlockQueue × List Event
  | [], q => ([], q, [])
  | w :: ws, q =>
    let (w, q, events) := w.run q
    let (ws, q, more) := runAll ws q
    (w :: ws, q, events ++ more)

/-- Let all waiters run. -/
def serve (r : WaitingRoom) : WaitingRoom × List Event :=
  let (waiters, queue, events) := runAll r.waiters r.queue
  ({ r with waiters := waiters, queue := queue }, events)

/-- A waiter enters; its number is the room's next. -/
def enter (r : WaitingRoom) : WaitingRoom :=
  { r with waiters := r.waiters ++ [⟨r.nextId, .starting⟩], nextId := r.nextId + 1 }

/-- A waiter leaves, with its block if it already has one. -/
def leave (r : WaitingRoom) (id : Nat) : WaitingRoom :=
  { r with waiters := r.waiters.filter fun w => w.id ≠ id }

/-- The results of the waiters that were served, by their numbers; they leave. -/
def collect (r : WaitingRoom) : List (Nat × Except StoreError Block) × WaitingRoom :=
  (r.waiters.filterMap fun w => w.result?.map (w.id, ·),
    { r with waiters := r.waiters.filter fun w => w.result?.isNone })

/-! ## §3. Appends and other operations on the queue. -/

/-- An operation on the queue that nobody is told about. -/
def quietly {α : Type} (r : WaitingRoom) (op : BlockQueue → Reply BlockQueue α) :
    Reply WaitingRoom α :=
  (op r.queue).mapNext fun q => { r with queue := q }

/-- Append one block, then ring the bell. -/
def enqueue (r : WaitingRoom) (b : Block) : Reply WaitingRoom Unit :=
  let reply := r.quietly (·.enqueue b)
  match reply.answer with
  | .ok _ => { reply with next := reply.next.ring }
  | .error _ => reply

/-- Append what fits, then ring the bell if anything was kept. -/
def enqueueBatch (r : WaitingRoom) (bs : List Block) : Reply WaitingRoom Nat :=
  let reply := r.quietly (·.enqueueBatch bs)
  match reply.answer with
  | .ok kept => if kept > 0 then { reply with next := reply.next.ring } else reply
  | .error _ => reply

end WaitingRoom
end BlockSync
