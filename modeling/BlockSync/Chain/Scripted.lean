/-
  BlockSync.Chain.Scripted
  ────────────────────────
  **A CHAIN THAT FOLLOWS A SCRIPT.**

  For each hash a list of answers may be given; an attempt takes the next one.
  Without a script every block succeeds, or, if the chain is linked, a block
  succeeds exactly if its parent is known and it is not known itself.  A gated
  chain needs a permit to end an attempt.
-/
import BlockSync.Chain.Basic

namespace BlockSync

/-! ## §1. Scripts. -/

/-- One scripted answer. -/
inductive Answer where
  | outcome (o : Outcome)
  | fail
  /-- A crash with a fixed text. -/
  | crash
  /-- A crash with a text about the block. -/
  | crashAbout
  /-- A crash with a payload that is no text. -/
  | crashOther
deriving Repr, DecidableEq

namespace Answer

/-- The answer with a name. -/
def ofName? : String → Option Answer
  | "fail" => some .fail
  | "panic" => some .crash
  | "panic_string" => some .crashAbout
  | "panic_other" => some .crashOther
  | s => (Outcome.ofName? s).map .outcome

/-- The verdict of an answer on a block. -/
def verdict (b : Block) : Answer → Verdict
  | .outcome o => .outcome o
  | .fail => .failed ("state root mismatch in block " ++ toString b.number)
  | .crash => .crashed (.text "importer blew up")
  | .crashAbout => .crashed (.text ("importer blew up on block " ++ toString b.number))
  | .crashOther => .crashed .other

end Answer

/-! ## §2. The chain. -/

/-- The state of a scripted chain, with its history. -/
structure ScriptedChain where
  genesis : Block
  linked : Bool
  gated : Bool
  scripts : List (BlockHash × List Answer)
  permits : Nat
  known : List BlockHash
  /-- The numbers of the blocks handed over, in order. -/
  attempts : List UInt64
  /-- The blocks connected, in order. -/
  imported : List Block

namespace ScriptedChain

/-- A chain that knows its first block only. -/
def start (genesis : Block) (linked gated : Bool) : ScriptedChain :=
  ⟨genesis, linked, gated, [], 0, [genesis.hash], [], []⟩

/-- The chain with another script for a hash. -/
def script (c : ScriptedChain) (h : BlockHash) (answers : List Answer) : ScriptedChain :=
  { c with scripts := (h, answers) :: c.scripts.filter fun s => s.1 ≠ h }

/-- The chain with more permits. -/
def release (c : ScriptedChain) (n : Nat) : ScriptedChain :=
  { c with permits := c.permits + n }

/-- The last block connected, or the first block. -/
def best (c : ScriptedChain) : Block := c.imported.getLast?.getD c.genesis

/-- An attempt begins. -/
def receive (c : ScriptedChain) (b : Block) : ScriptedChain :=
  { c with attempts := c.attempts ++ [b.number] }

/-- The answers left for a hash. -/
def answersFor (c : ScriptedChain) (h : BlockHash) : List Answer :=
  (c.scripts.find? fun s => s.1 = h).elim [] Prod.snd

/-- The outcome without a script. -/
def unscripted (c : ScriptedChain) (b : Block) : Outcome :=
  if !c.linked then .success
  else if b.hash ∈ c.known then .exist
  else if b.parent ∈ c.known then .success
  else .noParent

/-- The next verdict on a block, and the chain with one answer less. -/
def next (c : ScriptedChain) (b : Block) : Verdict × ScriptedChain :=
  match c.answersFor b.hash with
  | [] => (.outcome (c.unscripted b), c)
  | a :: rest => (a.verdict b, c.script b.hash rest)

/-- The chain after a verdict: only a success connects the block. -/
def record (c : ScriptedChain) (b : Block) : Verdict → ScriptedChain
  | .outcome .success => { c with known := c.known ++ [b.hash], imported := c.imported ++ [b] }
  | _ => c

/-- An attempt ends, if there is no gate or a permit is left. -/
def conclude (c : ScriptedChain) (b : Block) : Option (Verdict × ScriptedChain) :=
  if c.gated && c.permits = 0 then none
  else
    let c := if c.gated then { c with permits := c.permits - 1 } else c
    let (verdict, c) := c.next b
    some (verdict, c.record b verdict)

/-- How many scripted answers are left. -/
def answersLeft (c : ScriptedChain) : Nat :=
  (c.scripts.flatMap Prod.snd).length

/-- A scripted chain as a collaborator. -/
def chain : Chain ScriptedChain where
  best := best
  receive := receive
  conclude := conclude

end ScriptedChain
end BlockSync
