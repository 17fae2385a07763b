/-
  BlockSync.Chain.Outcome
  ───────────────────────
  **WHAT BECOMES OF AN IMPORT.**

  The chain answers an import with one of four outcomes.  Three are final; only
  a block whose parent is unknown is tried again.  An import that breaks down
  has no outcome: it fails with a message, or it crashes with a payload that may
  or may not be text.
-/
import BlockSync.Json.Reader

namespace BlockSync

/-! ## §1. Outcomes. -/

/-- The answer of the chain to a block it was handed. -/
inductive Outcome where
  /-- The block was connected. -/
  | success
  /-- The parent of the block is not part of the chain yet. -/
  | noParent
  /-- The block is already known to the chain. -/
  | exist
  /-- The block failed validation. -/
  | invalid
deriving Repr, DecidableEq

namespace Outcome

/-- The four outcomes. -/
def all : List Outcome := [.success, .noParent, .exist, .invalid]

/-- The name of an outcome, used in logs and as a metric label. -/
def name : Outcome → String
  | .success => "success"
  | .noParent => "no_parent"
  | .exist => "exist"
  | .invalid => "invalid"

/-- Whether the block is not tried again. -/
def isFinal : Outcome → Bool
  | .noParent => false
  | _ => true

/-- The outcome with a name. -/
def ofName? (s : String) : Option Outcome :=
  all.find? fun o => o.name = s

/-- The outcome a JSON value stands for: its name, or an object whose only
member has that name and the value null. -/
def ofJson? : Json → Option Outcome
  | .string (some s) => ofName? (String.ofList s)
  | .object [(some name, .null)] => ofName? (String.ofList name)
  | _ => none

/-- The outcome a JSON text stands for. -/
def ofJsonText? (s : String) : Option Outcome :=
  (Json.parse? s.toList).bind ofJson?

end Outcome

/-! ## §2. Verdicts. -/

/-- What a crashed import leaves behind. -/
inductive CrashPayload where
  | text (message : String)
  /-- A payload that is no text. -/
  | other
deriving Repr, DecidableEq

/-- The wording of a crash. -/
def CrashPayload.reason : CrashPayload → String
  | .text message => message
  | .other => "unknown panic payload"

/-- How an import attempt ends. -/
inductive Verdict where
  | outcome (o : Outcome)
  /-- The import itself broke down. -/
  | failed (message : String)
  /-- The import crashed. -/
  | crashed (payload : CrashPayload)
deriving Repr, DecidableEq

/-- The outcome of an attempt that completed. -/
def Verdict.outcome? : Verdict → Option Outcome
  | .outcome o => some o
  | _ => none

end BlockSync
