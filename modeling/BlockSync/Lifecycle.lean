/-
  BlockSync.Lifecycle
  ───────────────────
  **THE LIFE OF AN IMPORTER.**

  An importer is running, then stopping, then stopped; it may skip the middle
  state and it never goes back.
-/
namespace BlockSync

/-- Where an importer is in its life. -/
inductive Lifecycle where
  /-- The loop is live: it waits for blocks, imports or pauses. -/
  | running
  /-- A stop was requested; an import in progress may finish. -/
  | stopping
  /-- The loop has ended for good. -/
  | stopped
deriving Repr, DecidableEq

namespace Lifecycle

/-- An importer comes to life together with its synchronizer. -/
instance : Inhabited Lifecycle := ⟨.running⟩

/-- Whether one state may follow another. -/
def allows : (current target : Lifecycle) → Bool
  | .running, .stopping => true
  | .running, .stopped => true
  | .stopping, .stopped => true
  | _, _ => false

/-- Whether the loop is live. -/
def isRunning : Lifecycle → Bool
  | .running => true
  | _ => false

/-- The name of a state. -/
def name : Lifecycle → String
  | .running => "Running"
  | .stopping => "Stopping"
  | .stopped => "Stopped"

/-- The state with a name. -/
def ofName? (s : String) : Option Lifecycle :=
  [running, stopping, stopped].find? fun l => l.name = s

end Lifecycle
end BlockSync
