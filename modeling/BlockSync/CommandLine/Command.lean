/-
  BlockSync.CommandLine.Command
  ─────────────────────────────
  **WHAT AN OPERATOR CAN DO WITH A DATA DIRECTORY.**

  No importer runs meanwhile, so nothing is consumed: a command looks at the
  two stores or empties them.  Lines that were printed before a failure stay.
-/
import BlockSync.Store.Database
import BlockSync.Sync.Error

namespace BlockSync.CommandLine

/-! ## §1. Reports. -/

/-- Why a command fails. -/
inductive Failure where
  | settings (path : String) (fault : SettingsFault)
  | database (path : String) (error : StoreError)
  | store (error : StoreError)
deriving Repr, DecidableEq

/-- The lines of an error with the error it came from. -/
def causedBy (message cause : String) : List String :=
  ["Error: " ++ message, "", "Caused by:", "    " ++ cause]

/-- The wording of a failure. -/
def Failure.lines : Failure → List String
  | .settings path fault =>
    causedBy ("failed to load config from " ++ path) (SyncError.settings fault).message
  | .database path e => causedBy ("failed to open database at " ++ path) e.message
  | .store e => ["Error: " ++ e.message]

/-- What a command leaves on the screen. -/
structure Report where
  lines : List String
  failure : Option Failure
deriving Repr, DecidableEq

namespace Report

/-- The report of a command that went well. -/
def ok (lines : List String) : Report := ⟨lines, none⟩

/-- The report of a command that failed after printing some lines. -/
def failed (lines : List String) (failure : Failure) : Report := ⟨lines, some failure⟩

/-- The exit code of the program. -/
def code (r : Report) : Nat := if r.failure.isSome then 1 else 0

/-- The lines of the failure. -/
def errorLines (r : Report) : List String := (r.failure.map Failure.lines).getD []

end Report

/-! ## §2. Commands. -/

/-- A command. -/
inductive Command where
  /-- Show the sizes of both stores, the first hash and the last block. -/
  | status
  /-- Show hashes from the front of the frontier. -/
  | hashes (count : Nat)
  /-- Empty both stores. -/
  | clear
deriving Repr, DecidableEq

namespace Command

/-- The sizes of both stores. -/
def sizeLines (f : Frontier) (q : BlockQueue) : List String :=
  ["hash queue size:  " ++ toString f.length,
    "block queue size: " ++ toString q.length ++ "/" ++ toString q.capacity]

/-- The line about the first hash, if there is one. -/
def bestLine (f : Frontier) : Except StoreError String :=
  match f.peek with
  | .ok h => .ok ("best hash:        " ++ h.text)
  | .error .emptyFrontier => .ok "best hash:        none"
  | .error e => .error e

/-- The line about the last block, if there is one. -/
def lastLines (q : BlockQueue) : Except StoreError (List String) :=
  q.peekBack.map fun
    | some b => ["last block:       #" ++ toString b.number.toNat ++ " " ++ b.hash.text]
    | none => []

/-- The report about both stores. -/
def statusReport (f : Frontier) (q : BlockQueue) : Report :=
  let sizes := sizeLines f q
  match bestLine f with
  | .error e => .failed sizes (.store e)
  | .ok best =>
    match lastLines q with
    | .error e => .failed (sizes ++ [best]) (.store e)
    | .ok last => .ok (sizes ++ [best] ++ last)

/-- The report about the front of the frontier. -/
def hashesReport (count : Nat) (f : Frontier) : Report :=
  match f.front count with
  | .ok hs => .ok (hs.map BlockHash.text)
  | .error e => .failed [] (.store e)

/-- A command on open stores: its report, and the stores after it. -/
def onStores (c : Command) (f : Frontier) (q : BlockQueue) : Report × Frontier × BlockQueue :=
  match c with
  | .status => (statusReport f q, f, q)
  | .hashes count => (hashesReport count f, f, q)
  | .clear => (.ok [], f.clear, q.clear)

/-- **A command on a database**: its report, and what is left of the database
when the stores are closed. -/
def run (c : Command) (capacity : Nat) (d : Database) : Report × Database :=
  match (d.openStores capacity).2 with
  | .error e => (.failed [] (.store e), d)
  | .ok (f, q) =>
    let (report, f, q) := c.onStores f q
    (report, (d.keepFrontier f).keepQueue q)

end Command
end BlockSync.CommandLine
