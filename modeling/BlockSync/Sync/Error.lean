/-
  BlockSync.Sync.Error
  ────────────────────
  **WHAT THE CALLERS OF A SYNCHRONIZER SEE.**

  An empty frontier or queue is no failure of a store, so these two errors of a
  store have a name of their own here.
-/
import BlockSync.Settings.Basic
import BlockSync.Store.Error

namespace BlockSync

/-- Why a synchronizer refuses a call. -/
inductive SyncError where
  /-- There is nothing left to fetch. -/
  | emptyFrontier
  | emptyQueue
  | invalidArgument (text : String)
  | settings (fault : SettingsFault)
  | store (error : StoreError)
  /-- There is nothing for the importer to run on. -/
  | noExecutor (detail : String)
deriving Repr, DecidableEq

namespace SyncError

/-- The error of a store as its caller's caller sees it. -/
def ofStore : StoreError → SyncError
  | .emptyFrontier => .emptyFrontier
  | .emptyQueue => .emptyQueue
  | e => .store e

/-- The name of the kind of an error. -/
def kind : SyncError → String
  | .emptyFrontier => "EmptyFrontier"
  | .emptyQueue => "EmptyQueue"
  | .invalidArgument _ => "InvalidArgument"
  | .settings _ => "Config"
  | .store _ => "Store"
  | .noExecutor _ => "Runtime"

/-- The wording of an error. -/
def message : SyncError → String
  | .emptyFrontier => "Hash frontier is empty"
  | .emptyQueue => "Block queue is empty"
  | .invalidArgument text => "Invalid argument: " ++ text
  | .settings fault => "Invalid configuration: " ++ fault.text
  | .store e => "Store error: " ++ e.message
  | .noExecutor detail => "No Tokio runtime: " ++ detail

/-- The reason given when a synchronizer is built where nothing runs tasks. -/
def noReactor : String :=
  "there is no reactor running, must be called from the context of a Tokio 1.x runtime"

end SyncError
end BlockSync
