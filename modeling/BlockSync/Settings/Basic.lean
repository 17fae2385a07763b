/-
  BlockSync.Settings.Basic
  ────────────────────────
  **THE SETTINGS OF A SYNCHRONIZER.**

  Three numbers: how many hashes are handed out at once, how many blocks a bulk
  append may leave in the queue, and how long the importer pauses after a block
  without parent.  The first two must be positive.
-/
namespace BlockSync

/-! ## §1. The settings. -/

/-- The settings of a synchronizer; the pause is in milliseconds. -/
structure Settings where
  maxBlocksAsk : Nat
  maxBlocksQueued : Nat
  noParentBackoff : Nat
deriving Repr, DecidableEq

namespace Settings

/-- The settings where nothing else is asked for. -/
def standard : Settings := ⟨120, 300, 2000⟩

instance : Inhabited Settings := ⟨standard⟩

/-- What can be set. -/
inductive Key where
  | maxBlocksAsk
  | maxBlocksQueued
  | noParentBackoff
deriving Repr, DecidableEq

/-- The keys in the order of writing. -/
def Key.all : List Key := [.maxBlocksAsk, .maxBlocksQueued, .noParentBackoff]

/-- The name of a key. -/
def Key.name : Key → String
  | .maxBlocksAsk => "max_blocks_ask"
  | .maxBlocksQueued => "max_blocks_queued"
  | .noParentBackoff => "no_parent_backoff_ms"

/-- The key with a name. -/
def Key.ofName? (name : String) : Option Key :=
  Key.all.find? (·.name == name)

/-- The value under a key. -/
def get (s : Settings) : Key → Nat
  | .maxBlocksAsk => s.maxBlocksAsk
  | .maxBlocksQueued => s.maxBlocksQueued
  | .noParentBackoff => s.noParentBackoff

/-- Settings with another value under a key. -/
def set (s : Settings) (key : Key) (n : Nat) : Settings :=
  match key with
  | .maxBlocksAsk => { s with maxBlocksAsk := n }
  | .maxBlocksQueued => { s with maxBlocksQueued := n }
  | .noParentBackoff => { s with noParentBackoff := n }

/-- The whole seconds of the pause. -/
def backoffSeconds (s : Settings) : Nat := s.noParentBackoff / 1000

/-- The milliseconds of the pause beyond its whole seconds. -/
def backoffMillis (s : Settings) : Nat := s.noParentBackoff % 1000

/-- The settings as a text of one line for each key. -/
def text (s : Settings) : String :=
  String.join (Key.all.map fun k => k.name ++ ": " ++ toString (s.get k) ++ "\n")

end Settings

/-! ## §2. What can be wrong with settings. -/

/-- Why settings are refused. -/
inductive SettingsFault where
  | askNotPositive
  | queuedNotPositive
  /-- The file cannot be opened, and why. -/
  | notOpened (path reason : String)
  /-- The file is no text of settings. -/
  | notParsed (path : String)
  /-- A fault known by its description only. -/
  | described (text : String)
deriving Repr, DecidableEq

/-- The description of a fault. -/
def SettingsFault.text : SettingsFault → String
  | .askNotPositive => "max_blocks_ask must be positive"
  | .queuedNotPositive => "max_blocks_queued must be positive"
  | .notOpened path reason => "open " ++ path ++ ": " ++ reason
  | .notParsed path => "parse " ++ path
  | .described text => text

/-- The first fault of settings. -/
def Settings.check (s : Settings) : Except SettingsFault Unit :=
  if s.maxBlocksAsk = 0 then .error .askNotPositive
  else if s.maxBlocksQueued = 0 then .error .queuedNotPositive
  else .ok ()

end BlockSync
