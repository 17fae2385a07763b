/-
  BlockSync.Store.Error
  ─────────────────────
  **WHAT CAN GO WRONG IN A STORE.**
-/
import BlockSync.Block.Binary

namespace BlockSync

/-- What was found damaged in a store. -/
inductive Damage where
  /-- A key that is no position. -/
  | keyLength (length : Nat)
  /-- The first and last keys span another count of entries than there are. -/
  | span (head tail : UInt64) (entries : Nat)
  /-- A value that is no hash. -/
  | hashLength (length : Nat)
  /-- A value that is no block. -/
  | block (error : Block.Binary.DecodeError)
  /-- Damage known by its description only. -/
  | described (text : String)
deriving Repr, DecidableEq

/-- The description of the damage. -/
def Damage.text : Damage → String
  | .keyLength n => "position key of " ++ toString n ++ " bytes"
  | .span head tail entries =>
    "positions " ++ toString head ++ ".." ++ toString tail
      ++ " do not match " ++ toString entries ++ " entries"
  | .hashLength n => "stored hash of " ++ toString n ++ " bytes"
  | .block e => "stored block: " ++ e.message
  | .described text => text

/-- Why a store refuses an operation. -/
inductive StoreError where
  /-- There is no hash to look at. -/
  | emptyFrontier
  /-- There is no block to take. -/
  | emptyQueue
  /-- The database below the store failed. -/
  | database (detail : String)
  /-- A value could not be encoded. -/
  | codec (detail : String)
  | corruption (damage : Damage)
  /-- No position is left below the front or above the back. -/
  | keySpaceExhausted
deriving Repr, DecidableEq

namespace StoreError

/-- The name of the kind of an error. -/
def kind : StoreError → String
  | .emptyFrontier => "EmptyFrontier"
  | .emptyQueue => "EmptyQueue"
  | .database _ => "Database"
  | .codec _ => "Codec"
  | .corruption _ => "Corruption"
  | .keySpaceExhausted => "KeySpaceExhausted"

/-- The wording of an error. -/
def message : StoreError → String
  | .emptyFrontier => "Hash frontier is empty"
  | .emptyQueue => "Block queue is empty"
  | .database detail => "Database error: " ++ detail
  | .codec detail => "Codec error: " ++ detail
  | .corruption damage => "Data corruption detected: " ++ damage.text
  | .keySpaceExhausted => "Position key space exhausted"

end StoreError
end BlockSync
