/-
  BlockSync.Block.Binary
  ──────────────────────
  **THE STORED FORM OF A BLOCK.**

  A block is stored as the concatenation of five fields:

      number       8 bytes, least significant first
      hash         a counted string of 32 bytes
      parent       a counted string of 32 bytes
      difficulty   a counted string of 32 bytes, most significant first
      payload      a counted string

  where a counted string is its length in 8 bytes, least significant first,
  and then its bytes.  `take` reads one block from the front of a byte string
  and hands back what follows it; every way in which this can fail is a
  constructor of `DecodeError`.
-/
import BlockSync.Block

namespace BlockSync.Block.Binary

/-! ## §1. Writing. -/

/-- A 64-bit number, least significant byte first. -/
def encodeWord (n : Nat) : Bytes :=
  Bytes.littleEndian 8 n

/-- A byte string behind its length. -/
def encodeCounted (bs : Bytes) : Bytes :=
  encodeWord bs.length ++ bs

/-- **The stored form of a block.** -/
def encode (b : Block) : Bytes :=
  encodeWord b.number.toNat
    ++ encodeCounted b.hash.bytes
    ++ encodeCounted b.parent.bytes
    ++ encodeCounted b.difficulty.toBytes
    ++ encodeCounted b.payload

/-! ## §2. Reading. -/

/-- Why a byte string does not begin with a stored block. -/
inductive DecodeError where
  /-- The bytes end within a number, within a length or within the payload. -/
  | truncated
  /-- The bytes end within a string whose length was announced. -/
  | truncatedString
  /-- The announced string is there, but no hash has its length. -/
  | hashLength
  /-- The announced string is there, but no difficulty has its length. -/
  | difficultyLength (length : Nat)
deriving Repr, DecidableEq

/-- The wording of a refusal. -/
def DecodeError.message : DecodeError → String
  | .truncated => "io error: unexpected end of file"
  | .truncatedString => "io error: "
  | .hashLength => "could not convert slice to array"
  | .difficultyLength n =>
    "invalid length " ++ toString n ++ ", expected 256 bits of binary data in big endian order"

/-- The number in the first eight bytes. -/
def takeWord (s : Bytes) : Except DecodeError (Nat × Bytes) :=
  if s.length < 8 then .error .truncated
  else .ok (Bytes.ofLittleEndian (s.take 8), s.drop 8)

/-- The string behind its length; `short` says what is wrong if it is cut off. -/
def takeCounted (short : DecodeError) (s : Bytes) : Except DecodeError (Bytes × Bytes) := do
  let (n, s) ← takeWord s
  if s.length < n then .error short else .ok (s.take n, s.drop n)

/-- A hash behind its length. -/
def takeHash (s : Bytes) : Except DecodeError (BlockHash × Bytes) := do
  let (bs, s) ← takeCounted .truncatedString s
  match BlockHash.ofBytes? bs with
  | some h => .ok (h, s)
  | none => .error .hashLength

/-- A difficulty behind its length. -/
def takeDifficulty (s : Bytes) : Except DecodeError (Difficulty × Bytes) := do
  let (bs, s) ← takeCounted .truncatedString s
  match Difficulty.ofBytes? bs with
  | some d => .ok (d, s)
  | none => .error (.difficultyLength bs.length)

/-- The block at the front of a byte string. -/
def takeBlock (s : Bytes) : Except DecodeError (Block × Bytes) := do
  let (number, s) ← takeWord s
  let (hash, s) ← takeHash s
  let (parent, s) ← takeHash s
  let (difficulty, s) ← takeDifficulty s
  let (payload, s) ← takeCounted .truncated s
  .ok (⟨UInt64.ofNat number, hash, parent, difficulty, payload⟩, s)

/-- **The block a byte string begins with**; what follows it is ignored. -/
def decode (s : Bytes) : Except DecodeError Block :=
  (takeBlock s).map Prod.fst

end BlockSync.Block.Binary
