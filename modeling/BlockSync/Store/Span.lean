/-
  BlockSync.Store.Span
  ────────────────────
  **POSITIONS: THE KEYS OF A PERSISTENT DEQUE.**

  The entries of a deque are kept under 64-bit positions written as eight bytes,
  most significant first, so that the key order of the tree is the order of the
  deque.  An empty deque starts in the middle of the key space; inserts at the
  front grow downward and appends grow upward.

  A store remembers the occupied range `[head, tail)`.  As entries leave only at
  the front, the range has no gaps and its width is the count of entries; a tree
  for which this fails is refused when it is opened (`Span.recover`).
-/
import BlockSync.Store.Error
import BlockSync.Store.Tree

namespace BlockSync

/-! ## §1. Positions as keys. -/

namespace Position

/-- The key of a position. -/
def encode (p : UInt64) : Bytes :=
  Bytes.bigEndian 8 p.toNat

/-- The position of a key: any eight bytes. -/
def decode (key : Bytes) : Except StoreError UInt64 :=
  if key.length = 8 then .ok (UInt64.ofNat (Bytes.ofBigEndian key))
  else .error (.corruption (.keyLength key.length))

/-- The batch that writes values under consecutive positions. -/
def putFrom : (start : UInt64) → List Bytes → List Tree.Change
  | _, [] => []
  | start, v :: vs => .put (encode start) v :: putFrom (start + 1) vs

end Position

/-! ## §2. Occupied ranges. -/

/-- The occupied range `[head, tail)` of positions. -/
structure Span where
  head : UInt64
  tail : UInt64
deriving Repr, DecidableEq

namespace Span

/-- The position at which an empty deque starts: the middle of the key space. -/
def middle : UInt64 := 0x7fffffffffffffff

/-- The range of an empty deque. -/
def fresh : Span := ⟨middle, middle⟩

instance : Inhabited Span := ⟨fresh⟩

/-- The count of occupied positions. -/
def length (s : Span) : Nat := (s.tail - s.head).toNat

/-- The range of a tree: from its first position to one past its last. -/
def recover (t : Tree) : Except StoreError Span :=
  match t.first?, t.last? with
  | some first, some last => do
    let head ← Position.decode first.1
    let final ← Position.decode last.1
    if final.toNat + 1 = UInt64.size then .error .keySpaceExhausted
    else
      let s : Span := ⟨head, final + 1⟩
      if s.length ≠ t.size then .error (.corruption (.span s.head s.tail t.size))
      else .ok s
  | _, _ => .ok fresh

/-- The first of `count` positions just before the head. -/
def frontStart (s : Span) (count : Nat) : Except StoreError UInt64 :=
  if count ≤ s.head.toNat then .ok (s.head - UInt64.ofNat count)
  else .error .keySpaceExhausted

/-- The tail after `count` more positions. -/
def backEnd (s : Span) (count : Nat) : Except StoreError UInt64 :=
  if s.tail.toNat + count < UInt64.size then .ok (s.tail + UInt64.ofNat count)
  else .error .keySpaceExhausted

/-- The range after the entry at a front position left; an empty range starts
in the middle again. -/
def popFront (s : Span) (position : UInt64) : Span :=
  if position + 1 = s.tail then fresh else ⟨position + 1, s.tail⟩

/-- The text of a range. -/
def text (s : Span) : String :=
  "Positions \x7b head: " ++ toString s.head ++ ", tail: " ++ toString s.tail ++ " \x7d"

end Span
end BlockSync
