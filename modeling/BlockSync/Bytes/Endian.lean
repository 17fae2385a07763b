/-
  BlockSync.Bytes.Endian
  ──────────────────────
  **FIXED-WIDTH NUMBERS AS BYTES.**

  A number is written in base 256 with a fixed count of digits, the least
  significant first (`littleEndian`) or last (`bigEndian`).  Reading is the
  positional value of the digits.

  Main results:

      length_littleEndian, length_bigEndian   the width is kept
      ofLittleEndian_lt, ofBigEndian_lt       k bytes hold a number below bound k
-/
namespace BlockSync

/-- A string of bytes. -/
abbrev Bytes := List UInt8

namespace Bytes

/-! ## §1. Least significant byte first. -/

/-- The first number that does not fit into `width` bytes. -/
def bound : (width : Nat) → Nat
  | 0 => 1
  | width + 1 => 256 * bound width

/-- The `width` low base-256 digits of a number, least significant first. -/
def littleEndian : (width : Nat) → Nat → Bytes
  | 0, _ => []
  | width + 1, n => UInt8.ofNat n :: littleEndian width (n / 256)

/-- The number whose base-256 digits, least significant first, are given. -/
def ofLittleEndian : Bytes → Nat
  | [] => 0
  | b :: bs => b.toNat + 256 * ofLittleEndian bs

@[simp] theorem length_littleEndian (width n : Nat) :
    (littleEndian width n).length = width := by
  induction width generalizing n with
  | zero => rfl
  | succ width ih => simp [littleEndian, ih]

theorem ofLittleEndian_lt (bs : Bytes) : ofLittleEndian bs < bound bs.length := by
  induction bs with
  | nil => simp [ofLittleEndian, bound]
  | cons b bs ih =>
    have hb : b.toNat < 256 := b.toNat_lt
    simp only [ofLittleEndian, List.length_cons, bound]
    omega

/-! ## §2. Most significant byte first. -/

/-- The `width` low base-256 digits of a number, most significant first. -/
def bigEndian (width n : Nat) : Bytes :=
  (littleEndian width n).reverse

/-- The number whose base-256 digits, most significant first, are given. -/
def ofBigEndian (bs : Bytes) : Nat :=
  ofLittleEndian bs.reverse

@[simp] theorem length_bigEndian (width n : Nat) :
    (bigEndian width n).length = width := by
  simp [bigEndian]

theorem ofBigEndian_lt (bs : Bytes) : ofBigEndian bs < bound bs.length := by
  simpa [ofBigEndian] using ofLittleEndian_lt bs.reverse

end Bytes
end BlockSync
