/-
  BlockSync.Proofs.Bytes
  ──────────────────────
  **FIXED-WIDTH NUMBERS: ROUND TRIPS AND ORDER.**

  Writing a number in base 256 and reading it back gives the number, up to what
  the width can hold; reading bytes and writing them back gives the bytes.  With
  the most significant byte first, byte strings of one length are ordered as the
  numbers they stand for.

  Main results:

      ofBigEndian_bigEndian, bigEndian_ofBigEndian   the two directions
      bigEndian_lt_bigEndian                         the order is kept
      compare_ofBigEndian                            and so is what a comparison tells
-/
import BlockSync.Bytes.Endian

namespace BlockSync.Bytes

/-! ## §1. Least significant byte first. -/

theorem ofLittleEndian_littleEndian (width : Nat) :
    ∀ n, ofLittleEndian (littleEndian width n) = n % bound width := by
  induction width with
  | zero => intro n; simp [littleEndian, ofLittleEndian, bound, Nat.mod_one]
  | succ width ih =>
    intro n
    have hb : (UInt8.ofNat n).toNat = n % 256 := UInt8.toNat_ofNat'
    show (UInt8.ofNat n).toNat + 256 * ofLittleEndian (littleEndian width (n / 256))
      = n % (256 * bound width)
    rw [ih, hb, Nat.mod_mul]

theorem littleEndian_ofLittleEndian (bs : Bytes) :
    littleEndian bs.length (ofLittleEndian bs) = bs := by
  induction bs with
  | nil => rfl
  | cons b bs ih =>
    have hb : b.toNat < 256 := b.toNat_lt
    have hlow : UInt8.ofNat (b.toNat + 256 * ofLittleEndian bs) = b := by
      apply UInt8.toNat_inj.mp
      rw [UInt8.toNat_ofNat']
      omega
    have hrest : (b.toNat + 256 * ofLittleEndian bs) / 256 = ofLittleEndian bs := by omega
    show UInt8.ofNat (b.toNat + 256 * ofLittleEndian bs)
      :: littleEndian bs.length ((b.toNat + 256 * ofLittleEndian bs) / 256) = b :: bs
    rw [hlow, hrest, ih]

theorem ofLittleEndian_append (as bs : Bytes) :
    ofLittleEndian (as ++ bs) = ofLittleEndian as + bound as.length * ofLittleEndian bs := by
  induction as with
  | nil => simp [ofLittleEndian, bound]
  | cons a as ih =>
    simp only [List.cons_append, ofLittleEndian, List.length_cons, bound]
    rw [ih, Nat.mul_add, Nat.mul_assoc, Nat.add_assoc]

/-! ## §2. Most significant byte first. -/

theorem ofBigEndian_bigEndian (width n : Nat) :
    ofBigEndian (bigEndian width n) = n % bound width := by
  unfold ofBigEndian bigEndian
  rw [List.reverse_reverse, ofLittleEndian_littleEndian]

theorem bigEndian_ofBigEndian (bs : Bytes) : bigEndian bs.length (ofBigEndian bs) = bs := by
  have h := littleEndian_ofLittleEndian bs.reverse
  rw [List.length_reverse] at h
  unfold bigEndian ofBigEndian
  rw [h, List.reverse_reverse]

theorem ofBigEndian_cons (b : UInt8) (bs : Bytes) :
    ofBigEndian (b :: bs) = b.toNat * bound bs.length + ofBigEndian bs := by
  unfold ofBigEndian
  rw [List.reverse_cons, ofLittleEndian_append, List.length_reverse]
  simp only [ofLittleEndian, Nat.mul_zero, Nat.add_zero]
  rw [Nat.mul_comm, Nat.add_comm]

/-! ## §3. Order. -/

/-- **Byte strings of one length are ordered as the numbers they stand for.**
The first byte in which they differ outweighs all that follow it. -/
theorem ofBigEndian_lt_ofBigEndian :
    ∀ {as bs : Bytes}, as.length = bs.length → (ofBigEndian as < ofBigEndian bs ↔ as < bs)
  | [], [], _ => by simp [ofBigEndian, ofLittleEndian]
  | a :: as, b :: bs, h => by
    have hlen : as.length = bs.length := by simpa using h
    have ha := ofBigEndian_lt as
    have hb := ofBigEndian_lt bs
    have ih := ofBigEndian_lt_ofBigEndian hlen
    rw [ofBigEndian_cons, ofBigEndian_cons, List.cons_lt_cons_iff, ← ih, hlen]
    rw [hlen] at ha
    rcases Nat.lt_trichotomy a.toNat b.toNat with hab | hab | hab
    · have hmul : (a.toNat + 1) * bound bs.length ≤ b.toNat * bound bs.length :=
        Nat.mul_le_mul_right _ hab
      rw [Nat.add_mul] at hmul
      exact iff_of_true (by omega) (Or.inl hab)
    · have heq : a = b := UInt8.toNat_inj.mp hab
      have hirr : ¬ b < b := Nat.lt_irrefl b.toNat
      subst heq
      constructor
      · intro hlt
        exact Or.inr ⟨rfl, by omega⟩
      · rintro (hlt | ⟨-, hlt⟩)
        · exact absurd hlt hirr
        · omega
    · have hmul : (b.toNat + 1) * bound bs.length ≤ a.toNat * bound bs.length :=
        Nat.mul_le_mul_right _ hab
      rw [Nat.add_mul] at hmul
      refine iff_of_false (by omega) ?_
      rintro (hlt | ⟨heq, -⟩)
      · exact Nat.lt_asymm hab hlt
      · exact Nat.lt_irrefl _ (heq ▸ hab)

theorem bigEndian_lt_bigEndian {width m n : Nat} (hm : m < bound width) (hn : n < bound width) :
    bigEndian width m < bigEndian width n ↔ m < n := by
  rw [← ofBigEndian_lt_ofBigEndian (by simp), ofBigEndian_bigEndian, ofBigEndian_bigEndian,
    Nat.mod_eq_of_lt hm, Nat.mod_eq_of_lt hn]

/-- The lesser of two byte strings has the lesser byte where they first differ, or it ends
there. -/
theorem compare_eq_lt : ∀ {as bs : Bytes}, as < bs → compare as bs = .lt
  | _, [], h => absurd h (List.not_lt_nil _)
  | [], _ :: _, _ => rfl
  | a :: as, b :: bs, h => by
    rw [List.compare_cons_cons]
    rcases List.cons_lt_cons_iff.mp h with hlt | ⟨rfl, hlt⟩
    · rw [Std.compare_eq_lt.mpr hlt]
      rfl
    · rw [Std.ReflOrd.compare_self, compare_eq_lt hlt]
      rfl

/-- **Byte strings of one length compare as the numbers they stand for.** -/
theorem compare_ofBigEndian {as bs : Bytes} (h : as.length = bs.length) :
    compare as bs = compare (ofBigEndian as) (ofBigEndian bs) := by
  rcases Nat.lt_trichotomy (ofBigEndian as) (ofBigEndian bs) with hlt | heq | hlt
  · rw [Nat.compare_eq_lt.mpr hlt, compare_eq_lt ((ofBigEndian_lt_ofBigEndian h).mp hlt)]
  · -- of one length there is only one byte string for a number
    have hsame : as = bs := by
      rw [← bigEndian_ofBigEndian as, h, heq, bigEndian_ofBigEndian]
    rw [hsame, Std.ReflOrd.compare_self, Nat.compare_eq_eq.mpr rfl]
  · rw [Nat.compare_eq_gt.mpr hlt, Std.OrientedOrd.eq_swap,
      compare_eq_lt ((ofBigEndian_lt_ofBigEndian h.symm).mp hlt)]
    rfl

end BlockSync.Bytes
