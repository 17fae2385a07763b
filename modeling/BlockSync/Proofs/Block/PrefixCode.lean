/-
  BlockSync.Proofs.Block.PrefixCode
  ─────────────────────────────────
  **THE STORED FORM OF A BLOCK IS A PREFIX CODE.**

  That a stored block reads back says that no block is lost.  Here is the other
  direction: whatever a reader takes from the front of a byte string is what the
  writer of the same field would have put there, byte for byte.  So there is one
  stored form of each block, and no second spelling of any length, hash or number.

      eq_of_takeWord, eq_of_takeCounted        numbers and counted strings
      eq_of_takeHash, eq_of_takeDifficulty     strings of 32 bytes
      eq_of_takeBlock                          a block, from its five fields
      decode_eq_ok_iff                         both directions, and what follows

  With both directions a byte string reads as a block exactly if it begins with the
  stored form of that block; and then no stored form can begin with another.
-/
import BlockSync.Proofs.Block.Binary

namespace BlockSync

/-! ## §1. What 32 bytes stand for has these bytes. -/

theorem BlockHash.bytes_of_ofBytes? {bs : Bytes} {h : BlockHash} (hh : ofBytes? bs = some h) :
    h.bytes = bs := by
  unfold ofBytes? at hh
  split at hh
  · cases hh
    rfl
  · cases hh

theorem Difficulty.toBytes_of_ofBytes? {bs : Bytes} {d : Difficulty}
    (hd : ofBytes? bs = some d) : d.toBytes = bs := by
  unfold ofBytes? at hd
  split at hd
  next hlen =>
    cases hd
    show Bytes.bigEndian 32 (Bytes.ofBigEndian bs) = bs
    rw [← hlen, Bytes.bigEndian_ofBigEndian]
  next => cases hd

namespace Block.Binary

/-! ## §2. What was read is what would be written. -/

/-- Eight bytes are the only spelling of the number that they are read as. -/
theorem eq_of_takeWord {s t : Bytes} {n : Nat} (h : takeWord s = .ok (n, t)) :
    s = encodeWord n ++ t := by
  unfold takeWord at h
  split at h
  case isTrue => cases h
  case isFalse hs =>
    cases h
    have hlen : (s.take 8).length = 8 := by
      rw [List.length_take]
      omega
    have hword := Bytes.littleEndian_ofLittleEndian (s.take 8)
    rw [hlen] at hword
    unfold encodeWord
    rw [hword, List.take_append_drop]

/-- A counted string is as long as it says. -/
theorem eq_of_takeCounted {short : DecodeError} {s t bs : Bytes}
    (h : takeCounted short s = .ok (bs, t)) : s = encodeCounted bs ++ t := by
  unfold takeCounted at h
  obtain ⟨⟨n, u⟩, hword, h⟩ := exists_of_bind_ok h
  have hs := eq_of_takeWord hword
  dsimp only at h
  split at h
  case isTrue => cases h
  case isFalse hu =>
    cases h
    have hlen : (u.take n).length = n := by
      rw [List.length_take]
      omega
    unfold encodeCounted
    rw [hlen, List.append_assoc, List.take_append_drop, hs]

theorem eq_of_takeHash {s t : Bytes} {k : BlockHash} (h : takeHash s = .ok (k, t)) :
    s = encodeCounted k.bytes ++ t := by
  unfold takeHash at h
  obtain ⟨⟨bs, u⟩, hcounted, h⟩ := exists_of_bind_ok h
  dsimp only at h
  split at h
  next hk =>
    cases h
    rw [BlockHash.bytes_of_ofBytes? hk]
    exact eq_of_takeCounted hcounted
  next => cases h

theorem eq_of_takeDifficulty {s t : Bytes} {d : Difficulty} (h : takeDifficulty s = .ok (d, t)) :
    s = encodeCounted d.toBytes ++ t := by
  unfold takeDifficulty at h
  obtain ⟨⟨bs, u⟩, hcounted, h⟩ := exists_of_bind_ok h
  dsimp only at h
  split at h
  next hd =>
    cases h
    rw [Difficulty.toBytes_of_ofBytes? hd]
    exact eq_of_takeCounted hcounted
  next => cases h

/-- **What is read as a block is its stored form**, and then what follows it. -/
theorem eq_of_takeBlock {s t : Bytes} {b : Block} (h : takeBlock s = .ok (b, t)) :
    s = encode b ++ t := by
  unfold takeBlock at h
  obtain ⟨⟨number, s₁⟩, hnumber, h⟩ := exists_of_bind_ok h
  obtain ⟨⟨hash, s₂⟩, hhash, h⟩ := exists_of_bind_ok h
  obtain ⟨⟨parent, s₃⟩, hparent, h⟩ := exists_of_bind_ok h
  obtain ⟨⟨difficulty, s₄⟩, hdifficulty, h⟩ := exists_of_bind_ok h
  obtain ⟨⟨payload, s₅⟩, hpayload, h⟩ := exists_of_bind_ok h
  cases h
  have hword : (UInt64.ofNat number).toNat = number := by
    rw [UInt64.toNat_ofNat', Nat.mod_eq_of_lt (lt_of_takeWord hnumber)]
  unfold encode
  dsimp only
  rw [hword, eq_of_takeWord hnumber, eq_of_takeHash hhash, eq_of_takeHash hparent,
    eq_of_takeDifficulty hdifficulty, eq_of_takeCounted hpayload]
  simp only [List.append_assoc]

/-! ## §3. Whole byte strings. -/

/-- An accepted byte string begins with the stored form of its block. -/
theorem encode_prefix_of_decode {s : Bytes} {b : Block} (h : decode s = .ok b) :
    encode b <+: s := by
  unfold decode at h
  cases ht : takeBlock s with
  | error e =>
    rw [ht] at h
    cases h
  | ok r =>
    obtain ⟨d, t⟩ := r
    rw [ht] at h
    cases h
    exact ⟨t, (eq_of_takeBlock ht).symm⟩

/-- No stored form begins with another. -/
theorem eq_of_prefix_encode {b d : Block} (hb : b.Storable) (hd : d.Storable)
    (h : encode d <+: encode b) : d = b := by
  obtain ⟨t, ht⟩ := h
  have hread : decode (encode d ++ t) = decode (encode b) := congrArg decode ht
  rw [decode_encode_append hd, decode_encode hb] at hread
  exact Except.ok.inj hread

/-- **THE STORED FORM IS EXACT AND PREFIX-FREE.**  A byte string is read as a block
exactly if it begins with the stored form of that block.  So a stored block reads
back whatever follows it; no other block has its stored form, or a beginning of it;
what is read from any byte string would be written as the beginning of just that
string; and a stored form that was cut off is refused. -/
theorem decode_eq_ok_iff {b : Block} (hb : b.Storable) (s : Bytes) :
    (decode s = .ok b ↔ ∃ t, s = encode b ++ t)
      ∧ (∀ t, decode (encode b ++ t) = .ok b)
      ∧ (∀ d : Block, d.Storable → d ≠ b → encode d ≠ encode b ∧ ¬ encode d <+: encode b)
      ∧ (∀ d, decode s = .ok d → d.Storable ∧ encode d <+: s)
      ∧ (s <+: encode b → s ≠ encode b → ∃ e, decode s = .error e) := by
  refine ⟨⟨fun h => ?_, ?_⟩, decode_encode_append hb, ?_, ?_, ?_⟩
  · obtain ⟨t, ht⟩ := encode_prefix_of_decode h
    exact ⟨t, ht.symm⟩
  · rintro ⟨t, rfl⟩
    exact decode_encode_append hb t
  · intro d hd hne
    have hfree : ¬ encode d <+: encode b := fun h => hne (eq_of_prefix_encode hb hd h)
    exact ⟨fun heq => hfree (heq ▸ List.prefix_refl _), hfree⟩
  · intro d hread
    exact ⟨storable_of_decode hread, encode_prefix_of_decode hread⟩
  · intro hcut hne
    cases hread : decode s with
    | error e => exact ⟨e, rfl⟩
    | ok d =>
      -- the block that is read lies within `s`, so it is `b`, and `s` is not cut off
      have hwithin := encode_prefix_of_decode hread
      obtain rfl := eq_of_prefix_encode hb (storable_of_decode hread) (hwithin.trans hcut)
      exact absurd (hcut.eq_of_length_le hwithin.length_le) hne

/-- A block that uses every field, with the greatest number there is. -/
def fullBlock : Block :=
  { number := 0xffffffffffffffff
    hash := .replicate 2
    parent := .replicate 1
    difficulty := ⟨1000000, by decide⟩
    payload := [0xde, 0xad, 0xbe, 0xef] }

theorem decode_eq_ok_iff_fullBlock :
    fullBlock.Storable
      ∧ decode (encode fullBlock ++ [7]) = .ok fullBlock
      ∧ (encode fullBlock).dropLast <+: encode fullBlock
      ∧ (encode fullBlock).dropLast ≠ encode fullBlock
      ∧ ∃ e, decode (encode fullBlock).dropLast = .error e := by
  have hb : fullBlock.Storable := by decide
  have hcut := List.dropLast_prefix (encode fullBlock)
  have hne : (encode fullBlock).dropLast ≠ encode fullBlock := by decide +kernel
  exact ⟨hb, (decode_eq_ok_iff hb (encode fullBlock ++ [7])).1.mpr ⟨[7], rfl⟩, hcut, hne,
    (decode_eq_ok_iff hb _).2.2.2.2 hcut hne⟩

end Block.Binary
end BlockSync
