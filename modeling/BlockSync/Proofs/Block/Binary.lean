/-
  BlockSync.Proofs.Block.Binary
  ─────────────────────────────
  **A STORED BLOCK READS BACK.**

  Every field of a stored block is a word or a counted string, so each reader
  finds what the writer of the same field put in front, whatever follows it.
  The length of a payload has to fit into the word that announces it, and the
  length of a payload that was read does.
-/
import BlockSync.Block.Binary
import BlockSync.Proofs.Bytes

namespace BlockSync

/-- A block whose payload is short enough for its length to be written down, as
every payload is that fits into a memory of 64-bit addresses. -/
def Block.Storable (b : Block) : Prop := b.payload.length < UInt64.size

instance (b : Block) : Decidable b.Storable := inferInstanceAs (Decidable (_ < _))

/-- A sequence of actions succeeds only if each of them does. -/
theorem exists_of_bind_ok {ε α β : Type} {x : Except ε α} {f : α → Except ε β} {b : β}
    (h : x >>= f = .ok b) : ∃ a, x = .ok a ∧ f a = .ok b := by
  cases x with
  | error e => cases h
  | ok a => exact ⟨a, rfl, h⟩

/-! ## §1. The fields read back as themselves. -/

theorem BlockHash.ofBytes?_bytes (h : BlockHash) : ofBytes? h.bytes = some h := by
  unfold ofBytes?
  rw [dif_pos h.length_eq]

theorem Difficulty.ofBytes?_toBytes (d : Difficulty) : ofBytes? d.toBytes = some d := by
  have hlen : d.toBytes.length = 32 := Bytes.length_bigEndian 32 d.value
  have hval : Bytes.ofBigEndian d.toBytes = d.value := by
    have hlt : d.value < Bytes.bound 32 := d.lt
    unfold toBytes
    rw [Bytes.ofBigEndian_bigEndian, Nat.mod_eq_of_lt hlt]
  unfold ofBytes?
  rw [dif_pos hlen]
  exact congrArg some (by cases d; simpa using hval)

namespace Block.Binary

theorem takeWord_encodeWord {n : Nat} (hn : n < UInt64.size) (t : Bytes) :
    takeWord (encodeWord n ++ t) = .ok (n, t) := by
  have hlen : (encodeWord n).length = 8 := Bytes.length_littleEndian 8 n
  have hn' : n < Bytes.bound 8 := hn
  unfold takeWord
  rw [if_neg (by rw [List.length_append, hlen]; omega), List.take_left' hlen,
    List.drop_left' hlen]
  unfold encodeWord
  rw [Bytes.ofLittleEndian_littleEndian, Nat.mod_eq_of_lt hn']

theorem takeCounted_encodeCounted {bs : Bytes} (hbs : bs.length < UInt64.size) (short : DecodeError)
    (t : Bytes) : takeCounted short (encodeCounted bs ++ t) = .ok (bs, t) := by
  unfold takeCounted encodeCounted
  rw [List.append_assoc, takeWord_encodeWord hbs]
  show (if (bs ++ t).length < bs.length then _ else _) = _
  rw [if_neg (by rw [List.length_append]; omega), List.take_left, List.drop_left]

theorem takeHash_encodeCounted (h : BlockHash) (t : Bytes) :
    takeHash (encodeCounted h.bytes ++ t) = .ok (h, t) := by
  have hlen : h.bytes.length < UInt64.size := by rw [h.length_eq]; decide
  unfold takeHash
  rw [takeCounted_encodeCounted hlen]
  dsimp only [bind, Except.bind]
  rw [BlockHash.ofBytes?_bytes]

theorem takeDifficulty_encodeCounted (d : Difficulty) (t : Bytes) :
    takeDifficulty (encodeCounted d.toBytes ++ t) = .ok (d, t) := by
  have hlen : d.toBytes.length < UInt64.size := by
    rw [show d.toBytes.length = 32 from Bytes.length_bigEndian 32 d.value]
    decide
  unfold takeDifficulty
  rw [takeCounted_encodeCounted hlen]
  dsimp only [bind, Except.bind]
  rw [Difficulty.ofBytes?_toBytes]

/-! ## §2. Whole blocks. -/

theorem takeBlock_encode {b : Block} (hb : b.Storable) (t : Bytes) :
    takeBlock (encode b ++ t) = .ok (b, t) := by
  unfold takeBlock encode
  simp only [List.append_assoc]
  rw [takeWord_encodeWord b.number.toNat_lt]
  simp only [bind, Except.bind, takeHash_encodeCounted, takeDifficulty_encodeCounted,
    takeCounted_encodeCounted hb, UInt64.ofNat_toNat]

/-- **A stored block reads back**, whatever bytes follow it. -/
theorem decode_encode_append {b : Block} (hb : b.Storable) (t : Bytes) :
    decode (encode b ++ t) = .ok b := by
  unfold decode
  rw [takeBlock_encode hb]
  rfl

theorem decode_encode {b : Block} (hb : b.Storable) : decode (encode b) = .ok b := by
  rw [← List.append_nil (encode b), decode_encode_append hb]

/-! ## §3. Whatever reads as a block can be stored. -/

/-- What eight bytes are read as fits into eight bytes. -/
theorem lt_of_takeWord {s t : Bytes} {n : Nat} (h : takeWord s = .ok (n, t)) :
    n < UInt64.size := by
  unfold takeWord at h
  split at h
  case isTrue => cases h
  case isFalse hs =>
    cases h
    have hlen : (s.take 8).length = 8 := by
      rw [List.length_take]
      omega
    have hlt := Bytes.ofLittleEndian_lt (s.take 8)
    rwa [hlen] at hlt

/-- What is read behind its length is no longer than a length can say. -/
theorem length_takeCounted {short : DecodeError} {s t bs : Bytes}
    (h : takeCounted short s = .ok (bs, t)) : bs.length < UInt64.size := by
  unfold takeCounted at h
  obtain ⟨⟨n, u⟩, hword, h⟩ := exists_of_bind_ok h
  have hn : n < UInt64.size := lt_of_takeWord hword
  dsimp only at h
  split at h
  · cases h
  · cases h
    rw [List.length_take]
    omega

theorem storable_of_decode {s : Bytes} {b : Block} (h : decode s = .ok b) : b.Storable := by
  unfold decode at h
  cases ht : takeBlock s with
  | error e =>
    rw [ht] at h
    cases h
  | ok r =>
    rw [ht] at h
    unfold takeBlock at ht
    obtain ⟨number, -, ht⟩ := exists_of_bind_ok ht
    obtain ⟨hash, -, ht⟩ := exists_of_bind_ok ht
    obtain ⟨parent, -, ht⟩ := exists_of_bind_ok ht
    obtain ⟨difficulty, -, ht⟩ := exists_of_bind_ok ht
    obtain ⟨payload, hpayload, ht⟩ := exists_of_bind_ok ht
    cases ht
    cases h
    exact length_takeCounted hpayload

end Block.Binary
end BlockSync
