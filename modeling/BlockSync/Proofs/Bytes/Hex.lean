/-
  BlockSync.Proofs.Bytes.Hex
  ──────────────────────────
  **PAIRS OF DIGITS AND THE BYTES THEY STAND FOR.**

  A reader of digits works on the bytes of a text and takes two of them at a time.  What is
  said of it here is said of the whole text: it reads exactly the texts of digits, in lower
  case they are what would be written again, and otherwise it finds the first byte that is
  no digit, wherever in a pair that stands.

  Main results:

      readPairs_encode         what was written is read again
      exists_readPairs         what is read of digits is written in lower case
      readPairs_eq_error_iff   the first byte that is no digit
-/
import BlockSync.Bytes.Hex

namespace BlockSync.Hex

/-! ## §1. The digits. -/

/-- The hexadecimal digits of either case. -/
def digits : List Char :=
  ['0', '1', '2', '3', '4', '5', '6', '7', '8', '9', 'a', 'b', 'c', 'd', 'e', 'f',
    'A', 'B', 'C', 'D', 'E', 'F']

/-- The digits as they are stored. -/
def digitBytes : Bytes := digits.map Char.toUInt8

/-- What holds for all numbers below 256 holds for all bytes. -/
theorem forall_byte {P : UInt8 → Prop} (h : ∀ n < 256, P (UInt8.ofNat n)) (b : UInt8) : P b := by
  have hb := h b.toNat b.toNat_lt
  rwa [UInt8.ofNat_toNat] at hb

/-- What holds for each digit can be told by trying them. -/
theorem forall_digit {P : Char → Prop} [DecidablePred P]
    (h : digits.all (fun c => decide (P c)) = true) : ∀ c ∈ digits, P c :=
  fun c hc => of_decide_eq_true (List.all_eq_true.mp h c hc)

/-- **Just the digits have a value.** -/
theorem value?_eq_none_iff (b : UInt8) : value? b = none ↔ b ∉ digitBytes :=
  forall_byte (P := fun b => value? b = none ↔ b ∉ digitBytes) (by decide +kernel) b

theorem exists_value {b : UInt8} (hb : b ∈ digitBytes) : ∃ v, value? b = some v := by
  cases hv : value? b with
  | none => exact absurd hb ((value?_eq_none_iff b).mp hv)
  | some v => exact ⟨v, rfl⟩

/-- A digit is the lower-case digit of its value, in lower case. -/
theorem digit_of_value {c : Char} {v : UInt8} (hc : c ∈ digits) (hv : value? c.toUInt8 = some v) :
    v.toNat < 16 ∧ digit v.toNat = c.toLower := by
  have hall := forall_digit (P := fun c => ((value? c.toUInt8).all fun v =>
    decide (v.toNat < 16 ∧ digit v.toNat = c.toLower)) = true) (by decide +kernel) c hc
  rw [hv] at hall
  exact of_decide_eq_true hall

theorem digit_mem {n : Nat} (h : n < 16) : digit n ∈ digits ∧ (digit n).toLower = digit n := by
  have hall : ∀ n < 16, digit n ∈ digits ∧ (digit n).toLower = digit n := by decide +kernel
  exact hall n h

theorem value?_digit {n : Nat} (h : n < 16) : value? (digit n).toUInt8 = some (UInt8.ofNat n) := by
  have hall : ∀ n < 16, value? (digit n).toUInt8 = some (UInt8.ofNat n) := by decide +kernel
  exact hall n h

/-! ## §2. Texts of digits. -/

theorem mem_digits_of_mem_encode {bs : Bytes} {c : Char} (h : c ∈ encode bs) :
    c ∈ digits ∧ c.toLower = c := by
  obtain ⟨b, -, hc⟩ := List.mem_flatMap.mp h
  have hb : b.toNat < 256 := b.toNat_lt
  rcases List.mem_cons.mp hc with rfl | hc
  · exact digit_mem (by omega)
  · rw [List.mem_singleton.mp hc]
    exact digit_mem (by omega)

theorem length_encode (bs : Bytes) : (encode bs).length = 2 * bs.length := by
  induction bs with
  | nil => rfl
  | cons b bs ih =>
    show (encode bs).length + 2 = 2 * (bs.length + 1)
    omega

/-- **What was written is read again.** -/
theorem readPairs_encode (bs : Bytes) :
    ∀ offset, readPairs offset ((encode bs).map Char.toUInt8) = .ok bs := by
  induction bs with
  | nil => intro offset; rfl
  | cons b bs ih =>
    intro offset
    have hb : b.toNat < 256 := b.toNat_lt
    have hbyte : 16 * UInt8.ofNat (b.toNat / 16) + UInt8.ofNat (b.toNat % 16) = b := by
      apply UInt8.toNat_inj.mp
      rw [UInt8.toNat_add, UInt8.toNat_mul, UInt8.toNat_ofNat', UInt8.toNat_ofNat']
      show (16 * _ % _ + _) % _ = _
      omega
    show readPairs offset ((digit (b.toNat / 16)).toUInt8 :: (digit (b.toNat % 16)).toUInt8
      :: (encode bs).map Char.toUInt8) = _
    unfold readPairs
    rw [value?_digit (by omega), value?_digit (by omega)]
    dsimp only
    rw [ih, hbyte]
    rfl

theorem encode_inj {as bs : Bytes} (h : encode as = encode bs) : as = bs := by
  have hread := readPairs_encode as 0
  rw [h, readPairs_encode bs 0] at hread
  exact (Except.ok.inj hread).symm

/-- **What is read of digits is written again in lower case.** -/
theorem exists_readPairs : ∀ {cs : List Char}, cs.length % 2 = 0 → (∀ c ∈ cs, c ∈ digits) →
    ∀ offset, ∃ bs, readPairs offset (cs.map Char.toUInt8) = .ok bs
      ∧ encode bs = cs.map Char.toLower
  | [], _, _, offset => ⟨[], rfl, rfl⟩
  | [c], hlen, _, _ => by cases hlen
  | c :: d :: cs, hlen, hcs, offset => by
    obtain ⟨hc, hd, hrest⟩ := List.forall_mem_cons.mp hcs |>.imp_right List.forall_mem_cons.mp
    obtain ⟨h, hh⟩ := exists_value (List.mem_map_of_mem (f := Char.toUInt8) hc)
    obtain ⟨l, hl⟩ := exists_value (List.mem_map_of_mem (f := Char.toUInt8) hd)
    obtain ⟨hlt, hhigh⟩ := digit_of_value hc hh
    obtain ⟨llt, hlow⟩ := digit_of_value hd hl
    have hlen' : cs.length % 2 = 0 := by
      rw [List.length_cons, List.length_cons] at hlen
      omega
    obtain ⟨bs, hread, hencode⟩ := exists_readPairs hlen' hrest (offset + 2)
    refine ⟨(16 * h + l) :: bs, ?_, ?_⟩
    · show readPairs offset (c.toUInt8 :: d.toUInt8 :: cs.map Char.toUInt8) = _
      unfold readPairs
      rw [hh, hl]
      dsimp only
      rw [hread]
      rfl
    · have hbyte : (16 * h + l).toNat = 16 * h.toNat + l.toNat := by
        rw [UInt8.toNat_add, UInt8.toNat_mul]
        show (16 * h.toNat % 256 + l.toNat) % 256 = _
        omega
      have hdiv : (16 * h + l).toNat / 16 = h.toNat := by omega
      have hmod : (16 * h + l).toNat % 16 = l.toNat := by omega
      show digit ((16 * h + l).toNat / 16) :: digit ((16 * h + l).toNat % 16) :: encode bs
        = c.toLower :: d.toLower :: cs.map Char.toLower
      rw [hdiv, hmod, hhigh, hlow, hencode]

/-! ## §3. The first byte that is no digit. -/

/-- It is found, as the first or the second of its pair. -/
theorem readPairs_of_split {b : UInt8} {after : Bytes} (hb : b ∉ digitBytes) :
    ∀ {before : Bytes}, (before ++ b :: after).length % 2 = 0 → (∀ d ∈ before, d ∈ digitBytes) →
      ∀ offset, readPairs offset (before ++ b :: after) = .error ⟨b, offset + before.length⟩
  | [], hlen, _, offset => by
    have hnone := (value?_eq_none_iff b).mpr hb
    cases after with
    | nil => cases hlen
    | cons d after =>
      show readPairs offset (b :: d :: after) = _
      unfold readPairs
      rw [hnone]
      rfl
  | [d], _, hd, offset => by
    have hnone := (value?_eq_none_iff b).mpr hb
    obtain ⟨v, hv⟩ := exists_value (hd d List.mem_cons_self)
    show readPairs offset (d :: b :: after) = _
    unfold readPairs
    rw [hnone, hv]
    rfl
  | d :: e :: before, hlen, hds, offset => by
    obtain ⟨hd, he, hrest⟩ := List.forall_mem_cons.mp hds |>.imp_right List.forall_mem_cons.mp
    obtain ⟨v, hv⟩ := exists_value hd
    obtain ⟨w, hw⟩ := exists_value he
    have hlen' : (before ++ b :: after).length % 2 = 0 := by
      rw [List.cons_append, List.cons_append, List.length_cons, List.length_cons] at hlen
      omega
    have hread := readPairs_of_split hb hlen' hrest (offset + 2)
    show readPairs offset (d :: e :: (before ++ b :: after)) = _
    unfold readPairs
    rw [hv, hw]
    dsimp only
    rw [hread]
    show Except.error (BadDigit.mk b (offset + 2 + before.length))
      = Except.error ⟨b, offset + (before.length + 2)⟩
    rw [Nat.add_assoc, Nat.add_comm 2]

/-- A text is all digits, or it has a first byte that is none. -/
theorem digits_or_split (bs : Bytes) : (∀ b ∈ bs, b ∈ digitBytes)
    ∨ ∃ before b after, bs = before ++ b :: after ∧ (∀ d ∈ before, d ∈ digitBytes)
      ∧ b ∉ digitBytes := by
  cases hfind : bs.find? (· ∉ digitBytes) with
  | none =>
    left
    intro b hb
    simpa using List.find?_eq_none.mp hfind b hb
  | some b =>
    obtain ⟨hb, before, after, hsplit, hbefore⟩ := List.find?_eq_some_iff_append.mp hfind
    exact Or.inr ⟨before, b, after, hsplit, by simpa using hbefore, by simpa using hb⟩

theorem exists_chars {bs : Bytes} (h : ∀ b ∈ bs, b ∈ digitBytes) :
    ∃ cs : List Char, bs = cs.map Char.toUInt8 ∧ ∀ c ∈ cs, c ∈ digits := by
  induction bs with
  | nil => exact ⟨[], rfl, nofun⟩
  | cons b bs ih =>
    obtain ⟨hb, hbs⟩ := List.forall_mem_cons.mp h
    obtain ⟨c, hc, rfl⟩ := List.mem_map.mp hb
    obtain ⟨cs, rfl, hcs⟩ := ih hbs
    exact ⟨c :: cs, rfl, List.forall_mem_cons.mpr ⟨hc, hcs⟩⟩

/-- **Of pairs that cannot be read the first byte is named that is no digit.** -/
theorem readPairs_eq_error_iff {bs : Bytes} (heven : bs.length % 2 = 0) (bad : BadDigit) :
    readPairs 0 bs = .error bad ↔ ∃ before after, bs = before ++ bad.byte :: after
      ∧ before.length = bad.offset ∧ (∀ b ∈ before, b ∈ digitBytes) ∧ bad.byte ∉ digitBytes := by
  constructor
  · intro hread
    rcases digits_or_split bs with hall | ⟨before, b, after, rfl, hbefore, hb⟩
    · obtain ⟨cs, rfl, hcs⟩ := exists_chars hall
      obtain ⟨v, hv, -⟩ := exists_readPairs (by rwa [List.length_map] at heven) hcs 0
      cases hread.symm.trans hv
    · rw [readPairs_of_split hb heven hbefore, Nat.zero_add] at hread
      cases hread
      exact ⟨before, after, rfl, rfl, hbefore, hb⟩
  · rintro ⟨before, after, rfl, hoffset, hbefore, hbad⟩
    rw [readPairs_of_split hbad heven hbefore, Nat.zero_add, hoffset]

end BlockSync.Hex
