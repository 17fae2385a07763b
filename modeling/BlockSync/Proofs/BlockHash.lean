/-
  BlockSync.Proofs.BlockHash
  ──────────────────────────
  **WHICH TEXTS ARE HASHES, AND WHICH HASHES THEY ARE.**

  The text of a hash is read as bytes, but what is said of it here is said of its
  characters: with a marker in front or without, it is 64 digits of either case, and the
  digits in lower case are the text that the hash has (`parse_eq_ok_iff`).  A text that is
  refused is refused for one reason, and each reason is told from the bytes behind the
  marker (`parseBytes_eq_error_iff`).

  A JSON string is read by another reader, which takes one marker more.  It has nothing to
  say about texts that were accepted here (`ofJson?_of_parse`).
-/
import BlockSync.Block.Json
import BlockSync.Proofs.Block.Binary
import BlockSync.Proofs.Bytes.Hex
import BlockSync.Proofs.Json.Strings

namespace BlockSync.BlockHash

/-! ## §1. Characters and their bytes. -/

/-- A character of ASCII is one byte. -/
theorem utf8EncodeChar_of_ascii {c : Char} (hc : c.toNat < 128) :
    String.utf8EncodeChar c = [c.toUInt8] := by
  have hsmall : c.val.toNat ≤ 127 := Nat.le_of_lt_succ hc
  unfold String.utf8EncodeChar
  dsimp only
  rw [if_pos hsmall]
  rfl

theorem ascii_of_digit : ∀ c ∈ Hex.digits, c.toNat < 128 := Hex.forall_digit (by decide +kernel)

/-- Each digit is one byte. -/
theorem textBytes_of_digits {cs : List Char} (h : ∀ c ∈ cs, c ∈ Hex.digits) :
    textBytes cs = cs.map Char.toUInt8 := by
  induction cs with
  | nil => rfl
  | cons c cs ih =>
    obtain ⟨hc, hcs⟩ := List.forall_mem_cons.mp h
    show String.utf8EncodeChar c ++ textBytes cs = c.toUInt8 :: cs.map Char.toUInt8
    rw [utf8EncodeChar_of_ascii (ascii_of_digit c hc), ih hcs]
    rfl

/-- A character outside of ASCII begins with a byte outside of it. -/
theorem exists_high_byte {c : Char} (hc : 128 ≤ c.toNat) :
    ∃ b ∈ String.utf8EncodeChar c, 128 ≤ b.toNat := by
  have hlarge : ¬ c.val.toNat ≤ 127 := Nat.not_le.mpr hc
  unfold String.utf8EncodeChar
  dsimp only
  rw [if_neg hlarge]
  split
  · refine ⟨_, List.mem_cons_self, ?_⟩
    rw [UInt8.toNat_ofNat']
    omega
  · split
    · refine ⟨_, List.mem_cons_self, ?_⟩
      rw [UInt8.toNat_ofNat']
      omega
    · refine ⟨_, List.mem_cons_self, ?_⟩
      rw [UInt8.toNat_ofNat']
      omega

/-- So a text whose bytes are digits is a text of digits. -/
theorem mem_digits_of_textBytes {cs : List Char} (h : ∀ b ∈ textBytes cs, b ∈ Hex.digitBytes) :
    ∀ c ∈ cs, c ∈ Hex.digits := by
  have hvalue : ∀ d : Char, d.toNat < 128 → d.toUInt8.toNat = d.toNat := by
    intro d hd
    show d.toNat % 256 = d.toNat
    omega
  intro c hc
  have hbytes : ∀ b ∈ String.utf8EncodeChar c, b ∈ Hex.digitBytes :=
    fun b hb => h b (List.mem_flatMap.mpr ⟨c, hc, hb⟩)
  rcases Nat.lt_or_ge c.toNat 128 with hlt | hge
  · rw [utf8EncodeChar_of_ascii hlt] at hbytes
    obtain ⟨d, hd, heq⟩ := List.mem_map.mp (hbytes _ (List.mem_singleton_self _))
    have hsame : d.toNat = c.toNat := by
      rw [← hvalue d (ascii_of_digit d hd), heq, hvalue c hlt]
    rw [← Char.toNat_inj.mp hsame]
    exact hd
  · obtain ⟨b, hb, hhigh⟩ := exists_high_byte hge
    obtain ⟨d, hd, rfl⟩ := List.mem_map.mp (hbytes b hb)
    have hlow := ascii_of_digit d hd
    rw [hvalue d hlow] at hhigh
    omega

/-! ## §2. The bytes behind the marker. -/

/-- A text of 64 digits, of either case. -/
def Digits64 (s : List Char) : Prop := s.length = 64 ∧ ∀ c ∈ s, c ∈ Hex.digits

theorem digits64_digits (h : BlockHash) : Digits64 h.digits := by
  refine ⟨?_, fun c hc => (Hex.mem_digits_of_mem_encode hc).1⟩
  show (Hex.encode h.bytes).length = 64
  rw [Hex.length_encode, h.length_eq]

/-- The text of a hash is in lower case. -/
theorem map_toLower_digits (h : BlockHash) : h.digits.map Char.toLower = h.digits := by
  refine (List.map_congr_left fun c hc => ?_).trans (List.map_id _)
  exact (Hex.mem_digits_of_mem_encode hc).2

theorem digits_inj {g h : BlockHash} (heq : g.digits = h.digits) : g = h := by
  have hbytes : g.bytes = h.bytes := Hex.encode_inj heq
  cases g
  cases h
  cases hbytes
  rfl

/-- **In 64 digits a hash can be read**, and it is written in lower case. -/
theorem exists_readPairs {s : List Char} (hs : Digits64 s) :
    ∃ h : BlockHash, (textBytes s).length = 64 ∧ Hex.readPairs 0 (textBytes s) = .ok h.bytes
      ∧ h.digits = s.map Char.toLower := by
  obtain ⟨hlen, hdigits⟩ := hs
  obtain ⟨bs, hread, hencode⟩ := Hex.exists_readPairs (by rw [hlen]) hdigits 0
  have hwidth : bs.length = 32 := by
    have := congrArg List.length hencode
    rw [Hex.length_encode, List.length_map] at this
    omega
  rw [textBytes_of_digits hdigits, List.length_map]
  exact ⟨⟨bs, hwidth⟩, hlen, hread, hencode⟩

theorem parseBytes_of_read {bs : Bytes} {h : BlockHash} (hlen : bs.length = 64)
    (hread : Hex.readPairs 0 bs = .ok h.bytes) : parseBytes bs = .ok h := by
  unfold parseBytes
  rw [hlen, if_neg (by decide), if_neg (by decide), hread]
  dsimp only
  rw [ofBytes?_bytes]

/-- **What becomes of the bytes behind a marker**: they have the wrong length, they have a
first byte that is no digit, or they are 64 digits. -/
theorem parseBytes_cases (s : List Char) :
    ((textBytes s).length % 2 = 1 ∧ parseBytes (textBytes s) = .error .oddLength)
    ∨ ((textBytes s).length % 2 = 0 ∧ (textBytes s).length ≠ 64
      ∧ parseBytes (textBytes s) = .error .wrongLength)
    ∨ ((textBytes s).length = 64 ∧ ∃ bad, Hex.readPairs 0 (textBytes s) = .error bad
      ∧ parseBytes (textBytes s) = .error (.badDigit bad))
    ∨ ∃ h, (textBytes s).length = 64 ∧ Digits64 s ∧ Hex.readPairs 0 (textBytes s) = .ok h.bytes
      ∧ h.digits = s.map Char.toLower ∧ parseBytes (textBytes s) = .ok h := by
  by_cases hodd : (textBytes s).length % 2 = 1
  · exact Or.inl ⟨hodd, if_pos hodd⟩
  by_cases hlen : (textBytes s).length = 64
  · rcases Hex.digits_or_split (textBytes s) with hall | ⟨before, b, after, hsplit, hbefore, hb⟩
    · have hdigits := mem_digits_of_textBytes hall
      have hcount := hlen
      rw [textBytes_of_digits hdigits, List.length_map] at hcount
      obtain ⟨h, -, hread, htext⟩ := exists_readPairs ⟨hcount, hdigits⟩
      exact Or.inr (Or.inr (Or.inr
        ⟨h, hlen, ⟨hcount, hdigits⟩, hread, htext, parseBytes_of_read hlen hread⟩))
    · have hread : Hex.readPairs 0 (textBytes s) = .error ⟨b, before.length⟩ :=
        (Hex.readPairs_eq_error_iff (by rw [hlen]) _).mpr
          ⟨before, after, hsplit, rfl, hbefore, hb⟩
      refine Or.inr (Or.inr (Or.inl ⟨hlen, _, hread, ?_⟩))
      unfold parseBytes
      rw [if_neg hodd, if_neg fun hne => hne hlen, hread]
  · have heven : (textBytes s).length % 2 = 0 := by omega
    exact Or.inr (Or.inl ⟨heven, hlen, (if_neg hodd).trans (if_pos hlen)⟩)

/-- **Each refusal has one reason**, and it is told from the bytes. -/
theorem parseBytes_eq_error_iff (s : List Char) :
    (parseBytes (textBytes s) = .error .oddLength ↔ (textBytes s).length % 2 = 1)
      ∧ (parseBytes (textBytes s) = .error .wrongLength
        ↔ (textBytes s).length % 2 = 0 ∧ (textBytes s).length ≠ 64)
      ∧ ∀ bad, parseBytes (textBytes s) = .error (.badDigit bad)
        ↔ (textBytes s).length = 64 ∧ Hex.readPairs 0 (textBytes s) = .error bad := by
  rcases parseBytes_cases s with
    ⟨hodd, hp⟩ | ⟨heven, hlen, hp⟩ | ⟨hlen, bad, hread, hp⟩ | ⟨h, hlen, -, hread, -, hp⟩
  · have hlen : (textBytes s).length ≠ 64 := by omega
    rw [hp]
    exact ⟨by simp [hodd], by simp [hodd], fun bad => by simp [hlen]⟩
  · rw [hp]
    exact ⟨by simp [heven], by simp [heven, hlen], fun bad => by simp [hlen]⟩
  · rw [hp, hread]
    exact ⟨by simp [hlen], by simp [hlen], fun bad => by simp [hlen]⟩
  · rw [hp, hread]
    exact ⟨by simp [hlen], by simp [hlen], fun bad => by simp⟩

/-! ## §3. Markers. -/

/-- At most one marker is dropped, and nothing else. -/
theorem dropMarker_cases (s : List Char) :
    s = '0' :: 'x' :: dropMarker s ∨ dropMarker s = s ∧ ¬ ['0', 'x'] <+: s := by
  unfold dropMarker
  split
  next rest => exact Or.inl rfl
  next hno =>
    refine Or.inr ⟨rfl, ?_⟩
    rintro ⟨rest, rfl⟩
    exact hno rest rfl

/-- Digits have no marker in front of them, of whichever case. -/
theorem dropAnyMarker_of_digits {s : List Char} (h : ∀ c ∈ s, c ∈ Hex.digits) :
    dropAnyMarker s = s := by
  unfold dropAnyMarker
  split
  next => exact absurd (h 'x' (by simp)) (by decide)
  next => exact absurd (h 'X' (by simp)) (by decide)
  next => rfl

theorem dropMarker_of_digits {s : List Char} (h : ∀ c ∈ s, c ∈ Hex.digits) :
    dropMarker s = s := by
  unfold dropMarker
  split
  next => exact absurd (h 'x' (by simp)) (by decide)
  next => rfl

/-! ## §4. Texts. -/

/-- **A text is a hash exactly if it has 64 digits behind its marker**, and it is the hash
that has these digits, in lower case, as its text. -/
theorem parse_eq_ok_iff (s : String) (h : BlockHash) :
    parse s = .ok h ↔ Digits64 (dropMarker s.toList)
      ∧ h.digits = (dropMarker s.toList).map Char.toLower := by
  constructor
  · intro hparse
    rcases parseBytes_cases (dropMarker s.toList) with
      ⟨-, hodd⟩ | ⟨-, -, hlong⟩ | ⟨-, bad, -, hbad⟩ | ⟨g, -, hdigits, -, htext, hok⟩
    · cases hparse.symm.trans hodd
    · cases hparse.symm.trans hlong
    · cases hparse.symm.trans hbad
    · cases hparse.symm.trans hok
      exact ⟨hdigits, htext⟩
  · rintro ⟨hdigits, htext⟩
    obtain ⟨g, hlen, hread, hgtext⟩ := exists_readPairs hdigits
    rw [digits_inj (htext.trans hgtext.symm)]
    exact parseBytes_of_read hlen hread

/-- The reader of JSON strings takes the same digits, behind a marker of either case. -/
theorem ofDigits?_of_digits64 {s : List Char} {h : BlockHash}
    (hs : Digits64 (dropAnyMarker s)) (htext : h.digits = (dropAnyMarker s).map Char.toLower) :
    ofDigits? s = some h := by
  obtain ⟨g, hlen, hread, hgtext⟩ := exists_readPairs hs
  obtain rfl : h = g := digits_inj (htext.trans hgtext.symm)
  unfold ofDigits? Hex.decode?
  rw [hlen, if_pos (by decide), hread]
  exact ofBytes?_bytes h

/-- **Texts that are hashes are hashes in JSON too**, between quotes. -/
theorem ofJson?_of_parse {s : String} {h : BlockHash} (hparse : parse s = .ok h) :
    (Json.parse? ('"' :: s.toList ++ ['"'])).bind ofJson? = some h := by
  have hplain : ∀ c ∈ Hex.digits, Json.Plain c := Hex.forall_digit (by decide +kernel)
  obtain ⟨hdigits, htext⟩ := (parse_eq_ok_iff s h).mp hparse
  have hmarker : dropAnyMarker s.toList = dropMarker s.toList ∧ ∀ c ∈ s.toList, Json.Plain c := by
    rcases dropMarker_cases s.toList with hsplit | ⟨hsame, -⟩
    · rw [hsplit]
      refine ⟨rfl, List.forall_mem_cons.mpr ⟨by decide, List.forall_mem_cons.mpr ⟨by decide, ?_⟩⟩⟩
      exact fun c hc => hplain c (hdigits.2 c hc)
    · have hall := hdigits.2
      rw [hsame] at hall ⊢
      exact ⟨dropAnyMarker_of_digits hall, fun c hc => hplain c (hall c hc)⟩
  rw [Json.parse?_quoted hmarker.2]
  show ofDigits? s.toList = some h
  rw [← hmarker.1] at hdigits htext
  exact ofDigits?_of_digits64 hdigits htext

/-- **HASHES ARE READ EXACTLY.**  A text has one marker in front or none.  Behind it there
are 64 digits of either case, and then it is the hash that has these digits in lower case as
its text; so what a hash is written as is read as this hash, with a marker and without.  Or
it is refused, for the first reason that holds of the bytes behind the marker: their number
is odd, it is not 64, or a byte is no digit, and then the first of these is named with its
place.  A text that is not refused is the same hash as a JSON string. -/
theorem parse_exact :
    (∀ s : String,
      let rest := dropMarker s.toList
      (s.toList = '0' :: 'x' :: rest ∨ rest = s.toList ∧ ¬ ['0', 'x'] <+: s.toList)
      ∧ ((∃ h, parse s = .ok h) ↔ Digits64 rest)
      ∧ (∀ h, parse s = .ok h ↔ Digits64 rest ∧ h.text = String.ofList (rest.map Char.toLower))
      ∧ (parse s = .error .oddLength ↔ (textBytes rest).length % 2 = 1)
      ∧ (parse s = .error .wrongLength
        ↔ (textBytes rest).length % 2 = 0 ∧ (textBytes rest).length ≠ 64)
      ∧ (∀ bad, parse s = .error (.badDigit bad) ↔ (textBytes rest).length = 64
        ∧ ∃ before after, textBytes rest = before ++ bad.byte :: after
          ∧ before.length = bad.offset
          ∧ (∀ b ∈ before, b ∈ Hex.digitBytes) ∧ bad.byte ∉ Hex.digitBytes)
      ∧ ∀ h, parse s = .ok h → (Json.parse? ('"' :: s.toList ++ ['"'])).bind ofJson? = some h)
    ∧ ∀ h : BlockHash, parse h.text = .ok h ∧ parse ("0x" ++ h.text) = .ok h := by
  refine ⟨fun s => ?_, fun h => ?_⟩
  · intro rest
    have htext : ∀ h : BlockHash,
        h.digits = rest.map Char.toLower ↔ h.text = String.ofList (rest.map Char.toLower) :=
      fun h => String.ofList_inj.symm
    obtain ⟨hodd, hlong, hbad⟩ := parseBytes_eq_error_iff rest
    refine ⟨dropMarker_cases s.toList, ⟨?_, ?_⟩, fun h => ?_, hodd, hlong, fun bad => ?_,
      fun h => ofJson?_of_parse⟩
    · rintro ⟨h, hparse⟩
      exact ((parse_eq_ok_iff s h).mp hparse).1
    · intro hdigits
      obtain ⟨h, hlen, hread, -⟩ := exists_readPairs hdigits
      exact ⟨h, parseBytes_of_read hlen hread⟩
    · rw [← htext]
      exact parse_eq_ok_iff s h
    · refine (hbad bad).trans (and_congr_right fun hlen => ?_)
      exact Hex.readPairs_eq_error_iff (by rw [hlen]) bad
  · have hdigits := h.digits64_digits
    have hplain : h.text.toList = h.digits := String.toList_ofList
    have hmarked : ("0x" ++ h.text).toList = '0' :: 'x' :: h.digits := by
      rw [String.toList_append, hplain]
      rfl
    rw [parse_eq_ok_iff, parse_eq_ok_iff, hplain, hmarked, dropMarker_of_digits hdigits.2]
    exact ⟨⟨hdigits, h.map_toLower_digits.symm⟩, ⟨hdigits, h.map_toLower_digits.symm⟩⟩

end BlockSync.BlockHash
