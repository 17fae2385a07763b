/-
  BlockSync.Proofs.Block.Json
  ───────────────────────────
  **THE JSON FORM OF A BLOCK READS BACK.**

  A block is written as an object of five members, each of which writes one field.  What a
  reader needs of a text are the values of the members, so it reads the same block from

      an object    the five members in any order, among members of other names
      an array     the five values in the order of the fields

  with blanks wherever they may stand, and an empty payload need not be there.  A reader
  takes no object with a name that is missing or given twice.

  Which texts write an object or an array is said by `Json.Written`, apart from any reader;
  the text of a block is one of them (`written_toJsonChars`).

  Main results:

      parse?_hexadecimal     a difficulty reads back from its digits
      ofJson?_named          the members of a block, in any order, are the block
      names_of_ofJson?       the names that an object has from which a block is read
      written_toJsonChars    the text of a block writes its members
      json_reads_back        all of it, for texts
-/
import BlockSync.Proofs.BlockHash
import BlockSync.Proofs.Json.Grammar

namespace BlockSync

/-! ## §1. The five values. -/

namespace Difficulty

theorem readDigits_append (base : Nat) (s t : List Char) :
    ∀ n, readDigits base n (s ++ t) = (readDigits base n s).bind fun m => readDigits base m t := by
  induction s with
  | nil => intro n; rfl
  | cons c s ih =>
    intro n
    rw [List.cons_append, readDigits, readDigits]
    split
    · exact ih n
    · split
      · split
        · exact ih _
        · rfl
      · rfl

/-- A hexadecimal digit is read as its value. -/
theorem readDigits_digitChar (n : Nat) {k : Nat} (hk : k < 16) :
    readDigits 16 n [k.digitChar] = some (16 * n + k) := by
  have hvalue : ∀ k < 16, k.digitChar ≠ '_' ∧ digitValue? k.digitChar = some k := by decide
  obtain ⟨hmark, hdigit⟩ := hvalue k hk
  unfold readDigits
  rw [if_neg hmark, hdigit]
  dsimp only
  rw [if_pos hk]
  rfl

theorem readDigits_toDigits (n : Nat) : readDigits 16 0 (Nat.toDigits 16 n) = some n := by
  induction n using Nat.strongRecOn with
  | ind n ih =>
    rcases Nat.lt_or_ge n 16 with hlt | hge
    · rw [Nat.toDigits_of_lt_base hlt, readDigits_digitChar 0 hlt, Nat.mul_zero, Nat.zero_add]
    · rw [Nat.toDigits_of_base_le (by decide) hge, readDigits_append, ih (n / 16) (by omega),
        Option.bind_some, readDigits_digitChar _ (Nat.mod_lt n (by decide)), Nat.div_add_mod]

/-- **A difficulty reads back** from its hexadecimal digits. -/
theorem parse?_hexadecimal (d : Difficulty) : parse? d.hexadecimal = some d := by
  show (readDigits 16 0 (Nat.toDigits 16 d.value)).bind ofNat? = some d
  rw [readDigits_toDigits]
  exact dif_pos d.lt

end Difficulty

namespace Json

theorem word?_toNat (w : UInt64) : word? (.number (some w.toNat)) = some w := by
  show (if w.toNat < UInt64.size then some (UInt64.ofNat w.toNat) else none) = some w
  rw [if_pos w.toNat_lt_size, UInt64.ofNat_toNat]

theorem byte?_toNat (v : UInt8) : byte? (.number (some v.toNat)) = some v := by
  show (if v.toNat < UInt8.size then some (UInt8.ofNat v.toNat) else none) = some v
  rw [if_pos v.toNat_lt_size, UInt8.ofNat_toNat]

theorem bytes?_map_toNat (bs : Bytes) :
    bytes? (.array (bs.map fun v => .number (some v.toNat))) = some bs := by
  show (bs.map fun v => Json.number (some v.toNat)).mapM byte? = some bs
  induction bs with
  | nil => rfl
  | cons v bs ih =>
    rw [List.map_cons, List.mapM_cons, byte?_toNat, ih]
    rfl

end Json

theorem BlockHash.ofDigits?_marked (h : BlockHash) :
    ofDigits? ('0' :: 'x' :: h.digits) = some h :=
  ofDigits?_of_digits64 h.digits64_digits h.map_toLower_digits.symm

namespace Block

/-- The four members without which there is no block. -/
def coreMembers (b : Block) : List (List Char × Json) :=
  [("number".toList, .number (some b.number.toNat)),
    ("hash".toList, .string (some ('0' :: 'x' :: b.hash.digits))),
    ("parentHash".toList, .string (some ('0' :: 'x' :: b.parent.digits))),
    ("totalDifficulty".toList, .string (some b.difficulty.hexadecimal))]

/-- The member for the payload. -/
def payloadMember (b : Block) : List Char × Json :=
  ("payload".toList, .array (b.payload.map fun v => .number (some v.toNat)))

/-- **The five members of a block**, in the order of its fields. -/
def members (b : Block) : List (List Char × Json) := b.coreMembers ++ [b.payloadMember]

/-- The names of the members without which there is no block. -/
def coreNames : List (List Char) :=
  ["number".toList, "hash".toList, "parentHash".toList, "totalDifficulty".toList]

/-- The names that a reader knows. -/
def knownNames : List (List Char) := coreNames ++ ["payload".toList]

theorem payloadOf?_member (b : Block) : payloadOf? [b.payloadMember.2] = some b.payload :=
  Json.bytes?_map_toNat b.payload

/-- The values of the members are the fields. -/
theorem ofValues?_members (b : Block) {payload : List Json}
    (h : payloadOf? payload = some b.payload) :
    ofValues? (.number (some b.number.toNat)) (.string (some ('0' :: 'x' :: b.hash.digits)))
      (.string (some ('0' :: 'x' :: b.parent.digits)))
      (.string (some b.difficulty.hexadecimal)) payload = some b := by
  unfold ofValues?
  rw [Json.word?_toNat]
  dsimp only [BlockHash.ofJson?, Difficulty.ofJson?]
  rw [BlockHash.ofDigits?_marked, BlockHash.ofDigits?_marked, Difficulty.parse?_hexadecimal, h]
  rfl

end Block

/-! ## §2. Objects and arrays. -/

/-- An object whose names all denote characters. -/
def Json.named (members : List (List Char × Json)) : Json :=
  .object (members.map fun m => (some m.1, m.2))

theorem Json.named?_map (members : List (List Char × Json)) :
    named? (members.map fun m => (some m.1, m.2)) = some members := by
  unfold named?
  induction members with
  | nil => rfl
  | cons m members ih =>
    rw [List.map_cons, List.mapM_cons, ih]
    rfl

/-- What has names that denote characters is made of them. -/
theorem Json.eq_map_of_named? {ms : List (Option (List Char) × Json)} :
    ∀ {members : List (List Char × Json)}, named? ms = some members →
      ms = members.map fun m => (some m.1, m.2) := by
  unfold named?
  induction ms with
  | nil =>
    intro members h
    cases h
    rfl
  | cons m ms ih =>
    intro members h
    rw [List.mapM_cons] at h
    obtain ⟨first, hfirst, h⟩ := Option.bind_eq_some_iff.mp h
    obtain ⟨others, hothers, h⟩ := Option.bind_eq_some_iff.mp h
    cases h
    obtain ⟨name, hname, rfl⟩ := Option.map_eq_some_iff.mp hfirst
    rw [List.map_cons, ← ih hothers]
    exact congrArg (· :: ms) (Prod.ext hname rfl)

namespace Block

/-- Among the members of an object, those that the reader knows. -/
def knownAmong (members : List (List Char × Json)) : List (List Char × Json) :=
  members.filter fun m => m.1 ∈ knownNames

/-- Members of other names do not matter, and neither does the order. -/
theorem valuesOf_perm {members fields : List (List Char × Json)}
    (h : (knownAmong members).Perm fields) {name : List Char} (hname : name ∈ knownNames) :
    (Json.valuesOf name members).Perm (Json.valuesOf name fields) := by
  have hknown : members.filter (fun m => m.1 = name)
      = (knownAmong members).filter fun m => m.1 = name := by
    unfold knownAmong
    rw [List.filter_filter]
    refine List.filter_congr fun m _ => ?_
    by_cases hm : m.1 = name
    · simp [hm, hname]
    · simp [hm]
  unfold Json.valuesOf
  rw [hknown]
  exact (h.filter _).map _

theorem onlyMember?_of_perm {members fields : List (List Char × Json)}
    (h : (knownAmong members).Perm fields) {name : String} (hname : name.toList ∈ knownNames)
    {value : Json} (hvalue : Json.valuesOf name.toList fields = [value]) :
    onlyMember? name members = some value := by
  have hperm := valuesOf_perm h hname
  rw [hvalue, List.perm_singleton] at hperm
  unfold onlyMember?
  rw [hperm]

theorem ofJson?_of_only {b : Block} {members : List (List Char × Json)}
    (hnumber : onlyMember? "number" members = some (.number (some b.number.toNat)))
    (hhash : onlyMember? "hash" members = some (.string (some ('0' :: 'x' :: b.hash.digits))))
    (hparent : onlyMember? "parentHash" members
      = some (.string (some ('0' :: 'x' :: b.parent.digits))))
    (hdifficulty : onlyMember? "totalDifficulty" members
      = some (.string (some b.difficulty.hexadecimal)))
    (hpayload : payloadOf? (Json.valuesOf "payload".toList members) = some b.payload) :
    ofJson? (Json.named members) = some b := by
  unfold Json.named ofJson?
  dsimp only
  rw [Json.named?_map, Option.bind_eq_bind, Option.bind_some, hnumber, Option.bind_eq_bind,
    Option.bind_some, hhash, Option.bind_some, hparent, Option.bind_some, hdifficulty]
  exact b.ofValues?_members hpayload

/-- **A block is read from its members in any order**, among members of other names.  An
empty payload need not be there. -/
theorem ofJson?_named {b : Block} {members : List (List Char × Json)}
    (h : (knownAmong members).Perm b.members
      ∨ b.payload = [] ∧ (knownAmong members).Perm b.coreMembers) :
    ofJson? (Json.named members) = some b := by
  rcases h with hperm | ⟨hempty, hperm⟩
  · refine ofJson?_of_only (onlyMember?_of_perm hperm (by decide) rfl)
      (onlyMember?_of_perm hperm (by decide) rfl) (onlyMember?_of_perm hperm (by decide) rfl)
      (onlyMember?_of_perm hperm (by decide) rfl) ?_
    have hpayload : (Json.valuesOf "payload".toList members).Perm [b.payloadMember.2] :=
      valuesOf_perm hperm (by decide)
    rw [List.perm_singleton.mp hpayload]
    exact b.payloadOf?_member
  · refine ofJson?_of_only (onlyMember?_of_perm hperm (by decide) rfl)
      (onlyMember?_of_perm hperm (by decide) rfl) (onlyMember?_of_perm hperm (by decide) rfl)
      (onlyMember?_of_perm hperm (by decide) rfl) ?_
    have hpayload : (Json.valuesOf "payload".toList members).Perm [] :=
      valuesOf_perm hperm (by decide)
    rw [List.perm_nil.mp hpayload, hempty]
    rfl

/-- A block is read from the array of its values. -/
theorem ofJson?_array (b : Block) :
    ofJson? (.array (b.members.map Prod.snd)) = some b
      ∧ (b.payload = [] → ofJson? (.array (b.coreMembers.map Prod.snd)) = some b) := by
  refine ⟨b.ofValues?_members b.payloadOf?_member, fun hempty => b.ofValues?_members ?_⟩
  rw [hempty]
  rfl

/-- How often a name is given to a member. -/
def occurrences (name : List Char) (ms : List (Option (List Char) × Json)) : Nat :=
  ms.countP fun m => m.1 = some name

theorem length_valuesOf (name : List Char) (members : List (List Char × Json)) :
    (Json.valuesOf name members).length
      = occurrences name (members.map fun m => (some m.1, m.2)) := by
  unfold Json.valuesOf occurrences
  rw [List.length_map, ← List.countP_eq_length_filter, List.countP_map]
  refine List.countP_congr fun m _ => ?_
  simp

theorem length_of_onlyMember? {name : String} {members : List (List Char × Json)} {value : Json}
    (h : onlyMember? name members = some value) :
    (Json.valuesOf name.toList members).length = 1 := by
  unfold onlyMember? at h
  split at h
  next heq => rw [heq]; rfl
  next => cases h

theorem length_of_payloadOf? {values : List Json} {payload : Bytes}
    (h : payloadOf? values = some payload) : values.length ≤ 1 := by
  unfold payloadOf? at h
  split at h
  · exact Nat.zero_le 1
  · exact Nat.le_refl 1
  · cases h

/-- **What an object has that is read as a block**: names that denote characters, the four
names once each, and the payload at most once. -/
theorem names_of_ofJson? {ms : List (Option (List Char) × Json)} {b : Block}
    (h : ofJson? (.object ms) = some b) :
    (∀ m ∈ ms, m.1 ≠ none) ∧ (∀ name ∈ coreNames, occurrences name ms = 1)
      ∧ occurrences "payload".toList ms ≤ 1 := by
  unfold ofJson? at h
  obtain ⟨members, hnamed, h⟩ := Option.bind_eq_some_iff.mp h
  obtain ⟨number, hnumber, h⟩ := Option.bind_eq_some_iff.mp h
  obtain ⟨hash, hhash, h⟩ := Option.bind_eq_some_iff.mp h
  obtain ⟨parent, hparent, h⟩ := Option.bind_eq_some_iff.mp h
  obtain ⟨difficulty, hdifficulty, h⟩ := Option.bind_eq_some_iff.mp h
  unfold ofValues? at h
  obtain ⟨_, -, h⟩ := Option.bind_eq_some_iff.mp h
  obtain ⟨_, -, h⟩ := Option.bind_eq_some_iff.mp h
  obtain ⟨_, -, h⟩ := Option.bind_eq_some_iff.mp h
  obtain ⟨_, -, h⟩ := Option.bind_eq_some_iff.mp h
  obtain ⟨payload, hpayload, -⟩ := Option.bind_eq_some_iff.mp h
  rw [Json.eq_map_of_named? hnamed]
  refine ⟨fun m hm => ?_, fun name hname => ?_, ?_⟩
  · obtain ⟨m, -, rfl⟩ := List.mem_map.mp hm
    exact Option.some_ne_none _
  · rw [← length_valuesOf]
    have hcases : name = "number".toList ∨ name = "hash".toList ∨ name = "parentHash".toList
        ∨ name = "totalDifficulty".toList := by simpa [coreNames] using hname
    rcases hcases with rfl | rfl | rfl | rfl
    · exact length_of_onlyMember? hnumber
    · exact length_of_onlyMember? hhash
    · exact length_of_onlyMember? hparent
    · exact length_of_onlyMember? hdifficulty
  · rw [← length_valuesOf]
    exact length_of_payloadOf? hpayload

end Block

/-! ## §3. What is written. -/

namespace Json

/-- A value needs no blanks around it. -/
theorem Written.bare {j : Json} {s : List Char} (h : Written (.value j) s) :
    Written (.element j) s := by
  have hblank : Blank [] := fun c hc => nomatch hc
  have helement := Written.element hblank h hblank
  rw [List.append_nil] at helement
  exact helement

theorem written_decimal (n : Nat) :
    Written (.value (.number (some n))) (Block.decimalDigits n) :=
  .number (numberText_decimal n)

theorem written_quoted {cs : List Char} (h : ∀ c ∈ cs, Plain c) :
    Written (.value (.string (some cs))) (Block.quoted cs) := by
  have hstring := Written.string (.of_plain h)
  rw [joinUnits?_map_char] at hstring
  exact hstring

/-- A member without a blank. -/
theorem written_member {name s : List Char} {j : Json} (hname : ∀ c ∈ name, Plain c)
    (h : Written (.value j) s) :
    Written (.member (some name, j)) ('"' :: (name ++ '"' :: ':' :: s)) := by
  have hblank : Blank [] := fun c hc => nomatch hc
  have hmember := Written.member hblank (.of_plain hname) hblank h.bare
  rw [joinUnits?_map_char] at hmember
  exact hmember

/-- The bytes of a payload, with commas in between. -/
theorem written_bytes (v : UInt8) (bs : Bytes) :
    Written (.items ((v :: bs).map fun v => .number (some v.toNat)))
      (List.intercalate [','] ((v :: bs).map fun v => Block.decimalDigits v.toNat)) := by
  induction bs generalizing v with
  | nil =>
    rw [List.map_singleton, List.map_singleton, List.intercalate_singleton]
    exact .lastItem (written_decimal _).bare
  | cons w bs ih =>
    rw [List.map_cons, List.map_cons, List.map_cons, List.map_cons,
      List.intercalate_cons_cons, List.append_assoc]
    exact .items (written_decimal _).bare (ih w)

theorem written_payload (bs : Bytes) :
    Written (.value (.array (bs.map fun v => .number (some v.toNat))))
      ('[' :: (List.intercalate [','] (bs.map fun v => Block.decimalDigits v.toNat) ++ [']'])) := by
  cases bs with
  | nil => exact .emptyArray fun c hc => nomatch hc
  | cons v bs => exact .array (written_bytes v bs)

end Json

namespace Block

theorem plain_digits (h : BlockHash) : ∀ c ∈ '0' :: 'x' :: h.digits, Json.Plain c := by
  have hdigit : ∀ c ∈ Hex.digits, Json.Plain c := Hex.forall_digit (by decide +kernel)
  refine List.forall_mem_cons.mpr ⟨by decide, List.forall_mem_cons.mpr ⟨by decide, ?_⟩⟩
  exact fun c hc => hdigit c (h.digits64_digits.2 c hc)

theorem plain_hexadecimal (d : Difficulty) : ∀ c ∈ d.hexadecimal, Json.Plain c := by
  have hdigit : ∀ k < 16, Json.Plain k.digitChar := by decide
  refine List.forall_mem_cons.mpr ⟨by decide, List.forall_mem_cons.mpr ⟨by decide, ?_⟩⟩
  intro c hc
  obtain ⟨k, hk, rfl⟩ := Json.exists_digitChar_of_mem (by decide) d.value hc
  exact hdigit k hk

theorem plain_knownNames : ∀ name ∈ knownNames, ∀ c ∈ name, Json.Plain c := by
  have hall : ∀ c ∈ knownNames.flatten, Json.Plain c := Json.plain_of_all (by decide +kernel)
  exact fun name hname c hc => hall c (List.mem_flatten.mpr ⟨name, hname, hc⟩)

/-- The text of a block, member by member. -/
theorem toJsonChars_eq (b : Block) :
    b.toJsonChars = '\x7b' ::
      (('"' :: ("number".toList ++ '"' :: ':' :: decimalDigits b.number.toNat)
        ++ ',' :: ('"' :: ("hash".toList ++ '"' :: ':' :: quoted ('0' :: 'x' :: b.hash.digits))
        ++ ',' :: ('"' :: ("parentHash".toList ++ '"' :: ':'
          :: quoted ('0' :: 'x' :: b.parent.digits))
        ++ ',' :: ('"' :: ("totalDifficulty".toList ++ '"' :: ':'
          :: quoted b.difficulty.hexadecimal)
        ++ ',' :: ('"' :: ("payload".toList ++ '"' :: ':' :: '['
          :: (List.intercalate [','] (b.payload.map fun v => decimalDigits v.toNat) ++ [']'])))))))
        ++ ['\x7d']) := by
  unfold toJsonChars
  simp only [List.append_assoc, List.cons_append]
  rfl

/-- **The text of a block writes its five members.** -/
theorem written_toJsonChars (b : Block) :
    Json.Written (.element (Json.named b.members)) b.toJsonChars := by
  have hnumber := Json.written_member (plain_knownNames "number".toList (by decide))
    (Json.written_decimal b.number.toNat)
  have hhash := Json.written_member (plain_knownNames "hash".toList (by decide))
    (Json.written_quoted (plain_digits b.hash))
  have hparent := Json.written_member (plain_knownNames "parentHash".toList (by decide))
    (Json.written_quoted (plain_digits b.parent))
  have hdifficulty := Json.written_member (plain_knownNames "totalDifficulty".toList (by decide))
    (Json.written_quoted (plain_hexadecimal b.difficulty))
  have hpayload := Json.written_member (plain_knownNames "payload".toList (by decide))
    (Json.written_payload b.payload)
  rw [toJsonChars_eq]
  exact (Json.Written.object
    (.members hnumber (.members hhash (.members hparent (.members hdifficulty
      (.lastMember hpayload)))))).bare

/-! ## §4. Texts. -/

theorem ofJsonText?_of_written {j : Json} {text : String}
    (h : Json.Written (.element j) text.toList) : ofJsonText? text = ofJson? j := by
  unfold ofJsonText?
  rw [Json.parse?_of_written h]
  rfl

/-- **THE JSON FORM OF A BLOCK READS BACK.**  The text of a block is read as that block.  So
is every text of an object that has the five members in any order, with members of any
other names among them and whatever those have for values; and so is every text of an array
of the five values.  Blanks may stand between any two tokens.  If the payload is empty it
may be left out of each of these.

No block is read from an object that lacks one of the other four names or has one of the
five twice, and none from an object with a name that denotes no characters. -/
theorem json_reads_back :
    (∀ b : Block,
      ofJsonText? b.toJsonText = some b
      ∧ (∀ (members : List (List Char × Json)) (text : String),
        Json.Written (.element (Json.named members)) text.toList →
        (knownAmong members).Perm b.members
          ∨ b.payload = [] ∧ (knownAmong members).Perm b.coreMembers →
        ofJsonText? text = some b)
      ∧ (∀ text : String,
        Json.Written (.element (.array (b.members.map Prod.snd))) text.toList →
        ofJsonText? text = some b)
      ∧ (b.payload = [] → ∀ text : String,
        Json.Written (.element (.array (b.coreMembers.map Prod.snd))) text.toList →
        ofJsonText? text = some b))
    ∧ ∀ (ms : List (Option (List Char) × Json)) (text : String),
      Json.Written (.element (.object ms)) text.toList →
      ((∃ name ∈ coreNames, occurrences name ms = 0) → ofJsonText? text = none)
      ∧ ((∃ name ∈ knownNames, 2 ≤ occurrences name ms) → ofJsonText? text = none)
      ∧ ((∃ m ∈ ms, m.1 = none) → ofJsonText? text = none) := by
  have hobject : ∀ (b : Block) (members : List (List Char × Json)) (text : String),
      Json.Written (.element (Json.named members)) text.toList →
      (knownAmong members).Perm b.members
        ∨ b.payload = [] ∧ (knownAmong members).Perm b.coreMembers →
      ofJsonText? text = some b :=
    fun b members text hwritten hmembers =>
      (ofJsonText?_of_written hwritten).trans (ofJson?_named hmembers)
  refine ⟨fun b => ⟨?_, hobject b, fun text hwritten => ?_, fun hempty text hwritten => ?_⟩,
    fun ms text hwritten => ?_⟩
  · -- the text of a block is a text of its members
    refine hobject b b.members b.toJsonText ?_ (Or.inl (List.Perm.refl _))
    unfold toJsonText
    rw [String.toList_ofList]
    exact b.written_toJsonChars
  · exact (ofJsonText?_of_written hwritten).trans b.ofJson?_array.1
  · exact (ofJsonText?_of_written hwritten).trans (b.ofJson?_array.2 hempty)
  · rw [ofJsonText?_of_written hwritten]
    have hnone : (∀ b, ofJson? (.object ms) ≠ some b) → ofJson? (.object ms) = none :=
      Option.eq_none_iff_forall_ne_some.mpr
    refine ⟨fun ⟨name, hname, hlacks⟩ => hnone fun b hb => ?_,
      fun ⟨name, hname, htwice⟩ => hnone fun b hb => ?_,
      fun ⟨m, hm, hnameless⟩ => hnone fun b hb => (names_of_ofJson? hb).1 m hm hnameless⟩
    · have honce := (names_of_ofJson? hb).2.1 name hname
      omega
    · obtain ⟨-, honce, hpayload⟩ := names_of_ofJson? hb
      rcases List.mem_append.mp hname with hcore | hlast
      · have := honce name hcore
        omega
      · rw [List.mem_singleton.mp hlast] at htwice
        omega

/-- A block without weight and payload. -/
def light : Block := .linking 7 (.replicate 1) (.replicate 0)

/-- Its four members in another order, and one of another name. -/
def shuffled : List (List Char × Json) :=
  [("totalDifficulty".toList, .string (some light.difficulty.hexadecimal)),
    ("extra".toList, .array [.number none, .object [(none, .null)]]),
    ("parentHash".toList, .string (some ('0' :: 'x' :: light.parent.digits))),
    ("hash".toList, .string (some ('0' :: 'x' :: light.hash.digits))),
    ("number".toList, .number (some 7))]

/-- A text of these members with some blanks. -/
def shuffledText : String :=
  "\x7b\"totalDifficulty\":\"0x0\",\"extra\":[-1.5, \x7b\"\\ud800\":null\x7d],\"parentHash\":"
    ++ String.ofList (quoted ('0' :: 'x' :: light.parent.digits)) ++ ",\"hash\":"
    ++ String.ofList (quoted ('0' :: 'x' :: light.hash.digits)) ++ ",\n\"number\" : 7 \x7d"

theorem written_shuffledText :
    Json.Written (.element (Json.named shuffled)) shuffledText.toList := by
  have hnone : Json.Blank [] := fun c hc => nomatch hc
  have hspace : Json.Blank [' '] := List.all_eq_true.mp rfl
  have hline : Json.Blank ['\n'] := List.all_eq_true.mp rfl
  have hdifficulty := Json.written_member (plain_knownNames "totalDifficulty".toList (by decide))
    (Json.written_quoted (plain_hexadecimal light.difficulty))
  have hparent := Json.written_member (plain_knownNames "parentHash".toList (by decide))
    (Json.written_quoted (plain_digits light.parent))
  have hhash := Json.written_member (plain_knownNames "hash".toList (by decide))
    (Json.written_quoted (plain_digits light.hash))
  have hname := plain_knownNames "number".toList (by decide)
  have hnumber := Json.Written.member hline (.of_plain hname) hspace
    (.element hspace (Json.written_decimal 7) hspace)
  -- a number with a fraction, and an object whose one name is half of a pair
  have hone : Json.Whole ['1'] := .digits (by decide) (List.all_eq_true.mp rfl)
  have hfive : Json.FractionText true ['.', '5'] := .some ⟨by decide, List.all_eq_true.mp rfl⟩
  have hfraction : Json.NumberText none ['-', '1', '.', '5'] := .mk .minus hone hfive .none
  have hhalf : Json.UnitsText [.code 0xd800] ['\\', 'u', 'd', '8', '0', '0'] :=
    .cons (.code rfl) .nil
  have hobject : Json.Written (.member (none, .null)) _ :=
    .member hnone hhalf hnone Json.Written.null.bare
  have hplain : ∀ c ∈ "extra".toList, Json.Plain c := Json.plain_of_all (by decide)
  have hextra := Json.written_member hplain
    (.array (.items (Json.Written.number hfraction).bare
      (.lastItem (.element hspace (.object (.lastMember hobject)) hnone))))
  refine cast (congrArg (Json.Written _) ?_) (Json.Written.object (.members hdifficulty
    (.members hextra (.members hparent (.members hhash (.lastMember hnumber)))))).bare
  unfold shuffledText
  simp only [String.toList_append, String.toList_ofList]
  decide +kernel

/-- The block is read from this text, and none is read from an object without members. -/
theorem json_reads_back_shuffled :
    Json.Written (.element (Json.named shuffled)) shuffledText.toList
      ∧ (knownAmong shuffled).Perm light.coreMembers
      ∧ ofJsonText? shuffledText = some light
      ∧ ofJsonText? "\x7b \x7d" = none := by
  have hperm : (knownAmong shuffled).Perm light.coreMembers :=
    List.reverse_perm light.coreMembers
  have hspace : Json.Blank [' '] := List.all_eq_true.mp rfl
  have hempty : Json.Written (.element (.object [])) "\x7b \x7d".toList :=
    (Json.Written.emptyObject hspace).bare
  obtain ⟨-, hobject, -, -⟩ := json_reads_back.1 light
  obtain ⟨hlacks, -, -⟩ := json_reads_back.2 [] "\x7b \x7d" hempty
  exact ⟨written_shuffledText, hperm,
    hobject shuffled shuffledText written_shuffledText (Or.inr ⟨rfl, hperm⟩),
    hlacks ⟨"number".toList, by decide, rfl⟩⟩

end Block
end BlockSync
