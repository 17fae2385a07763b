/-
  BlockSync.Proofs.Store.Positions
  ────────────────────────────────
  **A TREE THAT FILLS A RANGE OF POSITIONS.**

  Both stores keep a deque in a tree, under consecutive positions.  `Tree.Fills`
  says that the keys of a tree are exactly the positions of a range and that the
  values under them are a given list; it also says that an empty range is the
  fresh one.  All a store does to its tree is here a fact about that list:

      Fills.append      writing at the tail      values ++ new
      Fills.prepend     writing before the head  new ++ values
      Fills.removeFront taking entries           what follows them
      Fills.cleared     deleting every key       nothing
      Fills.recover     opening the tree again   the same range

  A tree of which every key is a position fills a range as soon as it opens at
  all (`Fills.of_recover`): ascending positions that span no more than their
  number leave no gap.

  The changes need no more than that the keys of consecutive positions ascend, so
  that an entry written past the last or before the first lands at that end.
-/
import BlockSync.Proofs.Bytes
import BlockSync.Store.Span

namespace BlockSync

/-! ## §1. Positions as keys. -/

namespace Position

theorem length_encode (p : UInt64) : (encode p).length = 8 :=
  Bytes.length_bigEndian 8 p.toNat

theorem decode_encode (p : UInt64) : decode (encode p) = .ok p := by
  have hp : p.toNat < Bytes.bound 8 := p.toNat_lt
  unfold decode
  rw [if_pos (length_encode p)]
  unfold encode
  rw [Bytes.ofBigEndian_bigEndian, Nat.mod_eq_of_lt hp, UInt64.ofNat_toNat]

theorem encode_inj {p q : UInt64} (h : encode p = encode q) : p = q := by
  have hdecode := decode_encode p
  rw [h, decode_encode q] at hdecode
  exact (Except.ok.inj hdecode).symm

theorem encode_of_decode {key : Bytes} {p : UInt64} (h : decode key = .ok p) :
    encode p = key := by
  unfold decode at h
  split at h
  case isFalse => cases h
  case isTrue hlen =>
    cases h
    have hlt : Bytes.ofBigEndian key < UInt64.size := by
      have := Bytes.ofBigEndian_lt key
      rwa [hlen] at this
    unfold encode
    rw [UInt64.toNat_ofNat', Nat.mod_eq_of_lt hlt, ← hlen, Bytes.bigEndian_ofBigEndian]

theorem exists_decode {key : Bytes} (h : key.length = 8) : ∃ p, decode key = .ok p := by
  unfold decode
  rw [if_pos h]
  exact ⟨_, rfl⟩

/-- **Keys are ordered as their positions are.** -/
theorem encode_lt_encode (p q : UInt64) : encode p < encode q ↔ p < q := by
  have hp : p.toNat < Bytes.bound 8 := p.toNat_lt
  have hq : q.toNat < Bytes.bound 8 := q.toNat_lt
  unfold encode
  rw [Bytes.bigEndian_lt_bigEndian hp hq, UInt64.lt_iff_toNat_lt]

theorem compare_encode (p q : UInt64) : compare (encode p) (encode q) = compare p q := by
  have hp : p.toNat < Bytes.bound 8 := p.toNat_lt
  have hq : q.toNat < Bytes.bound 8 := q.toNat_lt
  rw [Bytes.compare_ofBigEndian (by rw [length_encode, length_encode])]
  unfold encode
  rw [Bytes.ofBigEndian_bigEndian, Bytes.ofBigEndian_bigEndian, Nat.mod_eq_of_lt hp,
    Nat.mod_eq_of_lt hq]
  show compareOfLessAndEq p.toNat q.toNat = compareOfLessAndEq p q
  unfold compareOfLessAndEq
  simp only [UInt64.lt_iff_toNat_lt, UInt64.toNat_inj]

/-- **KEYS ARE POSITIONS IN ANOTHER FORM.**  Two keys compare byte by byte as their positions
compare as numbers, over all of the key space; a key is read as the position it was written
for; and the keys that are read at all are the strings of eight bytes, each of them the key
of the position it is read as.  A string of another length is refused with that length. -/
theorem keys_isomorphic :
    (∀ p q : UInt64, compare (encode p) (encode q) = compare p q
      ∧ (encode p < encode q ↔ p < q) ∧ (encode p = encode q ↔ p = q))
    ∧ (∀ p : UInt64, decode (encode p) = .ok p)
    ∧ ∀ key : Bytes,
      ((∃ p, decode key = .ok p) ↔ key.length = 8)
      ∧ (∀ p, decode key = .ok p → encode p = key)
      ∧ (key.length ≠ 8 → decode key = .error (.corruption (.keyLength key.length))) := by
  refine ⟨fun p q => ?_, decode_encode,
    fun key => ⟨?_, fun p => encode_of_decode, fun hlen => if_neg hlen⟩⟩
  · exact ⟨compare_encode p q, encode_lt_encode p q, encode_inj, congrArg encode⟩
  · constructor
    · rintro ⟨p, hp⟩
      rw [← encode_of_decode hp, length_encode]
    · exact exists_decode

/-- A byte more in front outweighs all bytes behind it. -/
example : compare (encode 0x00ff) (encode 0x0100) = .lt := by decide +kernel

/-- The entries of values under consecutive positions. -/
def entriesFrom : (start : UInt64) → List Bytes → List Entry
  | _, [] => []
  | start, v :: vs => (encode start, v) :: entriesFrom (start + 1) vs

theorem putFrom_eq (vs : List Bytes) :
    ∀ p, putFrom p vs = (entriesFrom p vs).map fun e => .put e.1 e.2 := by
  induction vs with
  | nil => intro p; rfl
  | cons v vs ih =>
    intro p
    show .put (encode p) v :: putFrom (p + 1) vs = _
    rw [ih]
    rfl

@[simp] theorem length_entriesFrom (vs : List Bytes) :
    ∀ p, (entriesFrom p vs).length = vs.length := by
  induction vs with
  | nil => intro p; rfl
  | cons v vs ih => intro p; simp [entriesFrom, ih]

@[simp] theorem map_snd_entriesFrom (vs : List Bytes) :
    ∀ p, (entriesFrom p vs).map Prod.snd = vs := by
  induction vs with
  | nil => intro p; rfl
  | cons v vs ih => intro p; simp [entriesFrom, ih]

/-- The position a number of steps behind another, if that does not pass the
end of the key space. -/
theorem toNat_add_ofNat {p : UInt64} {n : Nat} (h : p.toNat + n < UInt64.size) :
    (p + UInt64.ofNat n).toNat = p.toNat + n := by
  have hsize : UInt64.size = 2 ^ 64 := rfl
  rw [UInt64.toNat_add, UInt64.toNat_ofNat']
  omega

theorem toNat_add_one {p : UInt64} (h : p.toNat + 1 < UInt64.size) : (p + 1).toNat = p.toNat + 1 :=
  toNat_add_ofNat (n := 1) h

theorem toNat_sub_ofNat {p : UInt64} {n : Nat} (h : n ≤ p.toNat) :
    (p - UInt64.ofNat n).toNat = p.toNat - n := by
  have hp := p.toNat_lt
  have hn : (UInt64.ofNat n).toNat = n := by
    rw [UInt64.toNat_ofNat']
    omega
  rw [UInt64.toNat_sub_of_le p _ (UInt64.le_iff_toNat_le.mpr (by omega)), hn]

theorem entriesFrom_append (vs ws : List Bytes) :
    ∀ p, entriesFrom p (vs ++ ws)
      = entriesFrom p vs ++ entriesFrom (p + UInt64.ofNat vs.length) ws := by
  induction vs with
  | nil =>
    intro p
    show entriesFrom p ws = entriesFrom (p + 0) ws
    rw [UInt64.add_zero]
  | cons v vs ih =>
    intro p
    have hp : p + 1 + UInt64.ofNat vs.length = p + UInt64.ofNat (vs.length + 1) := by
      rw [UInt64.add_assoc, UInt64.ofNat_add, UInt64.add_comm 1]
      rfl
    show (encode p, v) :: entriesFrom (p + 1) (vs ++ ws) = _
    rw [ih, hp]
    rfl

theorem take_entriesFrom (vs : List Bytes) :
    ∀ p n, (entriesFrom p vs).take n = entriesFrom p (vs.take n) := by
  induction vs with
  | nil => intro p n; simp [entriesFrom]
  | cons v vs ih =>
    intro p n
    cases n with
    | zero => rfl
    | succ n => exact congrArg ((encode p, v) :: ·) (ih (p + 1) n)

/-- A key among consecutive positions is no position before the first. -/
theorem le_of_mem_entriesFrom {e : Entry} (vs : List Bytes) :
    ∀ p : UInt64, p.toNat + vs.length ≤ UInt64.size → e ∈ entriesFrom p vs →
      ∃ q, e.1 = encode q ∧ p ≤ q := by
  induction vs with
  | nil => intro p _ he; cases he
  | cons v vs ih =>
    intro p hp he
    rw [List.length_cons] at hp
    rcases List.mem_cons.mp he with rfl | he
    · exact ⟨p, rfl, UInt64.le_refl p⟩
    · -- something follows, so the next position has not wrapped around
      have hpos : 0 < vs.length := by
        cases vs with
        | nil => cases he
        | cons w ws => simp
      have hp1 : (p + 1).toNat = p.toNat + 1 := toNat_add_one (by omega)
      obtain ⟨q, hq, hle⟩ := ih (p + 1) (by omega) he
      refine ⟨q, hq, UInt64.le_trans (UInt64.le_iff_toNat_le.mpr ?_) hle⟩
      omega

theorem sorted_entriesFrom (vs : List Bytes) :
    ∀ p : UInt64, p.toNat + vs.length ≤ UInt64.size →
      (entriesFrom p vs).Pairwise fun a b => a.1 < b.1 := by
  induction vs with
  | nil => intro p _; exact List.Pairwise.nil
  | cons v vs ih =>
    intro p hp
    rw [List.length_cons] at hp
    refine List.pairwise_cons.mpr ⟨?_, ?_⟩
    · -- a later key is a position behind `p`
      intro e he
      have hpos : 0 < vs.length := by
        cases vs with
        | nil => cases he
        | cons w ws => simp
      have hp1 : (p + 1).toNat = p.toNat + 1 := toNat_add_one (by omega)
      obtain ⟨q, hq, hle⟩ := le_of_mem_entriesFrom vs (p + 1) (by omega) he
      have hle' := UInt64.le_iff_toNat_le.mp hle
      show encode p < e.1
      rw [hq, encode_lt_encode, UInt64.lt_iff_toNat_lt]
      omega
    · cases vs with
      | nil => exact List.Pairwise.nil
      | cons w ws =>
        rw [List.length_cons] at hp
        have hp1 : (p + 1).toNat = p.toNat + 1 := toNat_add_one (by omega)
        exact ih (p + 1) (by rw [List.length_cons]; omega)

/-- Ascending positions need as much room as there are of them. -/
theorem toNat_add_length_le (es : List Entry) :
    ∀ (e : Entry) (p q : UInt64), (e :: es).Pairwise (fun a b => a.1 < b.1) →
      (∀ d ∈ e :: es, d.1.length = 8) → e.1 = encode p →
      (e :: es).getLast?.map Prod.fst = some (encode q) → p.toNat + es.length ≤ q.toNat := by
  induction es with
  | nil =>
    intro e p q _ _ hp hq
    obtain rfl : p = q := encode_inj (hp.symm.trans (Option.some.inj hq))
    exact Nat.le_refl _
  | cons d es ih =>
    intro e p q hs hlen hp hq
    obtain ⟨r, hr⟩ := exists_decode (hlen d (by simp))
    have hd := encode_of_decode hr
    have hs' := List.pairwise_cons.mp hs
    have hlt : p < r := by
      rw [← encode_lt_encode, hd, ← hp]
      exact hs'.1 d List.mem_cons_self
    have hrest := ih d r q hs'.2 (fun c hc => hlen c (List.mem_cons_of_mem e hc)) hd.symm
      (by rwa [List.getLast?_cons_cons] at hq)
    -- one step from `p` to `r` at least, and the rest by the hypothesis
    have hlt' := UInt64.lt_iff_toNat_lt.mp hlt
    rw [List.length_cons]
    omega

/-- Ascending positions that have no more room than that are consecutive. -/
theorem eq_entriesFrom (es : List Entry) :
    ∀ (e : Entry) (p q : UInt64), (e :: es).Pairwise (fun a b => a.1 < b.1) →
      (∀ d ∈ e :: es, d.1.length = 8) → e.1 = encode p →
      (e :: es).getLast?.map Prod.fst = some (encode q) → q.toNat = p.toNat + es.length →
      e :: es = entriesFrom p ((e :: es).map Prod.snd) := by
  induction es with
  | nil =>
    intro e p q _ _ hp _ _
    show [e] = [(encode p, e.2)]
    rw [← hp]
  | cons d es ih =>
    intro e p q hs hlen hp hq hpq
    rw [List.length_cons] at hpq
    obtain ⟨r, hr⟩ := exists_decode (hlen d (by simp))
    have hd := encode_of_decode hr
    have hs' := List.pairwise_cons.mp hs
    have hlen' : ∀ c ∈ d :: es, c.1.length = 8 := fun c hc => hlen c (List.mem_cons_of_mem e hc)
    have hlast : (d :: es).getLast?.map Prod.fst = some (encode q) := by
      rwa [List.getLast?_cons_cons] at hq
    have hlt : p < r := by
      rw [← encode_lt_encode, hd, ← hp]
      exact hs'.1 d List.mem_cons_self
    have hlt' := UInt64.lt_iff_toNat_lt.mp hlt
    have hroom := toNat_add_length_le es d r q hs'.2 hlen' hd.symm hlast
    have hq' : q.toNat < UInt64.size := q.toNat_lt
    -- any greater position would leave the others too little room
    have hnext : r = p + 1 := by
      apply UInt64.toNat_inj.mp
      rw [toNat_add_one (by omega)]
      omega
    have hrest := ih d r q hs'.2 hlen' hd.symm hlast (by omega)
    show e :: d :: es = (encode p, e.2) :: entriesFrom (p + 1) ((d :: es).map Prod.snd)
    rw [← hnext, ← hrest, ← hp]

end Position

/-! ## §2. Room at the ends of a range. -/

namespace Span

theorem frontStart_error {s : Span} {n : Nat} {e : StoreError} (h : s.frontStart n = .error e) :
    e = .keySpaceExhausted := by
  unfold Span.frontStart at h
  split at h
  · cases h
  · cases h
    rfl

theorem backEnd_error {s : Span} {n : Nat} {e : StoreError} (h : s.backEnd n = .error e) :
    e = .keySpaceExhausted := by
  unfold Span.backEnd at h
  split at h
  · cases h
  · cases h
    rfl

end Span

/-! ## §3. Batches at one end of a tree. -/

namespace Tree

/-- An entry is written between those with lesser and those with greater keys. -/
theorem insertEntry_between {key value : Bytes} {as bs : List Entry}
    (ha : ∀ e ∈ as, e.1 < key) (hb : ∀ e ∈ bs, key < e.1) :
    insertEntry key value (as ++ bs) = as ++ (key, value) :: bs := by
  induction as with
  | nil =>
    cases bs with
    | nil => rfl
    | cons b bs =>
      show (if key < b.1 then _ else _) = _
      rw [if_pos (hb b List.mem_cons_self)]
      rfl
  | cons a as ih =>
    -- the search passes every lesser key
    have hlt : a.1 < key := ha a List.mem_cons_self
    have hne : ¬ key = a.1 := fun h => List.lt_irrefl a.1 (by rwa [h] at hlt)
    have hrest := ih fun e he => ha e (List.mem_cons_of_mem a he)
    rw [List.cons_append, List.cons_append, ← hrest]
    show (if key < a.1 then _ else if key = a.1 then _ else _) = _
    rw [if_neg (List.lt_asymm hlt), if_neg hne]

/-- The first of some entries that fit between two parts of a tree lands behind
the first part. -/
theorem entries_insert_between {t : Tree} {as bs es : List Entry} {e : Entry}
    (ht : t.entries = as ++ bs)
    (hs : (as ++ (e :: es) ++ bs).Pairwise fun a b => a.1 < b.1) :
    (t.insert e.1 e.2).entries = (as ++ [e]) ++ bs := by
  have hsplit := List.pairwise_append.mp hs
  have hleft := List.pairwise_append.mp hsplit.1
  show insertEntry e.1 e.2 t.entries = _
  rw [ht, insertEntry_between, List.append_assoc]
  · rfl
  · intro a ha
    exact hleft.2.2 a ha e List.mem_cons_self
  · intro b hb
    exact hsplit.2.2 e (List.mem_append_right as List.mem_cons_self) b hb

/-- A batch of writes that fits between two parts of a tree lands there. -/
theorem entries_apply_put (bs es : List Entry) :
    ∀ (t : Tree) (as : List Entry), t.entries = as ++ bs →
      (as ++ es ++ bs).Pairwise (fun a b => a.1 < b.1) →
      (t.apply (es.map fun e => .put e.1 e.2)).entries = as ++ es ++ bs := by
  induction es with
  | nil =>
    intro t as ht _
    rw [List.append_nil]
    exact ht
  | cons e es ih =>
    intro t as ht hs
    -- the first write lands behind `as`, and the others behind it
    have hnext := entries_insert_between ht hs
    have hassoc : (as ++ [e]) ++ es ++ bs = as ++ (e :: es) ++ bs := by simp
    show ((t.insert e.1 e.2).apply (es.map fun e => .put e.1 e.2)).entries = _
    rw [ih (t.insert e.1 e.2) (as ++ [e]) hnext (by rw [hassoc]; exact hs), hassoc]

/-- A batch that deletes the first entries of a tree leaves what follows them. -/
theorem entries_apply_delete {bs : List Entry} (as : List Entry) :
    ∀ t : Tree, t.entries = as ++ bs →
      (t.apply (as.map fun e => .delete e.1)).entries = bs := by
  induction as with
  | nil => intro t ht; exact ht
  | cons a as ih =>
    intro t ht
    have hs : (a :: (as ++ bs)).Pairwise fun a b => a.1 < b.1 := by
      have := t.sorted
      rwa [ht] at this
    have hlt := (List.pairwise_cons.mp hs).1
    -- every other key is greater, so only the first entry goes
    have hnext : (t.erase a.1).entries = as ++ bs := by
      show t.entries.filter (fun e => e.1 ≠ a.1) = as ++ bs
      rw [ht, List.cons_append, List.filter_cons_of_neg (by simp), List.filter_eq_self]
      intro e he
      have hne : e.1 ≠ a.1 := fun h => List.lt_irrefl a.1 (by have := hlt e he; rwa [h] at this)
      exact decide_eq_true hne
    exact ih (t.erase a.1) hnext

theorem entries_apply_deleteAll (t : Tree) : (t.apply t.deleteAll).entries = [] :=
  entries_apply_delete t.entries t (by simp)

/-! ## §4. Trees that fill a range. -/

/-- The keys of a tree are the positions of a range, with the values under them
in order, and a tree without entries has the fresh range. -/
structure Fills (t : Tree) (s : Span) (values : List Bytes) : Prop where
  entries : t.entries = Position.entriesFrom s.head values
  tail : s.tail.toNat = s.head.toNat + values.length
  centred : values = [] → s = Span.fresh

namespace Fills

variable {t : Tree} {s : Span} {values : List Bytes}

theorem empty : Fills .empty .fresh [] := ⟨rfl, rfl, fun _ => rfl⟩

theorem bound (h : Fills t s values) : s.head.toNat + values.length < UInt64.size :=
  h.tail ▸ s.tail.toNat_lt

theorem length (h : Fills t s values) : s.length = values.length := by
  have htail := h.tail
  unfold Span.length
  rw [UInt64.toNat_sub_of_le _ _ (UInt64.le_iff_toNat_le.mpr (by omega))]
  omega

theorem size (h : Fills t s values) : t.size = values.length := by
  unfold Tree.size
  rw [h.entries, Position.length_entriesFrom]

theorem values_eq (h : Fills t s values) : t.values = values := by
  unfold Tree.values
  rw [h.entries, Position.map_snd_entriesFrom]

/-- The tail is as far behind the head as there are values. -/
theorem tail_eq (h : Fills t s values) : s.tail = s.head + UInt64.ofNat values.length := by
  apply UInt64.toNat_inj.mp
  rw [Position.toNat_add_ofNat h.bound, h.tail]

theorem first?_nil (h : Fills t s []) : t.first? = none := by
  unfold Tree.first?
  rw [h.entries]
  rfl

theorem first?_cons {v : Bytes} (h : Fills t s (v :: values)) :
    t.first? = some (Position.encode s.head, v) := by
  unfold Tree.first?
  rw [h.entries]
  rfl

theorem last?_nil (h : Fills t s []) : t.last? = none := by
  unfold Tree.last?
  rw [h.entries]
  rfl

theorem last?_concat {v : Bytes} (h : Fills t s (values ++ [v])) :
    t.last? = some (Position.encode (s.head + UInt64.ofNat values.length), v) := by
  unfold Tree.last?
  rw [h.entries, Position.entriesFrom_append]
  exact List.getLast?_concat

/-! ## §5. What the stores do to their trees. -/

/-- The entries with more behind them have ascending keys, if there is room. -/
theorem sorted_append (new : List Bytes) {tail : UInt64} (h : Fills t s values)
    (hroom : s.backEnd new.length = .ok tail) :
    (t.entries ++ Position.entriesFrom s.tail new).Pairwise fun a b => a.1 < b.1 := by
  have hlen : (values ++ new).length = values.length + new.length := List.length_append
  have htail := h.tail
  unfold Span.backEnd at hroom
  split at hroom
  case isFalse => cases hroom
  case isTrue hlt =>
    have hsorted := Position.sorted_entriesFrom (values ++ new) s.head (by omega)
    rw [Position.entriesFrom_append, ← h.tail_eq, ← h.entries] at hsorted
    exact hsorted

/-- Writing at the tail. -/
theorem append (new : List Bytes) {tail : UInt64} (h : Fills t s values)
    (hroom : s.backEnd new.length = .ok tail) :
    Fills (t.apply (Position.putFrom s.tail new)) ⟨s.head, tail⟩ (values ++ new) := by
  have hlen : (values ++ new).length = values.length + new.length := List.length_append
  have hsorted := h.sorted_append new hroom
  unfold Span.backEnd at hroom
  split at hroom
  case isFalse => cases hroom
  case isTrue hlt =>
    cases hroom
    have htail := h.tail
    have hnew : (s.tail + UInt64.ofNat new.length).toNat = s.tail.toNat + new.length :=
      Position.toNat_add_ofNat hlt
    refine ⟨?_, ?_, ?_⟩
    · show _ = Position.entriesFrom s.head (values ++ new)
      rw [Position.putFrom_eq, Position.entriesFrom_append, ← h.tail_eq, ← h.entries,
        entries_apply_put [] _ t t.entries (List.append_nil _).symm
          (by rw [List.append_nil]; exact hsorted), List.append_nil]
    · show (s.tail + UInt64.ofNat new.length).toNat = s.head.toNat + (values ++ new).length
      omega
    · intro hnil
      obtain ⟨hv, rfl⟩ := List.append_eq_nil_iff.mp hnil
      cases h.centred hv
      rfl

/-- The entries with more before them have ascending keys, if there is room. -/
theorem sorted_prepend (new : List Bytes) {start : UInt64} (h : Fills t s values)
    (hroom : s.frontStart new.length = .ok start) :
    (Position.entriesFrom start new ++ t.entries).Pairwise fun a b => a.1 < b.1 := by
  have hlen : (new ++ values).length = new.length + values.length := List.length_append
  have hbound := h.bound
  unfold Span.frontStart at hroom
  split at hroom
  case isFalse => cases hroom
  case isTrue hle =>
    cases hroom
    have hstart : (s.head - UInt64.ofNat new.length).toNat = s.head.toNat - new.length :=
      Position.toNat_sub_ofNat hle
    have hsorted := Position.sorted_entriesFrom (new ++ values)
      (s.head - UInt64.ofNat new.length) (by omega)
    rw [Position.entriesFrom_append, UInt64.sub_add_cancel, ← h.entries] at hsorted
    exact hsorted

/-- Writing before the head. -/
theorem prepend (new : List Bytes) {start : UInt64} (h : Fills t s values)
    (hroom : s.frontStart new.length = .ok start) :
    Fills (t.apply (Position.putFrom start new)) ⟨start, s.tail⟩ (new ++ values) := by
  have hlen : (new ++ values).length = new.length + values.length := List.length_append
  have hsorted := h.sorted_prepend new hroom
  unfold Span.frontStart at hroom
  split at hroom
  case isFalse => cases hroom
  case isTrue hle =>
    cases hroom
    have hstart : (s.head - UInt64.ofNat new.length).toNat = s.head.toNat - new.length :=
      Position.toNat_sub_ofNat hle
    refine ⟨?_, ?_, ?_⟩
    · show _ = Position.entriesFrom (s.head - UInt64.ofNat new.length) (new ++ values)
      rw [Position.putFrom_eq, Position.entriesFrom_append, UInt64.sub_add_cancel, ← h.entries,
        entries_apply_put t.entries _ t [] (List.nil_append _).symm
          (by rw [List.nil_append]; exact hsorted), List.nil_append]
    · show s.tail.toNat = (s.head - UInt64.ofNat new.length).toNat + (new ++ values).length
      have htail := h.tail
      omega
    · intro hnil
      obtain ⟨rfl, hv⟩ := List.append_eq_nil_iff.mp hnil
      cases h.centred hv
      rfl

/-- Taking the first entries, the last of them at a given position. -/
theorem removeFront (taken : List Bytes) {rest : List Bytes} {position : UInt64} {u : Tree}
    (h : Fills t s (taken ++ rest)) (hp : position.toNat + 1 = s.head.toNat + taken.length)
    (hu : t.entries = Position.entriesFrom s.head taken ++ u.entries) :
    Fills u (s.popFront position) rest := by
  have hlen : (taken ++ rest).length = taken.length + rest.length := List.length_append
  have hbound := h.bound
  have htail := h.tail
  have hnext : (position + 1).toNat = position.toNat + 1 := Position.toNat_add_one (by omega)
  have hhead : s.head + UInt64.ofNat taken.length = position + 1 := by
    apply UInt64.toNat_inj.mp
    rw [Position.toNat_add_ofNat (by omega), hnext, hp]
  have hrest : u.entries = Position.entriesFrom (position + 1) rest := by
    have hall := h.entries
    rw [Position.entriesFrom_append, hhead, hu] at hall
    exact List.append_cancel_left hall
  unfold Span.popFront
  split
  case isTrue heq =>
    -- the range is used up, so nothing is left and it starts in the middle again
    have hnil : rest = [] := by
      apply List.eq_nil_of_length_eq_zero
      have := congrArg UInt64.toNat heq
      omega
    subst hnil
    exact ⟨hrest, rfl, fun _ => rfl⟩
  case isFalse hne =>
    refine ⟨hrest, ?_, ?_⟩
    · show s.tail.toNat = (position + 1).toNat + rest.length
      omega
    · intro hnil
      subst hnil
      refine absurd (UInt64.toNat_inj.mp ?_) hne
      rw [List.length_nil] at hlen
      omega

/-- Deleting the first entries, key by key. -/
theorem deleteFront (taken : List Bytes) {rest : List Bytes} {position : UInt64}
    (h : Fills t s (taken ++ rest)) (hp : position.toNat + 1 = s.head.toNat + taken.length) :
    Fills (t.apply ((Position.entriesFrom s.head taken).map fun e => .delete e.1))
      (s.popFront position) rest := by
  have hsplit := h.entries
  rw [Position.entriesFrom_append] at hsplit
  refine h.removeFront taken hp ?_
  rw [entries_apply_delete _ t hsplit]
  exact hsplit

/-- Taking the first entry. -/
theorem dropFirst {v : Bytes} (h : Fills t s (v :: values)) :
    Fills t.dropFirst (s.popFront s.head) values := by
  refine removeFront [v] h rfl ?_
  show t.entries = _ ++ t.entries.tail
  rw [h.entries]
  rfl

/-- Deleting every key, whatever the keys are. -/
theorem cleared (t : Tree) : Fills (t.apply t.deleteAll) .fresh [] :=
  ⟨entries_apply_deleteAll t, rfl, fun _ => rfl⟩

/-- **Opening a tree that fills a range finds that range.** -/
theorem recover (h : Fills t s values) : Span.recover t = .ok s := by
  unfold Span.recover
  rcases List.eq_nil_or_concat values with rfl | ⟨vs, v, hv⟩
  · rw [h.first?_nil, h.centred rfl]
  · rw [List.concat_eq_append] at hv
    subst hv
    have hlen : (vs ++ [v]).length = vs.length + 1 := by simp
    have hbound := h.bound
    have htail := h.tail
    have hlast : (s.head + UInt64.ofNat vs.length).toNat = s.head.toNat + vs.length :=
      Position.toNat_add_ofNat (by omega)
    have hnext : s.head + UInt64.ofNat vs.length + 1 = s.tail := by
      apply UInt64.toNat_inj.mp
      rw [Position.toNat_add_one (by omega)]
      omega
    -- the first entry is at the head, the last one just before the tail
    have hfirst : ∃ w, t.first? = some (Position.encode s.head, w) := by
      cases vs with
      | nil => exact ⟨v, h.first?_cons⟩
      | cons w ws => exact ⟨w, h.first?_cons⟩
    obtain ⟨w, hw⟩ := hfirst
    rw [hw, h.last?_concat]
    simp only [bind, Except.bind, Position.decode_encode]
    rw [if_neg (by omega), hnext, if_neg (by rw [h.length, h.size]; exact fun hne => hne rfl)]

/-- A tree whose ends are as far apart as its entries are many has no gap. -/
theorem of_ends {e : Entry} {es : List Entry} {p q : UInt64} (hes : t.entries = e :: es)
    (hkeys : ∀ d ∈ e :: es, d.1.length = 8) (hp : e.1 = Position.encode p)
    (hq : (e :: es).getLast?.map Prod.fst = some (Position.encode q))
    (hlast : q.toNat + 1 ≠ UInt64.size) (hcount : (⟨p, q + 1⟩ : Span).length = t.size) :
    Fills t ⟨p, q + 1⟩ t.values := by
  have hs : (e :: es).Pairwise fun a b => a.1 < b.1 := by
    have := t.sorted
    rwa [hes] at this
  -- the keys need all the room between the ends, and the count says they have no more
  have hroom := Position.toNat_add_length_le es e p q hs hkeys hp hq
  have hqlt : q.toNat < UInt64.size := q.toNat_lt
  have hnext : (q + 1).toNat = q.toNat + 1 := Position.toNat_add_one (by omega)
  have hlen : q.toNat + 1 - p.toNat = es.length + 1 := by
    have hsize : t.size = es.length + 1 := by unfold Tree.size; rw [hes]; rfl
    unfold Span.length at hcount
    dsimp only at hcount
    rw [UInt64.toNat_sub_of_le _ _ (UInt64.le_iff_toNat_le.mpr (by omega)), hnext, hsize] at hcount
    exact hcount
  have hvalues : t.values = (e :: es).map Prod.snd := by unfold Tree.values; rw [hes]
  refine ⟨?_, ?_, ?_⟩
  · rw [hes, hvalues]
    exact Position.eq_entriesFrom es e p q hs hkeys hp hq (by omega)
  · show (q + 1).toNat = p.toNat + t.values.length
    rw [hvalues, List.length_map, List.length_cons]
    omega
  · intro hnil
    rw [hvalues] at hnil
    cases hnil

/-- A tree that opens begins and ends with positions, as far apart as its entries
are many. -/
theorem exists_ends_of_recover {e : Entry} {es : List Entry} (hes : t.entries = e :: es)
    (h : Span.recover t = .ok s) :
    ∃ p q, e.1 = Position.encode p
      ∧ (e :: es).getLast?.map Prod.fst = some (Position.encode q)
      ∧ q.toNat + 1 ≠ UInt64.size ∧ s = ⟨p, q + 1⟩ ∧ s.length = t.size := by
  unfold Span.recover at h
  have hfirst : t.first? = some e := by unfold Tree.first?; rw [hes]; rfl
  have hlast : t.last? = some ((e :: es).getLast (by simp)) := by
    unfold Tree.last?
    rw [hes, List.getLast?_eq_some_getLast]
  rw [hfirst, hlast] at h
  cases hp : Position.decode e.1 with
  | error _ =>
    simp only [bind, Except.bind, hp] at h
    cases h
  | ok p =>
    cases hq : Position.decode ((e :: es).getLast (by simp)).1 with
    | error _ =>
      simp only [bind, Except.bind, hp, hq] at h
      cases h
    | ok q =>
      simp only [bind, Except.bind, hp, hq] at h
      split at h
      case isTrue => cases h
      case isFalse hne =>
        split at h
        case isTrue => cases h
        case isFalse hcount =>
          cases h
          refine ⟨p, q, (Position.encode_of_decode hp).symm, ?_, hne, rfl,
            Decidable.not_not.mp hcount⟩
          rw [List.getLast?_eq_some_getLast (by simp), Position.encode_of_decode hq]
          rfl

theorem eq_fresh_of_recover (hes : t.entries = []) (h : Span.recover t = .ok s) :
    s = .fresh := by
  have hfirst : t.first? = none := by unfold Tree.first?; rw [hes]; rfl
  unfold Span.recover at h
  rw [hfirst] at h
  exact (Except.ok.inj h).symm

theorem length_of_recover (h : Span.recover t = .ok s) : s.length = t.size := by
  rcases hes : t.entries with _ | ⟨e, es⟩
  · rw [eq_fresh_of_recover hes h]
    unfold Tree.size
    rw [hes]
    rfl
  · obtain ⟨p, q, -, -, -, -, hcount⟩ := exists_ends_of_recover hes h
    exact hcount

/-- **A tree of positions that opens fills the range it opens with.** -/
theorem of_recover (hkeys : ∀ e ∈ t.entries, e.1.length = 8) (h : Span.recover t = .ok s) :
    Fills t s t.values := by
  rcases hes : t.entries with _ | ⟨e, es⟩
  · obtain rfl := eq_fresh_of_recover hes h
    have hvalues : t.values = [] := by unfold Tree.values; rw [hes]; rfl
    rw [hvalues]
    exact ⟨hes, rfl, fun _ => rfl⟩
  · rw [hes] at hkeys
    obtain ⟨p, q, hp, hq, hne, rfl, hcount⟩ := exists_ends_of_recover hes h
    exact of_ends hes hkeys hp hq hne hcount

end Fills
end Tree
end BlockSync
