/-
  BlockSync.Proofs.Store.BlockQueue.Growth
  ────────────────────────────────────────
  **HOW MUCH LONGER A CALL MAKES A QUEUE.**

  The length of a queue in a tree is the width of its range.  A tree opens whose
  keys are not all positions, so the length may differ from the count of entries.
  But the positions among the keys never leave the range (`Tree.Within`), and that
  is enough for the length to follow the calls:

      enqueue         one more at most
      enqueueBatch    not beyond the capacity, or no longer than before
      poll            one less at least, if a block is taken
      clear           none

  So it goes for every queue that opens, whatever keys and values it has (`Opened`).
-/
import BlockSync.Proofs.Store.BlockQueue.Refinement
import BlockSync.Proofs.Store.Consumption

namespace BlockSync

/-! ## §1. Positions within a range. -/

namespace Tree

variable {t : Tree} {s : Span}

/-- The positions among the keys of a tree lie in a range. -/
structure Within (t : Tree) (s : Span) : Prop where
  head_le_tail : s.head.toNat ≤ s.tail.toNat
  inside : ∀ e ∈ t.entries, ∀ x, Position.decode e.1 = .ok x →
    s.head.toNat ≤ x.toNat ∧ x.toNat < s.tail.toNat

/-- A batch of appends writes under the positions from the first on. -/
theorem mem_apply_putFrom {e : Entry} (vs : List Bytes) :
    ∀ (t : Tree) (p : UInt64), e ∈ (t.apply (Position.putFrom p vs)).entries →
      e ∈ t.entries ∨ ∃ i < vs.length, e.1 = Position.encode (p + UInt64.ofNat i) := by
  induction vs with
  | nil => intro t p he; exact Or.inl he
  | cons v vs ih =>
    intro t p he
    rcases ih (t.insert (Position.encode p) v) (p + 1) he with hold | ⟨i, hi, hkey⟩
    · rcases mem_insertEntry hold with rfl | hold
      · refine Or.inr ⟨0, by simp, ?_⟩
        show Position.encode p = Position.encode (p + 0)
        rw [UInt64.add_zero]
      · exact Or.inl hold
    · refine Or.inr ⟨i + 1, by simpa using hi, ?_⟩
      rw [hkey, UInt64.add_assoc, UInt64.ofNat_add, UInt64.add_comm 1]
      rfl

namespace Within

theorem length_eq (h : Within t s) : s.length = s.tail.toNat - s.head.toNat :=
  UInt64.toNat_sub_of_le _ _ (UInt64.le_iff_toNat_le.mpr h.head_le_tail)

theorem append (new : List Bytes) {tail : UInt64} (h : Within t s)
    (hroom : s.backEnd new.length = .ok tail) :
    Within (t.apply (Position.putFrom s.tail new)) ⟨s.head, tail⟩
      ∧ (⟨s.head, tail⟩ : Span).length = s.length + new.length := by
  have hle := h.head_le_tail
  unfold Span.backEnd at hroom
  split at hroom
  case isFalse => cases hroom
  case isTrue hlt =>
    cases hroom
    have htail := Position.toNat_add_ofNat hlt
    have hwithin : Within (t.apply (Position.putFrom s.tail new))
        ⟨s.head, s.tail + UInt64.ofNat new.length⟩ := by
      refine ⟨?_, ?_⟩
      · show s.head.toNat ≤ (s.tail + UInt64.ofNat new.length).toNat
        omega
      · intro e he x hx
        show s.head.toNat ≤ x.toNat ∧ x.toNat < (s.tail + UInt64.ofNat new.length).toNat
        rcases mem_apply_putFrom new t s.tail he with hold | ⟨i, hi, hkey⟩
        · have := h.inside e hold x hx
          omega
        · -- a new key is a position from the old tail on
          rw [hkey, Position.decode_encode] at hx
          cases hx
          have := Position.toNat_add_ofNat (p := s.tail) (n := i) (by omega)
          omega
    refine ⟨hwithin, ?_⟩
    rw [hwithin.length_eq, h.length_eq]
    show (s.tail + UInt64.ofNat new.length).toNat - s.head.toNat = _
    omega

/-- An entry under another key leaves the range as it was. -/
theorem dropFirst (h : Within t s) : Within t.dropFirst s :=
  ⟨h.head_le_tail, fun e he => h.inside e (List.mem_of_mem_tail he)⟩

/-- Positions behind the first one are greater. -/
theorem behind_first {e : Entry} {es : List Entry} {x : UInt64} (h : Within t s)
    (hes : t.entries = e :: es) (hx : Position.decode e.1 = .ok x) :
    ∀ d ∈ t.dropFirst.entries, ∀ y, Position.decode d.1 = .ok y →
      x.toNat < y.toNat ∧ y.toNat < s.tail.toNat := by
  intro d hd y hy
  have hsorted := t.sorted
  rw [hes] at hsorted
  have hmem : d ∈ es := by
    have : d ∈ t.entries.tail := hd
    rwa [hes] at this
  have hlt := (List.pairwise_cons.mp hsorted).1 d hmem
  -- keys are compared as positions are
  rw [← Position.encode_of_decode hx, ← Position.encode_of_decode hy,
    Position.encode_lt_encode] at hlt
  exact ⟨UInt64.lt_iff_toNat_lt.mp hlt, (h.inside d (hes ▸ List.mem_cons_of_mem e hmem) y hy).2⟩

/-- **The first position takes what lies before it along**, itself included. -/
theorem popFront {e : Entry} {es : List Entry} {x : UInt64} (h : Within t s)
    (hes : t.entries = e :: es) (hx : Position.decode e.1 = .ok x) :
    Within t.dropFirst (s.popFront x) ∧ (s.popFront x).length + 1 ≤ s.length := by
  obtain ⟨hhead, htail⟩ := h.inside e (hes ▸ List.mem_cons_self) x hx
  have hlength := Span.length_popFront (r := s) htail
  have hroom := Nat.lt_of_le_of_lt (Nat.succ_le_of_lt htail) s.tail.toNat_lt
  have hnext : (x + 1).toNat = x.toNat + 1 := Position.toNat_add_one hroom
  refine ⟨?_, ?_⟩
  · unfold Span.popFront
    split
    next heq =>
      -- that was the last position, so no other key is one
      refine ⟨Nat.le_refl _, fun d hd y hy => ?_⟩
      have := h.behind_first hes hx d hd y hy
      rw [← heq, hnext] at this
      omega
    next =>
      refine ⟨?_, fun d hd y hy => ?_⟩
      · show (x + 1).toNat ≤ s.tail.toNat
        omega
      · have := h.behind_first hes hx d hd y hy
        show (x + 1).toNat ≤ y.toNat ∧ y.toNat < s.tail.toNat
        omega
  · rw [hlength, h.length_eq]
    omega

theorem cleared (t : Tree) : Within (t.apply t.deleteAll) .fresh := by
  refine ⟨Nat.le_refl _, fun e he => ?_⟩
  rw [entries_apply_deleteAll] at he
  cases he

/-- Positions among the keys of a tree lie between its first key and its last, if these
are positions too. -/
theorem between_ends {e : Entry} {es : List Entry} {p q : UInt64} (hes : t.entries = e :: es)
    (hp : e.1 = Position.encode p)
    (hq : (e :: es).getLast?.map Prod.fst = some (Position.encode q)) :
    ∀ d ∈ t.entries, ∀ x, Position.decode d.1 = .ok x → p.toNat ≤ x.toNat ∧ x.toNat ≤ q.toNat := by
  intro d hd x hx
  have hsorted := t.sorted
  rw [hes] at hd hsorted
  have hkey := Position.encode_of_decode hx
  refine ⟨?_, ?_⟩
  · rcases List.mem_cons.mp hd with rfl | hd
    · exact Nat.le_of_eq (congrArg UInt64.toNat (Position.encode_inj (hp.symm.trans hkey.symm)))
    · have hlt := (List.pairwise_cons.mp hsorted).1 d hd
      rw [hp, ← hkey, Position.encode_lt_encode] at hlt
      exact Nat.le_of_lt (UInt64.lt_iff_toNat_lt.mp hlt)
  · -- the entries up to this one end with its key
    obtain ⟨front, after, hsplit⟩ := List.append_of_mem hd
    have hlast : (front ++ [d]).getLast?.map Prod.fst = some (Position.encode x) := by
      rw [List.getLast?_concat, hkey]
      rfl
    have hwhole : e :: es = (front ++ [d]) ++ after := by rw [hsplit]; simp
    rw [hwhole] at hsorted hq
    rcases Position.eq_or_lt_of_getLast? hsorted hlast hq with ⟨rfl, -⟩ | ⟨hlt, -⟩
    · exact Nat.le_refl _
    · exact Nat.le_of_lt (UInt64.lt_iff_toNat_lt.mp hlt)

/-- A tree opens with the range from its first key to its last, and both are
positions. -/
theorem of_recover (h : Span.recover t = .ok s) : Within t s := by
  cases hes : t.entries with
  | nil =>
    rw [Fills.eq_fresh_of_recover hes h]
    refine ⟨Nat.le_refl _, fun e he => ?_⟩
    rw [hes] at he
    cases he
  | cons e es =>
    obtain ⟨p, q, hp, hq, hne, rfl, -⟩ := Fills.exists_ends_of_recover hes h
    have hsize : q.toNat < UInt64.size := q.toNat_lt
    have htail : (q + 1).toNat = q.toNat + 1 := Position.toNat_add_one (by omega)
    have hbetween := between_ends hes hp hq
    refine ⟨?_, fun d hd x hx => ?_⟩
    · have := hbetween e (hes ▸ List.mem_cons_self) p (by rw [hp, Position.decode_encode])
      show p.toNat ≤ (q + 1).toNat
      omega
    · have := hbetween d hd x hx
      show p.toNat ≤ x.toNat ∧ x.toNat < (q + 1).toNat
      omega

end Within
end Tree

/-! ## §2. One call. -/

/-- An entry under a position that is no block: it is gone, and the hashes are counted
again. -/
theorem StoredQueue.poll_of_damage {q : StoredQueue} {e : Entry} {es : List Entry} {x : UInt64}
    {cause : StoreError} (h : q.tree.entries = e :: es) (hx : Position.decode e.1 = .ok x)
    (hcause : decodeBlock e.2 = .error cause) :
    q.poll = { q with tree := q.tree.dropFirst, span := q.span.popFront x }.reindex cause := by
  have hfirst : q.tree.first? = some e := by unfold Tree.first?; rw [h]; rfl
  unfold poll
  rw [hfirst]
  dsimp only
  rw [hx]
  dsimp only
  rw [hcause]

/-- What is taken from a tree makes its range shorter, and so does what is damaged. -/
theorem StoredQueue.within_poll {q : StoredQueue} (h : q.tree.Within q.span) :
    q.poll.next.tree.Within q.poll.next.span
      ∧ q.poll.next.length + q.poll.answer.toOption.toList.length ≤ q.length := by
  cases hes : q.tree.entries with
  | nil =>
    rw [StoredQueue.poll_of_nil hes]
    exact ⟨h, Nat.le_refl _⟩
  | cons e es =>
    by_cases hkey : e.1.length = 8
    · obtain ⟨x, hx⟩ := Position.exists_decode hkey
      obtain ⟨hwithin, hlength⟩ := Tree.Within.popFront h hes hx
      cases hb : StoredQueue.decodeBlock e.2 with
      | ok b =>
        rw [StoredQueue.poll_of_position hes hx hb]
        exact ⟨hwithin, hlength⟩
      | error cause =>
        -- the entry is gone, and nothing is answered for it
        obtain ⟨htree, hspan⟩ := StoredQueue.tree_reindex
          { q with tree := q.tree.dropFirst, span := q.span.popFront x } cause
        rw [StoredQueue.poll_of_damage hes hx hb, StoredQueue.answer_reindex]
        refine ⟨?_, ?_⟩
        · rw [htree, hspan]
          exact hwithin
        · show Span.length _ + 0 ≤ q.span.length
          rw [hspan]
          show (q.span.popFront x).length + 0 ≤ q.span.length
          omega
    · rw [StoredQueue.poll_of_stray hes hkey]
      exact ⟨Tree.Within.dropFirst h, Nat.le_refl _⟩

namespace BlockQueue

/-- How many blocks a call may append beyond the capacity. -/
def Call.excess : Call → Nat
  | .enqueue _ => 1
  | _ => 0

/-- The positions among the keys of a queue lie in the range that is remembered. -/
def Within : BlockQueue → Prop
  | .volatile _ => True
  | .stored q => q.tree.Within q.span

namespace Within

variable {q : BlockQueue}

theorem enqueue (h : q.Within) (b : Block) :
    (q.enqueue b).next.Within ∧ (q.enqueue b).next.length ≤ q.length + 1 := by
  cases q with
  | volatile q =>
    refine ⟨trivial, ?_⟩
    show (q.blocks ++ [b]).length ≤ q.blocks.length + 1
    simp
  | stored q =>
    show Within (.stored (q.enqueue b).next) ∧ (q.enqueue b).next.length ≤ q.length + 1
    unfold StoredQueue.enqueue
    cases hroom : q.span.backEnd 1 with
    | error e => exact ⟨h, Nat.le_succ _⟩
    | ok tail =>
      obtain ⟨hwithin, hlength⟩ := Tree.Within.append [Block.Binary.encode b] h hroom
      exact ⟨hwithin, Nat.le_of_eq hlength⟩

theorem enqueueBatch (h : q.Within) (bs : List Block) :
    (q.enqueueBatch bs).next.Within
      ∧ (q.enqueueBatch bs).next.length ≤ max q.capacity q.length := by
  cases q with
  | volatile q =>
    refine ⟨trivial, ?_⟩
    show (q.blocks ++ bs.take (min (q.capacity - q.blocks.length) bs.length)).length
      ≤ max q.capacity q.blocks.length
    rw [List.length_append, List.length_take]
    omega
  | stored q =>
    let kept := Capacity.admissible q.capacity q.length bs.length
    have hkept : kept ≤ q.capacity - q.length := Nat.min_le_left _ _
    have hlen : ((bs.take kept).map Block.Binary.encode).length = kept := by
      have : kept ≤ bs.length := Nat.min_le_right _ _
      rw [List.length_map, List.length_take]
      omega
    show Within (.stored (q.enqueueBatch bs).next)
      ∧ (q.enqueueBatch bs).next.length ≤ max q.capacity q.length
    simp only [StoredQueue.enqueueBatch]
    cases hroom : q.span.backEnd kept with
    | error e => exact ⟨h, Nat.le_max_right _ _⟩
    | ok tail =>
      obtain ⟨hwithin, hlength⟩ := Tree.Within.append _ h (by rw [hlen]; exact hroom)
      refine ⟨hwithin, ?_⟩
      rw [hlen] at hlength
      show (⟨q.span.head, tail⟩ : Span).length ≤ max q.capacity q.length
      have : q.length = q.span.length := rfl
      omega

/-- What is taken makes the queue shorter, and nothing makes it longer. -/
theorem poll (h : q.Within) :
    q.poll.next.Within
      ∧ q.poll.next.length + q.poll.answer.toOption.toList.length ≤ q.length := by
  cases q with
  | volatile q =>
    refine ⟨trivial, ?_⟩
    show (VolatileQueue.poll q).next.blocks.length
      + (VolatileQueue.poll q).answer.toOption.toList.length ≤ q.blocks.length
    unfold VolatileQueue.poll
    split
    next hblocks =>
      show q.blocks.length + 0 ≤ _
      rw [hblocks]
      exact Nat.le_refl _
    next hblocks =>
      rw [hblocks]
      exact Nat.le_refl _
  | stored q =>
    obtain ⟨hwithin, hlength⟩ := StoredQueue.within_poll h
    exact ⟨hwithin, hlength⟩

theorem clear (q : BlockQueue) : q.clear.Within ∧ q.clear.length = 0 := by
  cases q with
  | volatile q => exact ⟨trivial, rfl⟩
  | stored q => exact ⟨Tree.Within.cleared q.tree, (Tree.Within.cleared q.tree).length_eq⟩

/-- **A call keeps the range**, and makes the queue no longer than its capacity or
than it was, a single append excepted. -/
theorem perform (h : q.Within) (c : Call) :
    (q.perform c).2.Within ∧ (q.perform c).2.length ≤ max q.capacity q.length + c.excess := by
  cases c with
  | enqueue b =>
    obtain ⟨hnext, hlength⟩ := h.enqueue b
    refine ⟨hnext, ?_⟩
    show (q.enqueue b).next.length ≤ max q.capacity q.length + 1
    omega
  | enqueueBatch bs => exact h.enqueueBatch bs
  | poll =>
    obtain ⟨hnext, hlength⟩ := h.poll
    refine ⟨hnext, ?_⟩
    show q.poll.next.length ≤ max q.capacity q.length + 0
    omega
  | clear =>
    obtain ⟨hnext, hlength⟩ := clear q
    refine ⟨hnext, ?_⟩
    show q.clear.length ≤ max q.capacity q.length + 0
    omega
  | _ => exact ⟨h, Nat.le_max_right _ _⟩

end Within

/-- The states of a queue that opened, whatever the keys and the values of its tree
are, under any calls. -/
inductive Opened : BlockQueue → Prop where
  | empty (capacity : Nat) : Opened (.empty capacity)
  | opened {t : Tree} {capacity : Nat} {q : BlockQueue} {events : List Event}
      (hopen : openTree t capacity = .ok (q, events)) : Opened q
  | performed {q : BlockQueue} (h : Opened q) (c : Call) : Opened (q.perform c).2

theorem Opened.within {q : BlockQueue} (h : Opened q) : q.Within := by
  induction h with
  | empty capacity => trivial
  | @opened t capacity q events hopen =>
    cases hr : StoredQueue.recover t capacity with
    | error e =>
      unfold openTree at hopen
      rw [hr] at hopen
      cases hopen
    | ok r =>
      unfold openTree at hopen
      rw [hr] at hopen
      cases hopen
      obtain ⟨-, -, rfl, hspan, -⟩ := StoredQueue.exists_blocks_of_recover hr
      exact Tree.Within.of_recover hspan
  | performed _ c ih => exact (ih.perform c).1

end BlockQueue
end BlockSync
