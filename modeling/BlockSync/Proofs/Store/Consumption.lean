/-
  BlockSync.Proofs.Store.Consumption
  ──────────────────────────────────
  **WHATEVER OPENS IS TAKEN IN KEY ORDER.**

  Whoever opens a tree looks at its first key, at its last key and at the count of
  entries.  So a tree may open with keys between these two that are no positions;
  the positions among its keys then leave as many gaps.  What is taken from such a
  tree comes from its front, entry by entry, and the length is counted from the
  position taken last:

      ascent               where that position lies between head and tail
      Consumed             what is left, and what is remembered of the range
      Consumed.popFront    entries go from the front, the last under a position

  A queue and a frontier differ in what they do when another key comes to the front:
  a poll takes the entry all the same, a drain takes nothing.

      StoredQueue.Polled.next              one poll
      StoredFrontier.Drains.exists_drained every sequence of drains
      opened_consumed                      both stores, whatever the keys
-/
import BlockSync.Proofs.Store.BlockQueue
import BlockSync.Proofs.Store.Frontier
import Mathlib.Data.List.Basic

namespace BlockSync

/-! ## §1. Positions among other keys. -/

namespace Position

/-- The last of consecutive positions is as many behind the first as there are others. -/
theorem key_of_concat_eq_entriesFrom {before : List Entry} {e : Entry} {p : UInt64}
    (h : before ++ [e] = entriesFrom p ((before ++ [e]).map Prod.snd)) :
    e.1 = encode (p + UInt64.ofNat before.length) := by
  rw [List.map_append, List.map_singleton, entriesFrom_append] at h
  have hlast := List.singleton_inj.mp (List.append_inj' h rfl).2
  rw [List.length_map] at hlast
  exact congrArg Prod.fst hlast

/-- A position among ascending keys is the last of them, or it lies before the last. -/
theorem eq_or_lt_of_getLast? {front after : List Entry} {x q : UInt64}
    (hsorted : (front ++ after).Pairwise fun a b => a.1 < b.1)
    (hx : front.getLast?.map Prod.fst = some (encode x))
    (hq : (front ++ after).getLast?.map Prod.fst = some (encode q)) :
    (x = q ∧ after = []) ∨ (x < q ∧ after ≠ []) := by
  rcases List.eq_nil_or_concat after with rfl | ⟨bs, b, rfl⟩
  · rw [List.append_nil, hx] at hq
    exact Or.inl ⟨encode_inj (Option.some.inj hq), rfl⟩
  · rw [List.concat_eq_append] at hsorted hq ⊢
    rw [← List.append_assoc, List.getLast?_concat] at hq
    obtain ⟨e, he, hex⟩ := Option.map_eq_some_iff.mp hx
    refine Or.inr ⟨?_, List.append_ne_nil_of_right_ne_nil bs (List.cons_ne_nil b [])⟩
    rw [← encode_lt_encode, ← hex, ← Option.some.inj hq]
    exact (List.pairwise_append.mp hsorted).2.2 e (List.mem_of_getLast? he) b
      (List.mem_append_right bs (List.mem_singleton_self b))

end Position

namespace Tree

variable {t : Tree} {s : Span}

/-- Some entries lie under consecutive positions from the head of a range on. -/
def Unbroken (s : Span) (es : List Entry) : Prop :=
  es = Position.entriesFrom s.head (es.map Prod.snd)

/-- Where a position lies in the range of a tree, if only positions come before it. -/
structure Ascent (s : Span) (size : Nat) (before after : List Entry) (e : Entry) (x : UInt64) :
    Prop where
  tail : s.tail.toNat = s.head.toNat + size
  above : s.head.toNat + before.length ≤ x.toNat
  last : (x.toNat + 1 = s.tail.toNat ∧ after = []) ∨ (x.toNat + 1 < s.tail.toNat ∧ after ≠ [])
  unbroken_iff : Unbroken s (before ++ [e]) ↔ x.toNat = s.head.toNat + before.length

/-- **The keys of a tree that opens ascend from the head to the tail**, whatever
keys lie between them. -/
theorem ascent {before after : List Entry} {e : Entry} {x : UInt64}
    (hopen : Span.recover t = .ok s) (hes : t.entries = before ++ e :: after)
    (hkeys : ∀ d ∈ before ++ [e], d.1.length = 8) (hx : e.1 = Position.encode x) :
    Ascent s t.size before after e x := by
  -- the first entry is at the head, and the entry itself is the last of these
  obtain ⟨a, as, has⟩ := List.exists_cons_of_ne_nil (List.append_ne_nil_of_right_ne_nil before
    (List.cons_ne_nil e []))
  have hlen : as.length = before.length := by
    have := congrArg List.length has
    rw [List.length_append, List.length_singleton, List.length_cons] at this
    omega
  have hfront : t.entries = a :: as ++ after := by
    rw [hes, ← has, List.append_assoc]
    rfl
  have hgone : (a :: as).getLast?.map Prod.fst = some (Position.encode x) := by
    rw [← has, List.getLast?_concat, ← hx]
    rfl
  have hsorted := t.sorted
  obtain ⟨p, q, hp, hq, hne, rfl, hcount⟩ := Fills.exists_ends_of_recover hfront hopen
  rw [hfront] at hsorted
  rw [has] at hkeys
  have hascending := (List.pairwise_append.mp hsorted).1
  have habove := Position.toNat_add_length_le as a p x hascending hkeys hp hgone
  have hqlt : q.toNat < UInt64.size := q.toNat_lt
  have htail : (q + 1).toNat = q.toNat + 1 := Position.toNat_add_one (by omega)
  have hlast : (x.toNat + 1 = (q + 1).toNat ∧ after = [])
      ∨ (x.toNat + 1 < (q + 1).toNat ∧ after ≠ []) := by
    rcases Position.eq_or_lt_of_getLast? hsorted hgone hq with ⟨rfl, hnil⟩ | ⟨hlt, hne⟩
    · exact Or.inl ⟨htail.symm, hnil⟩
    · have := UInt64.lt_iff_toNat_lt.mp hlt
      exact Or.inr ⟨by omega, hne⟩
  have hle : x.toNat ≤ q.toNat := by omega
  refine ⟨?_, ?_, hlast, ?_⟩
  · show (q + 1).toNat = p.toNat + t.size
    unfold Span.length at hcount
    dsimp only at hcount
    rw [UInt64.toNat_sub_of_le _ _ (UInt64.le_iff_toNat_le.mpr (by omega))] at hcount
    omega
  · show p.toNat + before.length ≤ x.toNat
    omega
  · show Unbroken _ (before ++ [e]) ↔ x.toNat = p.toNat + before.length
    have hroom : p.toNat + before.length < UInt64.size := by omega
    constructor
    · intro hrun
      obtain rfl := Position.encode_inj (hx.symm.trans (Position.key_of_concat_eq_entriesFrom hrun))
      exact Position.toNat_add_ofNat hroom
    · intro heq
      unfold Unbroken
      rw [has]
      exact Position.eq_entriesFrom as a p x hascending hkeys hp hgone (by omega)

end Tree

namespace Span

theorem tail_popFront {r : Span} {x : UInt64} (h : x.toNat + 1 < r.tail.toNat) :
    (r.popFront x).tail = r.tail := by
  have hroom : x.toNat + 1 < UInt64.size := Nat.lt_trans h r.tail.toNat_lt
  have hne : x + 1 ≠ r.tail := fun heq => by
    rw [← heq, Position.toNat_add_one hroom] at h
    exact Nat.lt_irrefl _ h
  unfold popFront
  rw [if_neg hne]

/-- What lies behind a position counts, also if that is nothing. -/
theorem length_popFront {r : Span} {x : UInt64} (h : x.toNat + 1 ≤ r.tail.toNat) :
    (r.popFront x).length = r.tail.toNat - (x.toNat + 1) := by
  have hroom : x.toNat + 1 < UInt64.size := Nat.lt_of_le_of_lt h r.tail.toNat_lt
  have hnext : (x + 1).toNat = x.toNat + 1 := Position.toNat_add_one hroom
  unfold popFront
  split
  next heq =>
    rw [← heq, hnext, Nat.sub_self]
    rfl
  next =>
    have hle : x + 1 ≤ r.tail := UInt64.le_iff_toNat_le.mpr (by omega)
    unfold length
    rw [UInt64.toNat_sub_of_le _ _ hle, hnext]

end Span

/-! ## §2. What is left, and what is remembered of it. -/

namespace Tree

variable {t left next : Tree} {s range : Span} {gone : List Entry}

/-- Some entries are gone from a tree that was opened with a range, all of them
under positions: what is left of it, and what a store remembers of the range. -/
structure Consumed (t : Tree) (s : Span) (gone : List Entry) (left : Tree) (range : Span) :
    Prop where
  entries : t.entries = gone ++ left.entries
  keys : ∀ e ∈ gone, e.1.length = 8
  tail : left.entries ≠ [] → range.tail = s.tail
  length_le : range.length ≤ left.size
  length_eq_iff : range.length = left.size ↔ Unbroken s gone

namespace Consumed

theorem start (hopen : Span.recover t = .ok s) : Consumed t s [] t s where
  entries := rfl
  keys e he := by cases he
  tail _ := rfl
  length_le := Nat.le_of_eq (Fills.length_of_recover hopen)
  length_eq_iff := iff_of_true (Fills.length_of_recover hopen) rfl

/-- **Entries go from the front, the last of them under a position.**  What is
remembered of the range is counted from that position on. -/
theorem popFront (hopen : Span.recover t = .ok s) (h : Consumed t s gone left range)
    {before : List Entry} {e : Entry} {x : UInt64}
    (hleft : left.entries = before ++ e :: next.entries)
    (hkeys : ∀ d ∈ before ++ [e], d.1.length = 8) (hx : e.1 = Position.encode x) :
    Consumed t s (gone ++ (before ++ [e])) next (range.popFront x) := by
  have hes : t.entries = (gone ++ before) ++ e :: next.entries := by
    rw [h.entries, hleft, List.append_assoc]
  have hall : ∀ d ∈ (gone ++ before) ++ [e], d.1.length = 8 := by
    intro d hd
    rw [List.append_assoc] at hd
    rcases List.mem_append.mp hd with hd | hd
    · exact h.keys d hd
    · exact hkeys d hd
  have hsize : t.size = (gone ++ before).length + 1 + next.size := by
    unfold Tree.size
    rw [hes, List.length_append, List.length_cons]
    omega
  have hasc := ascent hopen hes hall hx
  have htail : range.tail = s.tail := h.tail (by rw [hleft]; simp)
  have hbelow : x.toNat + 1 ≤ s.tail.toNat := by
    rcases hasc.last with ⟨heq, -⟩ | ⟨hlt, -⟩
    · exact Nat.le_of_eq heq
    · exact Nat.le_of_lt hlt
  have hlength := Span.length_popFront (r := range) (by rw [htail]; exact hbelow)
  have habove := hasc.above
  have hwidth := hasc.tail
  rw [htail] at hlength
  refine ⟨?_, ?_, ?_, ?_, ?_⟩
  · rw [hes]
    simp
  · rw [← List.append_assoc]
    exact hall
  · intro hne
    rcases hasc.last with ⟨-, hnil⟩ | ⟨hlt, -⟩
    · exact absurd hnil hne
    · rw [Span.tail_popFront (by rw [htail]; exact hlt), htail]
  · omega
  · rw [← List.append_assoc, hasc.unbroken_iff]
    omega

/-- If every key is a position, they leave no gap, and all is remembered. -/
theorem length_eq (hopen : Span.recover t = .ok s) (h : Consumed t s gone left range)
    (hkeys : ∀ e ∈ t.entries, e.1.length = 8) : range.length = left.size := by
  refine h.length_eq_iff.mpr ?_
  have hfills := (Fills.of_recover hkeys hopen).entries
  have hsplit : t.values = gone.map Prod.snd ++ left.values := by
    unfold Tree.values
    rw [h.entries, List.map_append]
  rw [hsplit, Position.entriesFrom_append, h.entries] at hfills
  exact (List.append_inj hfills (by simp)).1

end Consumed

end Tree

/-! ## §3. A queue, poll after poll. -/

namespace StoredQueue

/-- The queue after a number of polls. -/
def afterPolls (q : StoredQueue) : Nat → StoredQueue
  | 0 => q
  | k + 1 => (q.afterPolls k).poll.next

/-- An entry with a block under a position. -/
theorem poll_of_position {q : StoredQueue} {e : Entry} {es : List Entry} {x : UInt64} {b : Block}
    (h : q.tree.entries = e :: es) (hx : Position.decode e.1 = .ok x)
    (hb : decodeBlock e.2 = .ok b) :
    q.poll = .ok b { q with
      tree := q.tree.dropFirst
      span := q.span.popFront x
      index := q.index.remove b.hash } := by
  have hfirst : q.tree.first? = some e := by unfold Tree.first?; rw [h]; rfl
  unfold poll
  rw [hfirst]
  dsimp only
  rw [hx]
  dsimp only
  rw [hb]

/-- An entry under any other key: it is gone all the same. -/
theorem poll_of_stray {q : StoredQueue} {e : Entry} {es : List Entry}
    (h : q.tree.entries = e :: es) (hkey : e.1.length ≠ 8) :
    q.poll = ⟨.error (.corruption (.keyLength e.1.length)),
      { q with tree := q.tree.dropFirst }, []⟩ := by
  have hfirst : q.tree.first? = some e := by unfold Tree.first?; rw [h]; rfl
  unfold poll Position.decode
  rw [hfirst]
  dsimp only
  rw [if_neg hkey]

/-- What is left of a tree of blocks is a tree of blocks. -/
theorem map_decodeBlock_drop {t : Tree} {bs : List Block}
    (hbs : t.values.map decodeBlock = bs.map .ok) (k : Nat) :
    (t.entries.drop k).map (fun e => decodeBlock e.2) = (bs.drop k).map .ok := by
  rw [List.map_drop, List.map_drop, ← hbs]
  unfold Tree.values
  rw [List.map_map]
  rfl

/-- How it stands with a queue over a tree of blocks after a number of polls. -/
structure Polled (t : Tree) (s : Span) (bs : List Block) (k : Nat) (q : StoredQueue) :
    Prop where
  entries : q.tree.entries = t.entries.drop k
  answer : ∀ e b, t.entries[k]? = some e → bs[k]? = some b →
    q.poll.answer = if e.1.length = 8 then .ok b else .error (.corruption (.keyLength e.1.length))
  exhausted : t.size ≤ k → q.poll = .refuse .emptyQueue q
  consumed : (∀ e ∈ t.entries.take k, e.1.length = 8) →
    t.Consumed s (t.entries.take k) q.tree q.span
      ∧ q.index.Counts ((bs.drop k).map Block.hash)

namespace Polled

variable {t : Tree} {s : Span} {bs : List Block} {k : Nat} {q : StoredQueue}

/-- The next answer is known from what is left. -/
theorem of_entries (hbs : t.values.map decodeBlock = bs.map .ok)
    (hentries : q.tree.entries = t.entries.drop k)
    (hconsumed : (∀ e ∈ t.entries.take k, e.1.length = 8) →
      t.Consumed s (t.entries.take k) q.tree q.span
        ∧ q.index.Counts ((bs.drop k).map Block.hash)) : Polled t s bs k q where
  entries := hentries
  answer e b he hb := by
    rw [← List.head?_drop] at he hb
    obtain ⟨es, hes⟩ := List.head?_eq_some_iff.mp he
    obtain ⟨ds, hds⟩ := List.head?_eq_some_iff.mp hb
    have hd := map_decodeBlock_drop hbs k
    rw [hes, hds] at hd
    replace hd := (List.cons.inj hd).1
    rw [hes] at hentries
    by_cases hkey : e.1.length = 8
    · obtain ⟨x, hx⟩ := Position.exists_decode hkey
      rw [if_pos hkey, poll_of_position hentries hx hd]
      rfl
    · rw [if_neg hkey, poll_of_stray hentries hkey]
  exhausted hsize := poll_of_nil (hentries.trans (List.drop_eq_nil_of_le hsize))
  consumed := hconsumed

theorem start (hopen : Span.recover q.tree = .ok q.span)
    (hbs : q.tree.values.map decodeBlock = bs.map .ok)
    (hindex : q.index.Counts (bs.map Block.hash)) : Polled q.tree q.span bs 0 q :=
  of_entries hbs rfl fun _ => ⟨.start hopen, hindex⟩

/-- **One poll** takes the first entry, if there is one. -/
theorem next (hopen : Span.recover t = .ok s) (hbs : t.values.map decodeBlock = bs.map .ok)
    (h : Polled t s bs k q) : Polled t s bs (k + 1) q.poll.next := by
  have hentries := h.entries
  have hleft := map_decodeBlock_drop hbs k
  -- one entry more is gone, and one less is left, of blocks as of entries
  have htake : t.entries.take (k + 1) = t.entries.take k ++ (t.entries.drop k).take 1 :=
    List.take_add
  have hdrop : t.entries.drop (k + 1) = (t.entries.drop k).drop 1 := List.drop_drop.symm
  have hblocks : bs.drop (k + 1) = (bs.drop k).drop 1 := List.drop_drop.symm
  cases hes : t.entries.drop k with
  | nil =>
    have hds : bs.drop k = [] := by
      rw [hes] at hleft
      exact List.map_eq_nil_iff.mp hleft.symm
    have hconsumed := h.consumed
    rw [hes, List.take_nil, List.append_nil] at htake
    rw [hds] at hconsumed hblocks
    rw [h.exhausted (List.drop_eq_nil_iff.mp hes)]
    refine of_entries hbs ?_ ?_
    · rw [hdrop, hes]
      exact hentries.trans hes
    · rw [htake, hblocks]
      exact hconsumed
  | cons e es =>
    rw [hes] at htake hdrop hentries hleft
    obtain ⟨b, ds, hds, hb, -⟩ := List.map_eq_cons_iff.mp hleft.symm
    rw [hds] at hblocks
    have hgone : q.tree.dropFirst.entries = t.entries.drop (k + 1) := by
      show q.tree.entries.tail = _
      rw [hentries, hdrop]
      rfl
    by_cases hkey : e.1.length = 8
    · obtain ⟨x, hx⟩ := Position.exists_decode hkey
      rw [poll_of_position hentries hx hb.symm]
      refine of_entries hbs hgone fun hkeys => ?_
      rw [htake] at hkeys ⊢
      obtain ⟨hconsumed, hindex⟩ := h.consumed fun d hd => hkeys d (List.mem_append_left _ hd)
      rw [hds] at hindex
      have hfront : q.tree.entries = [] ++ e :: q.tree.dropFirst.entries := by
        rw [hgone, hdrop]
        exact hentries
      refine ⟨hconsumed.popFront hopen hfront ?_ (Position.encode_of_decode hx).symm, ?_⟩
      · exact fun d hd => hkeys d (List.mem_append_right _ hd)
      · rw [hblocks]
        exact hindex.remove
    · -- the key is no position, so nothing is said any more
      rw [poll_of_stray hentries hkey]
      refine of_entries hbs hgone fun hkeys => absurd (hkeys e ?_) hkey
      rw [htake]
      exact List.mem_append_right _ (List.mem_singleton_self e)

end Polled

/-- **Every number of polls.** -/
theorem polled_afterPolls {t : Tree} {capacity : Nat} {q : StoredQueue}
    (hq : recover t capacity = .ok q) :
    ∃ bs : List Block, t.values.map decodeBlock = bs.map .ok ∧ Span.recover t = .ok q.span
      ∧ ∀ k, Polled t q.span bs k (q.afterPolls k) := by
  obtain ⟨bs, hbs, rfl, hopen, hindex⟩ := exists_blocks_of_recover hq
  refine ⟨bs, hbs, hopen, fun k => ?_⟩
  induction k with
  | zero => exact .start hopen hbs hindex
  | succ k ih => exact ih.next hopen hbs

end StoredQueue

/-! ## §4. A frontier, drain after drain. -/

namespace StoredFrontier

theorem decodeEntry_of_position {e : Entry} {h : BlockHash} {x : UInt64} (hh : e.2 = h.bytes)
    (hx : Position.decode e.1 = .ok x) : decodeEntry e = .ok (h, x) := by
  unfold decodeEntry
  rw [hh, decodeHash_bytes, hx]
  rfl

/-- Hashes under positions are all decoded. -/
theorem exists_mapM_decodeEntry {es : List Entry} :
    ∀ {hs : List BlockHash}, es.map Prod.snd = hs.map BlockHash.bytes →
      (∀ e ∈ es, e.1.length = 8) →
      ∃ ds, es.mapM decodeEntry = .ok ds ∧ ds.map Prod.fst = hs
        ∧ ds.map (fun d => Position.encode d.2) = es.map Prod.fst := by
  induction es with
  | nil =>
    intro hs hvalues _
    rw [List.map_eq_nil_iff.mp hvalues.symm]
    exact ⟨[], rfl, rfl, rfl⟩
  | cons e es ih =>
    intro hs hvalues hkeys
    obtain ⟨h, ks, rfl, hh, hks⟩ := List.map_eq_cons_iff.mp hvalues.symm
    obtain ⟨ds, hds, hfst, hsnd⟩ := ih hks.symm fun d hd => hkeys d (List.mem_cons_of_mem e hd)
    obtain ⟨x, hx⟩ := Position.exists_decode (hkeys e List.mem_cons_self)
    refine ⟨(h, x) :: ds, ?_, congrArg (h :: ·) hfst, ?_⟩
    · rw [List.mapM_cons, decodeEntry_of_position hh.symm hx, hds]
      rfl
    · rw [List.map_cons, List.map_cons, hsnd, Position.encode_of_decode hx]

/-- The first key that is no position is reported. -/
theorem mapM_decodeEntry_of_stray {es : List Entry} {e : Entry} :
    ∀ {hs : List BlockHash}, es.map Prod.snd = hs.map BlockHash.bytes →
      es.find? (fun e => e.1.length ≠ 8) = some e →
      es.mapM decodeEntry = .error (.corruption (.keyLength e.1.length)) := by
  induction es with
  | nil => intro hs _ hfind; cases hfind
  | cons d es ih =>
    intro hs hvalues hfind
    obtain ⟨h, ks, rfl, hh, hks⟩ := List.map_eq_cons_iff.mp hvalues.symm
    by_cases hkey : d.1.length = 8
    · obtain ⟨x, hx⟩ := Position.exists_decode hkey
      rw [List.find?_cons_of_neg (by simpa using hkey)] at hfind
      rw [List.mapM_cons, decodeEntry_of_position hh.symm hx, ih hks.symm hfind]
      rfl
    · rw [List.find?_cons_of_pos (by simpa using hkey)] at hfind
      obtain rfl := Option.some.inj hfind
      have hentry : decodeEntry d = .error (.corruption (.keyLength d.1.length)) := by
        unfold decodeEntry Position.decode
        rw [← hh, decodeHash_bytes, if_neg hkey]
        rfl
      rw [List.mapM_cons, hentry]
      rfl

/-- What may become of a frontier by drains alone: how many hashes they asked for
together, and the hashes they gave out. -/
inductive Drains (f : StoredFrontier) :
    (asked : Nat) → (given : List BlockHash) → StoredFrontier → Prop where
  | start : Drains f 0 [] f
  | drained {asked : Nat} {given : List BlockHash} {g : StoredFrontier}
      (h : Drains f asked given g) (n : Nat) :
      Drains f (asked + n) (given ++ (g.drainFront n).answer.toOption.getD [])
        (g.drainFront n).next

/-- How it stands with a frontier over a tree of hashes after `k` of them were taken. -/
structure Drained (t : Tree) (s : Span) (hs : List BlockHash) (k : Nat) (f : StoredFrontier) :
    Prop where
  consumed : t.Consumed s (t.entries.take k) f.tree f.span
  answer : ∀ n, (∀ e ∈ f.tree.entries.take n, e.1.length = 8) →
    (f.drainFront n).answer = .ok ((hs.drop k).take n)
  refused : ∀ n e, (f.tree.entries.take n).find? (fun e => e.1.length ≠ 8) = some e →
    f.drainFront n = .refuse (.corruption (.keyLength e.1.length)) f

section Drain

variable {t : Tree} {s : Span} {hs : List BlockHash} {k : Nat} {f : StoredFrontier}

/-- What is left of a tree of hashes is a tree of hashes. -/
theorem map_snd_left (hvalues : t.values = hs.map BlockHash.bytes)
    (h : t.Consumed s (t.entries.take k) f.tree f.span) (n : Nat) :
    f.tree.entries = t.entries.drop k
      ∧ (f.tree.entries.take n).map Prod.snd = ((hs.drop k).take n).map BlockHash.bytes := by
  have hleft : f.tree.entries = t.entries.drop k := by
    have hes := (List.take_append_drop k t.entries).trans h.entries
    exact (List.append_cancel_left hes).symm
  refine ⟨hleft, ?_⟩
  rw [hleft, List.map_take, List.map_drop, List.map_take, List.map_drop, ← hvalues]
  rfl

theorem drainFront_of_stray (hvalues : t.values = hs.map BlockHash.bytes)
    (h : t.Consumed s (t.entries.take k) f.tree f.span) {n : Nat} {e : Entry}
    (hfind : (f.tree.entries.take n).find? (fun e => e.1.length ≠ 8) = some e) :
    f.drainFront n = .refuse (.corruption (.keyLength e.1.length)) f := by
  have hmap := mapM_decodeEntry_of_stray (map_snd_left hvalues h n).2 hfind
  simp only [drainFront]
  rw [hmap]

theorem drainFront_of_positions (hopen : Span.recover t = .ok s)
    (hvalues : t.values = hs.map BlockHash.bytes)
    (h : t.Consumed s (t.entries.take k) f.tree f.span) {n : Nat}
    (hkeys : ∀ e ∈ f.tree.entries.take n, e.1.length = 8) :
    (f.drainFront n).answer = .ok ((hs.drop k).take n)
      ∧ t.Consumed s (t.entries.take (k + n)) (f.drainFront n).next.tree
        (f.drainFront n).next.span := by
  obtain ⟨hleft, hsnd⟩ := map_snd_left hvalues h n
  obtain ⟨ds, hds, hfst, hpositions⟩ := exists_mapM_decodeEntry hsnd hkeys
  have htake : t.entries.take (k + n) = t.entries.take k ++ f.tree.entries.take n := by
    rw [hleft]
    exact List.take_add
  simp only [drainFront]
  rw [hds, htake]
  dsimp only
  rcases List.eq_nil_or_concat (f.tree.entries.take n) with hnil | ⟨before, e, hconcat⟩
  · -- nothing is asked for, or nothing is left
    rw [hnil] at hsnd hpositions ⊢
    rw [List.map_eq_nil_iff.mp hpositions, List.append_nil, List.map_eq_nil_iff.mp hsnd.symm]
    exact ⟨rfl, h⟩
  · rw [List.concat_eq_append] at hconcat
    have hlast : (ds.map fun d => Position.encode d.2).getLast? = some e.1 := by
      rw [hpositions, hconcat, List.map_append, List.map_singleton, List.getLast?_concat]
    rw [List.getLast?_map] at hlast
    obtain ⟨d, hd, hx⟩ := Option.map_eq_some_iff.mp hlast
    rw [hd, hfst]
    refine ⟨rfl, ?_⟩
    have hsplit : f.tree.entries = f.tree.entries.take n ++ f.tree.entries.drop n :=
      (List.take_append_drop n _).symm
    have hgone := Tree.entries_apply_delete _ _ hsplit
    rw [hconcat] at hkeys ⊢
    refine h.popFront hopen ?_ hkeys hx.symm
    show f.tree.entries = before ++ e :: (Tree.apply _ _).entries
    rw [List.append_cons, ← hconcat, hgone]
    exact hsplit

theorem Drained.of_consumed (hopen : Span.recover t = .ok s)
    (hvalues : t.values = hs.map BlockHash.bytes)
    (h : t.Consumed s (t.entries.take k) f.tree f.span) : Drained t s hs k f where
  consumed := h
  answer _ hkeys := (drainFront_of_positions hopen hvalues h hkeys).1
  refused _ _ hfind := drainFront_of_stray hvalues h hfind

/-- **Every sequence of drains** has given out the first hashes, and if every key is
a position, as many as it asked for. -/
theorem Drains.exists_drained {asked : Nat} {given : List BlockHash} {g : StoredFrontier}
    (hopen : Span.recover f.tree = .ok f.span) (hvalues : f.tree.values = hs.map BlockHash.bytes)
    (h : Drains f asked given g) :
    ∃ k, given = hs.take k ∧ Drained f.tree f.span hs k g
      ∧ ((∀ e ∈ f.tree.entries, e.1.length = 8) → k = asked) := by
  induction h with
  | start => exact ⟨0, rfl, .of_consumed hopen hvalues (.start hopen), fun _ => rfl⟩
  | @drained asked given g h n ih =>
    obtain ⟨k, hgiven, hg, hall⟩ := ih
    cases hfind : (g.tree.entries.take n).find? (fun e => e.1.length ≠ 8) with
    | some e =>
      rw [hg.refused n e hfind]
      refine ⟨k, (List.append_nil given).trans hgiven, hg, fun hkeys => ?_⟩
      -- the key that was refused is one of the tree
      have hleft := (map_snd_left hvalues hg.consumed n).1
      have he : e ∈ f.tree.entries := by
        have := List.mem_of_mem_take (List.mem_of_find?_eq_some hfind)
        rw [hleft] at this
        exact List.mem_of_mem_drop this
      have hstray := List.find?_some hfind
      rw [hkeys e he] at hstray
      cases hstray
    | none =>
      have hkeys : ∀ e ∈ g.tree.entries.take n, e.1.length = 8 := fun e he =>
        Decidable.not_not.mp (of_decide_eq_false (Bool.eq_false_iff.mpr
          (List.find?_eq_none.mp hfind e he)))
      obtain ⟨hanswer, hconsumed⟩ := drainFront_of_positions hopen hvalues hg.consumed hkeys
      refine ⟨k + n, ?_, .of_consumed hopen hvalues hconsumed, fun hkeys => ?_⟩
      · rw [hanswer, hgiven, List.take_add]
        rfl
      · rw [hall hkeys]

end Drain

end StoredFrontier

/-! ## §5. Both stores. -/

theorem BlockQueue.recover_of_openTree {t : Tree} {capacity : Nat} {q : StoredQueue}
    {events : List Event} (h : openTree t capacity = .ok (.stored q, events)) :
    StoredQueue.recover t capacity = .ok q := by
  unfold openTree at h
  cases hr : StoredQueue.recover t capacity with
  | error e =>
    rw [hr] at h
    cases h
  | ok r =>
    rw [hr] at h
    cases h
    rfl

theorem Frontier.recover_of_openTree {t : Tree} {f : StoredFrontier} {events : List Event}
    (h : openTree t = .ok (.stored f, events)) : f.tree = t ∧ Span.recover t = .ok f.span := by
  unfold openTree StoredFrontier.recover at h
  cases hr : Span.recover t with
  | error e =>
    rw [hr] at h
    cases h
  | ok s =>
    rw [hr] at h
    cases h
    exact ⟨rfl, rfl⟩

/-- **WHATEVER OPENS IS TAKEN IN KEY ORDER.**  A tree may open that has other keys
than positions between the first and the last.

From a queue each poll takes the first entry, as long as there is one; it answers
the block if the key is a position, and else the length of the key.  A drain gives
out the first hashes if their keys are positions, and else it reports the first
other key and takes nothing.

As long as only positions are gone, the index of a queue knows just the hashes of
the blocks that are left, and the length is no greater than the count of entries
that are left, and equal to it exactly as long as the positions leave no gap.  If
every key is a position, that is always so, and nothing is ever reported. -/
theorem opened_consumed :
    (∀ {t : Tree} {capacity : Nat} {q : StoredQueue} {events : List Event},
        BlockQueue.openTree t capacity = .ok (.stored q, events) →
        ∃ bs : List Block, t.values.map StoredQueue.decodeBlock = bs.map .ok
          ∧ ∀ k, StoredQueue.Polled t q.span bs k (q.afterPolls k)
            ∧ ((∀ e ∈ t.entries.take k, e.1.length = 8) →
              ∀ h, (q.afterPolls k).index.contains h ↔ h ∈ (bs.drop k).map Block.hash)
            ∧ ((∀ e ∈ t.entries, e.1.length = 8) →
              (q.afterPolls k).length = (q.afterPolls k).tree.size
                ∧ ∀ d, (q.afterPolls k).poll.answer ≠ .error (.corruption d)))
      ∧ ∀ {t : Tree} {f : StoredFrontier} {events : List Event} {hs : List BlockHash},
        Frontier.openTree t = .ok (.stored f, events) → t.values = hs.map BlockHash.bytes →
        ∀ {asked : Nat} {given : List BlockHash} {g : StoredFrontier},
          StoredFrontier.Drains f asked given g →
          ∃ k, given = hs.take k ∧ StoredFrontier.Drained t f.span hs k g
            ∧ ((∀ e ∈ t.entries, e.1.length = 8) →
              k = asked ∧ g.length = g.tree.size
                ∧ ∀ n d, (g.drainFront n).answer ≠ .error (.corruption d)) := by
  constructor
  · intro t capacity q events hq
    obtain ⟨bs, hbs, hopen, hpolled⟩ :=
      StoredQueue.polled_afterPolls (BlockQueue.recover_of_openTree hq)
    refine ⟨bs, hbs, fun k => ⟨hpolled k, fun hkeys => ?_, fun hkeys => ⟨?_, fun d hd => ?_⟩⟩⟩
    · exact ((hpolled k).consumed hkeys).2.contains_iff
    · have hgone : ∀ e ∈ t.entries.take k, e.1.length = 8 := fun e he =>
        hkeys e (List.mem_of_mem_take he)
      exact ((hpolled k).consumed hgone).1.length_eq hopen hkeys
    · -- either nothing is left, or the first entry is a block under a position
      have hleft := StoredQueue.map_decodeBlock_drop hbs k
      cases hes : t.entries.drop k with
      | nil =>
        rw [(hpolled k).exhausted (List.drop_eq_nil_iff.mp hes)] at hd
        cases hd
      | cons e es =>
        rw [hes] at hleft
        obtain ⟨b, ds, hds, -, -⟩ := List.map_eq_cons_iff.mp hleft.symm
        have he : t.entries[k]? = some e := by rw [← List.head?_drop, hes]; rfl
        have hb : bs[k]? = some b := by rw [← List.head?_drop, hds]; rfl
        rw [(hpolled k).answer e b he hb, if_pos (hkeys e (List.mem_of_getElem? he))] at hd
        cases hd
  · intro t f events hs hf hvalues asked given g hg
    obtain ⟨rfl, hopen⟩ := Frontier.recover_of_openTree hf
    obtain ⟨k, hgiven, hdrained, hall⟩ := hg.exists_drained hopen hvalues
    refine ⟨k, hgiven, hdrained, fun hkeys => ⟨hall hkeys, ?_, fun n d hd => ?_⟩⟩
    · exact hdrained.consumed.length_eq hopen hkeys
    · have hleft := (StoredFrontier.map_snd_left hvalues hdrained.consumed n).1
      rw [hdrained.answer n fun e he => hkeys e ?_] at hd
      · cases hd
      · have := List.mem_of_mem_take he
        rw [hleft] at this
        exact List.mem_of_mem_drop this

/-- A tree with some values under some keys. -/
def Tree.under (keys values : List Bytes) : Tree :=
  (keys.zip values).foldl (fun t e => t.insert e.1 e.2) .empty

/-- Three keys, the second of them the first position and one byte more: as many as
there are positions from the first key to the last. -/
def strayedKeys : List Bytes :=
  let first := Position.encode Span.middle
  [first, first ++ [0], Position.encode (Span.middle + 2)]

/-- Four keys, the second of them the third position, and the third that and one
byte more. -/
def gappedKeys : List Bytes :=
  let third := Position.encode (Span.middle + 2)
  [Position.encode Span.middle, third, third ++ [0], Position.encode (Span.middle + 3)]

/-- The blocks of some heights in a line of blocks. -/
def Block.inLine (heights : List UInt8) : List Block :=
  heights.map fun n => .linking n.toUInt64 (.replicate n) (.replicate (n - 1))

/-- A queue with blocks under some keys. -/
def StoredQueue.under (keys : List Bytes) (bs : List Block) : StoredQueue where
  tree := .under keys (bs.map Block.Binary.encode)
  span := ⟨Span.middle, Span.middle + UInt64.ofNat bs.length⟩
  index := HashIndex.empty.insertAll (bs.map Block.hash)
  capacity := 10

/-- A frontier with hashes under some keys. -/
def StoredFrontier.under (keys : List Bytes) (hs : List BlockHash) : StoredFrontier where
  tree := .under keys (hs.map BlockHash.bytes)
  span := ⟨Span.middle, Span.middle + UInt64.ofNat hs.length⟩

theorem StoredQueue.openTree_under {keys : List Bytes} {bs : List Block}
    (hs : Span.recover (under keys bs).tree = .ok (under keys bs).span)
    (hvalues : (under keys bs).tree.values = bs.map Block.Binary.encode)
    (hbs : ∀ b ∈ bs, b.Storable) :
    BlockQueue.openTree (under keys bs).tree 10
      = .ok (.stored (under keys bs), [.openedQueue (under keys bs).length 10]) := by
  have hdecoded := map_decodeBlock_encode hbs
  rw [← hvalues] at hdecoded
  unfold BlockQueue.openTree
  rw [recover_of_blocks 10 hs hdecoded]
  rfl

/-- Three entries, the second of them under no position. -/
theorem opened_consumed_strayed :
    let bs := Block.inLine [1, 2, 3]
    let hs := bs.map Block.hash
    let q := StoredQueue.under strayedKeys bs
    let f := StoredFrontier.under strayedKeys hs
    BlockQueue.openTree q.tree 10 = .ok (.stored q, [.openedQueue q.length 10])
      ∧ (∃ ds, StoredQueue.Polled q.tree q.span ds 2 (q.afterPolls 2)
        ∧ ∀ h, (q.afterPolls 1).index.contains h ↔ h ∈ (ds.drop 1).map Block.hash)
      ∧ Frontier.openTree f.tree = .ok (.stored f, [.openedFrontier f.length])
      ∧ f.tree.values = hs.map BlockHash.bytes
      ∧ StoredFrontier.Drains f 3 [.replicate 1] ((f.drainFront 1).next.drainFront 2).next
      ∧ ∃ k, [.replicate 1] = hs.take k
        ∧ StoredFrontier.Drained f.tree f.span hs k ((f.drainFront 1).next.drainFront 2).next := by
  intro bs hs q f
  have hq : BlockQueue.openTree q.tree 10 = .ok (.stored q, [.openedQueue q.length 10]) :=
    StoredQueue.openTree_under (by decide +kernel) (by decide +kernel) (by decide +kernel)
  have hrecover : Span.recover f.tree = .ok f.span := by decide +kernel
  have hf : Frontier.openTree f.tree = .ok (.stored f, [.openedFrontier f.length]) := by
    unfold Frontier.openTree StoredFrontier.recover
    rw [hrecover]
    rfl
  have hvalues : f.tree.values = hs.map BlockHash.bytes := by decide +kernel
  have hdrains := (StoredFrontier.Drains.start (f := f)).drained 1 |>.drained 2
  have hgiven : [] ++ (f.drainFront 1).answer.toOption.getD []
      ++ ((f.drainFront 1).next.drainFront 2).answer.toOption.getD []
      = [BlockHash.replicate 1] := by decide +kernel
  rw [hgiven] at hdrains
  obtain ⟨ds, -, hpolled⟩ := opened_consumed.1 hq
  obtain ⟨k, htaken, hdrained, -⟩ := opened_consumed.2 hf hvalues hdrains
  exact ⟨hq, ⟨ds, (hpolled 2).1, (hpolled 1).2.1 (by decide +kernel)⟩, hf, hvalues, hdrains, k,
    htaken, hdrained⟩

/-- Trees with other keys than positions may open, and such a key is refused when its
turn comes; and where positions leave a gap, the length is not the count. -/
theorem strayed_refused :
    let bs := Block.inLine [1, 2, 3]
    let q := StoredQueue.under strayedKeys bs
    let f := StoredFrontier.under strayedKeys (bs.map Block.hash)
    let r := StoredQueue.under gappedKeys (Block.inLine [1, 2, 3, 4])
    BlockQueue.openTree q.tree 10 = .ok (.stored q, [.openedQueue q.length 10])
      ∧ (q.afterPolls 1).poll.answer = .error (.corruption (.keyLength 9))
      ∧ StoredFrontier.recover f.tree = .ok f
      ∧ (∀ v ∈ f.tree.values, v.length = 32)
      ∧ (f.drainFront 2).answer = .error (.corruption (.keyLength 9))
      ∧ BlockQueue.openTree r.tree 10 = .ok (.stored r, [.openedQueue r.length 10])
      ∧ (r.afterPolls 2).length = 1 ∧ (r.afterPolls 2).tree.size = 2 := by
  intro bs q f r
  have hq : BlockQueue.openTree q.tree 10 = .ok (.stored q, [.openedQueue q.length 10]) :=
    StoredQueue.openTree_under (by decide +kernel) (by decide +kernel) (by decide +kernel)
  have hr : BlockQueue.openTree r.tree 10 = .ok (.stored r, [.openedQueue r.length 10]) :=
    StoredQueue.openTree_under (by decide +kernel) (by decide +kernel) (by decide +kernel)
  have hrecover : Span.recover f.tree = .ok f.span := by decide +kernel
  have hf : StoredFrontier.recover f.tree = .ok f := by
    unfold StoredFrontier.recover
    rw [hrecover]
    rfl
  exact ⟨hq, by decide +kernel, hf, by decide +kernel, by decide +kernel, hr, by decide +kernel,
    by decide +kernel⟩

end BlockSync
