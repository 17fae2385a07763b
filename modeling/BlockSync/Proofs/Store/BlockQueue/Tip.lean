/-
  BlockSync.Proofs.Store.BlockQueue.Tip
  ─────────────────────────────────────
  **AN EMPTY QUEUE HAS NOTHING IN STORE.**

  Whether a queue is empty is asked of its length, and in a tree that is the width of a
  range.  A tree opens whose keys are not all positions, and then the width is not the
  count of entries.  But the last key always is the position before the tail
  (`Tree.Tipped`): appends go behind it, and it is taken last.  So the width is zero
  exactly if there is no entry (`Opened.isEmpty_iff`), whatever the keys and the values
  are.
-/
import BlockSync.Proofs.Store.BlockQueue.Growth

namespace BlockSync

/-! ## §1. The last key. -/

namespace Tree

variable {t : Tree} {s : Span}

/-- The last key of a tree is the position before the tail of a range; without a key the
range is empty. -/
structure Tipped (t : Tree) (s : Span) : Prop where
  empty : t.entries = [] → s.length = 0
  last : ∀ e ∈ t.entries.getLast?, ∃ x, e.1 = Position.encode x ∧ x.toNat + 1 = s.tail.toNat

namespace Tipped

/-- Every key lies below the tail, as the last one does. -/
theorem below (h : Tipped t s) {p : UInt64} (hp : s.tail ≤ p) :
    ∀ e ∈ t.entries, e.1 < Position.encode p := by
  intro e he
  rcases List.eq_nil_or_concat t.entries with hnil | ⟨front, final, hsplit⟩
  · rw [hnil] at he
    cases he
  · rw [List.concat_eq_append] at hsplit
    have hlast : final ∈ t.entries.getLast? := by
      rw [hsplit, List.getLast?_concat]
      rfl
    obtain ⟨x, hkey, hx⟩ := h.last final hlast
    have hfinal : final.1 < Position.encode p := by
      have hle := UInt64.le_iff_toNat_le.mp hp
      rw [hkey, Position.encode_lt_encode, UInt64.lt_iff_toNat_lt]
      omega
    have hsorted := t.sorted
    rw [hsplit] at he hsorted
    rcases List.mem_append.mp he with hfront | hfinal'
    · exact List.lt_trans
        ((List.pairwise_append.mp hsorted).2.2 e hfront final (List.mem_singleton_self _)) hfinal
    · rw [List.mem_singleton.mp hfinal']
      exact hfinal

theorem entries_append (h : Tipped t s) (new : List Bytes)
    (hroom : s.tail.toNat + new.length < UInt64.size) :
    (t.apply (Position.putFrom s.tail new)).entries
      = t.entries ++ Position.entriesFrom s.tail new := by
  have hsorted : (t.entries ++ Position.entriesFrom s.tail new).Pairwise fun a b => a.1 < b.1 := by
    refine List.pairwise_append.mpr
      ⟨t.sorted, Position.sorted_entriesFrom new s.tail (Nat.le_of_lt hroom), ?_⟩
    intro d hd e he
    obtain ⟨p, hp, hle⟩ := Position.le_of_mem_entriesFrom new s.tail (Nat.le_of_lt hroom) he
    rw [hp]
    exact h.below hle d hd
  rw [Position.putFrom_eq, entries_apply_put [] _ t t.entries (List.append_nil _).symm
    (by rw [List.append_nil]; exact hsorted), List.append_nil]

/-- Appends go behind the last key. -/
theorem append (new : List Bytes) {tail : UInt64} (h : Tipped t s)
    (hroom : s.backEnd new.length = .ok tail) :
    Tipped (t.apply (Position.putFrom s.tail new)) ⟨s.head, tail⟩ := by
  unfold Span.backEnd at hroom
  split at hroom
  case isFalse => cases hroom
  case isTrue hlt =>
    cases hroom
    have hentries := h.entries_append new hlt
    have htail := Position.toNat_add_ofNat hlt
    rcases List.eq_nil_or_concat new with rfl | ⟨vs, v, rfl⟩
    · -- nothing is written
      have hsame : s.tail + UInt64.ofNat ([] : List Bytes).length = s.tail := UInt64.add_zero _
      rw [hsame]
      exact h
    · rw [List.concat_eq_append] at hlt htail hentries ⊢
      rw [List.length_append, List.length_singleton] at hlt htail
      have hlast : (t.apply (Position.putFrom s.tail (vs ++ [v]))).entries.getLast?
          = some (Position.encode (s.tail + UInt64.ofNat vs.length), v) := by
        rw [hentries, Position.entriesFrom_append, ← List.append_assoc]
        exact List.getLast?_concat
      refine ⟨fun hnil => ?_, fun e he => ?_⟩
      · rw [hnil] at hlast
        cases hlast
      · rw [hlast] at he
        cases he
        refine ⟨_, rfl, ?_⟩
        have hposition := Position.toNat_add_ofNat (p := s.tail) (n := vs.length) (by omega)
        show _ = (s.tail + UInt64.ofNat (vs ++ [v]).length).toNat
        rw [List.length_append, List.length_singleton, htail]
        omega

theorem exists_last (h : Tipped t s) (hne : t.entries ≠ []) :
    ∃ d ∈ t.entries, ∃ x, t.entries.getLast?.map Prod.fst = some (Position.encode x)
      ∧ d.1 = Position.encode x ∧ x.toNat + 1 = s.tail.toNat := by
  have hd := List.getLast?_eq_some_getLast hne
  set d := t.entries.getLast hne
  obtain ⟨x, hkey, hx⟩ := h.last d hd
  refine ⟨d, List.mem_of_getLast? hd, x, ?_, hkey, hx⟩
  rw [hd, ← hkey]
  rfl

/-- While there are others, the first entry is not the last. -/
theorem dropFirst {e : Entry} {es : List Entry} (h : Tipped t s) (hes : t.entries = e :: es)
    (hne : es ≠ []) : Tipped t.dropFirst s := by
  obtain ⟨d, ds, rfl⟩ := List.exists_cons_of_ne_nil hne
  have hrest : t.dropFirst.entries = d :: ds := congrArg List.tail hes
  refine ⟨fun hnil => ?_, fun final hfinal => h.last final ?_⟩
  · rw [hrest] at hnil
    cases hnil
  · rw [hrest] at hfinal
    rw [hes, List.getLast?_cons_cons]
    exact hfinal

/-- **The position at the front is taken**: if it is the last one, then the range starts
over. -/
theorem popFront {e : Entry} {es : List Entry} {x : UInt64} (h : Tipped t s)
    (hes : t.entries = e :: es) (hx : Position.decode e.1 = .ok x) :
    Tipped t.dropFirst (s.popFront x) := by
  have hsorted := t.sorted
  rw [hes] at hsorted
  obtain ⟨d, -, y, hlast, -, htail⟩ := h.exists_last (by rw [hes]; exact List.cons_ne_nil e es)
  rw [hes] at hlast
  have hfirst : [e].getLast?.map Prod.fst = some (Position.encode x) :=
    congrArg some (Position.encode_of_decode hx).symm
  have hends : ([e] ++ es).getLast?.map Prod.fst = some (Position.encode y) := hlast
  rcases Position.eq_or_lt_of_getLast? hsorted hfirst hends with
    ⟨rfl, rfl⟩ | ⟨hlt, hne⟩
  · have hnext : x + 1 = s.tail := by
      have hsize : s.tail.toNat < UInt64.size := s.tail.toNat_lt
      apply UInt64.toNat_inj.mp
      rw [Position.toNat_add_one (by omega), htail]
    have hnone : t.dropFirst.entries = [] := congrArg List.tail hes
    unfold Span.popFront
    rw [if_pos hnext]
    refine ⟨fun _ => rfl, fun d hd => ?_⟩
    rw [hnone] at hd
    cases hd
  · -- the last key lies behind the position that is gone, and so does the tail
    obtain ⟨hempty, hfinal⟩ := h.dropFirst hes hne
    have hbelow := UInt64.lt_iff_toNat_lt.mp hlt
    have hsame : (s.popFront x).tail = s.tail := Span.tail_popFront (by omega)
    refine ⟨fun hnil => absurd ?_ hne, fun d hd => ?_⟩
    · exact (congrArg List.tail hes).symm.trans hnil
    · rw [hsame]
      exact hfinal d hd

theorem cleared (t : Tree) : Tipped (t.apply t.deleteAll) .fresh := by
  refine ⟨fun _ => rfl, fun e he => ?_⟩
  rw [entries_apply_deleteAll] at he
  cases he

/-- A tree opens with a range that ends just behind its last key. -/
theorem of_recover (h : Span.recover t = .ok s) : Tipped t s := by
  cases hes : t.entries with
  | nil =>
    refine ⟨fun _ => ?_, fun e he => ?_⟩
    · rw [Fills.eq_fresh_of_recover hes h]
      rfl
    · rw [hes] at he
      cases he
  | cons e es =>
    obtain ⟨p, q, -, hq, hne, rfl, -⟩ := Fills.exists_ends_of_recover hes h
    have hsize : q.toNat < UInt64.size := q.toNat_lt
    refine ⟨fun hnil => ?_, fun d hd => ⟨q, ?_, ?_⟩⟩
    · rw [hes] at hnil
      cases hnil
    · rw [hes] at hd
      rw [hd] at hq
      exact Option.some.inj hq
    · exact (Position.toNat_add_one (by omega)).symm

/-- **The range is empty exactly if there is no entry.** -/
theorem length_eq_zero_iff (h : Tipped t s) (hwithin : Within t s) :
    s.length = 0 ↔ t.entries = [] := by
  refine ⟨fun hlength => ?_, h.empty⟩
  by_contra hne
  -- the last key is a position, and it lies in the range
  obtain ⟨d, hd, x, -, hkey, hx⟩ := h.exists_last hne
  have hinside := hwithin.inside d hd x (by rw [hkey, Position.decode_encode])
  rw [hwithin.length_eq] at hlength
  omega

end Tipped
end Tree

/-! ## §2. Queues that opened. -/

namespace BlockQueue

/-- The last key of a queue in a tree is the position before its tail. -/
def Tipped : BlockQueue → Prop
  | .volatile _ => True
  | .stored q => q.tree.Tipped q.span

namespace Tipped

variable {q : BlockQueue}

theorem enqueue (h : q.Tipped) (b : Block) : (q.enqueue b).next.Tipped := by
  cases q with
  | volatile q => trivial
  | stored q =>
    show Tipped (.stored (q.enqueue b).next)
    unfold StoredQueue.enqueue
    cases hroom : q.span.backEnd 1 with
    | error e => exact h
    | ok tail => exact Tree.Tipped.append [Block.Binary.encode b] h hroom

theorem enqueueBatch (h : q.Tipped) (bs : List Block) : (q.enqueueBatch bs).next.Tipped := by
  cases q with
  | volatile q => trivial
  | stored q =>
    let kept := Capacity.admissible q.capacity q.length bs.length
    have hlen : ((bs.take kept).map Block.Binary.encode).length = kept := by
      have : kept ≤ bs.length := Nat.min_le_right _ _
      rw [List.length_map, List.length_take]
      omega
    show Tipped (.stored (q.enqueueBatch bs).next)
    simp only [StoredQueue.enqueueBatch]
    cases hroom : q.span.backEnd kept with
    | error e => exact h
    | ok tail => exact Tree.Tipped.append _ h (by rw [hlen]; exact hroom)

theorem poll (h : q.Tipped) : q.poll.next.Tipped := by
  cases q with
  | volatile q => trivial
  | stored q =>
    show q.poll.next.tree.Tipped q.poll.next.span
    cases hes : q.tree.entries with
    | nil =>
      rw [StoredQueue.poll_of_nil hes]
      exact h
    | cons e es =>
      by_cases hkey : e.1.length = 8
      · obtain ⟨x, hx⟩ := Position.exists_decode hkey
        have hrest := Tree.Tipped.popFront h hes hx
        cases hb : StoredQueue.decodeBlock e.2 with
        | ok b =>
          rw [StoredQueue.poll_of_position hes hx hb]
          exact hrest
        | error cause =>
          obtain ⟨htree, hspan⟩ := StoredQueue.tree_reindex
            { q with tree := q.tree.dropFirst, span := q.span.popFront x } cause
          rw [StoredQueue.poll_of_damage hes hx hb, htree, hspan]
          exact hrest
      · -- the last key is a position, so this is not the last
        rw [StoredQueue.poll_of_stray hes hkey]
        refine Tree.Tipped.dropFirst h hes ?_
        rintro rfl
        obtain ⟨d, hd, x, -, hposition, -⟩ := Tree.Tipped.exists_last h (by rw [hes]; simp)
        rw [hes, List.mem_singleton] at hd
        exact hkey (by rw [← hd, hposition, Position.length_encode])

theorem clear (q : BlockQueue) : q.clear.Tipped := by
  cases q with
  | volatile q => trivial
  | stored q => exact Tree.Tipped.cleared q.tree

theorem perform (h : q.Tipped) (c : Call) : (q.perform c).2.Tipped := by
  cases c with
  | enqueue b => exact h.enqueue b
  | enqueueBatch bs => exact h.enqueueBatch bs
  | poll => exact h.poll
  | clear => exact clear q
  | _ => exact h

end Tipped

namespace Opened

variable {q : BlockQueue}

theorem tipped (h : q.Opened) : q.Tipped := by
  induction h with
  | empty capacity => trivial
  | @opened t capacity q events hopen =>
    cases hr : StoredQueue.recover t capacity with
    | error e =>
      unfold openTree at hopen
      rw [hr] at hopen
      cases hopen
    | ok r =>
      unfold openTree at hopen
      rw [hr] at hopen
      cases hopen
      obtain ⟨-, -, rfl, hspan, -⟩ := StoredQueue.exists_blocks_of_recover hr
      exact Tree.Tipped.of_recover hspan
  | performed _ c ih => exact ih.perform c

/-- **A queue is empty exactly if it has nothing in store**, whatever its keys and its
values are. -/
theorem isEmpty_iff (h : q.Opened) : q.isEmpty = true ↔ q.contents = [] := by
  unfold isEmpty
  rw [beq_iff_eq]
  cases q with
  | volatile q =>
    show q.blocks.length = 0 ↔ q.blocks.map Except.ok = []
    rw [List.length_eq_zero_iff, List.map_eq_nil_iff]
  | stored q =>
    show q.span.length = 0 ↔ (q.tree.entries.map Prod.snd).map StoredQueue.decodeBlock = []
    rw [Tree.Tipped.length_eq_zero_iff h.tipped h.within, List.map_eq_nil_iff,
      List.map_eq_nil_iff]

end Opened

/-- What is found at the back is what is last in store. -/
theorem getLast?_contents_of_peekBack {q : BlockQueue} {last : Option Block}
    (h : q.peekBack = .ok last) : q.contents.getLast? = last.map .ok := by
  cases q with
  | volatile q =>
    cases h
    exact List.getLast?_map
  | stored q =>
    have hback : (stored q).contents.getLast?
        = q.tree.last?.map fun e => StoredQueue.decodeBlock e.2 := by
      show ((q.tree.entries.map Prod.snd).map StoredQueue.decodeBlock).getLast? = _
      rw [List.map_map, List.getLast?_map]
      rfl
    rw [hback]
    change q.peekBack = .ok last at h
    unfold StoredQueue.peekBack at h
    split at h
    next hlast =>
      cases h
      rw [hlast]
      rfl
    next e hlast =>
      rw [hlast]
      cases hb : StoredQueue.decodeBlock e.2 with
      | error cause =>
        rw [hb] at h
        cases h
      | ok b =>
        rw [hb] at h
        cases h
        exact congrArg some hb

/-- So it is the last block. -/
theorem getLast?_blocks_of_peekBack {q : BlockQueue} {last : Option Block}
    (h : q.peekBack = .ok last) : q.blocks.getLast? = last := by
  have hback := getLast?_contents_of_peekBack h
  unfold blocks
  cases last with
  | none =>
    rw [List.getLast?_eq_none_iff.mp hback]
    rfl
  | some b =>
    obtain ⟨front, hsplit⟩ := List.getLast?_eq_some_iff.mp hback
    rw [hsplit, List.filterMap_append]
    exact List.getLast?_concat

end BlockQueue
end BlockSync
