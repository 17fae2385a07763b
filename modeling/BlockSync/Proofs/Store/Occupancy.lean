/-
  BlockSync.Proofs.Store.Occupancy
  ────────────────────────────────
  **THE REMEMBERED RANGE IS THE RANGE OF THE TREE.**

  A stored deque is kept twice: as entries under positions, and as a range in
  memory that says which positions these are.  Each operation moves both, in its
  own way, at either end of a 64-bit key space.  `Tree.Occupies` says what they
  have to do with each other, key by key, and `Tree.Agrees` collects what follows:
  the count of entries, the range of an empty tree, sums of positions that do not
  wrap, and that opening the tree again finds the range that is remembered.

  Main results:

      Fills.of_occupies             a run of positions without gaps is a filled range
      StoredFrontier.Placed.perform every call keeps the range, whatever is stored
      positions_inStep              both stores agree with their trees, call after call

  The values have no part in this.  A frontier may hold values that are no hashes:
  then draining refuses, and nothing has moved.
-/
import BlockSync.Proofs.Store.BlockQueue.Membership
import BlockSync.Proofs.Store.Frontier
import Mathlib.Data.List.Sort

namespace BlockSync

/-! ## §1. Keys and ranges. -/

namespace Position

/-- The keys of consecutive positions are those of the positions from the first
on. -/
theorem mem_keys_entriesFrom {key : Bytes} (vs : List Bytes) :
    ∀ p : UInt64, p.toNat + vs.length < UInt64.size →
      (key ∈ (entriesFrom p vs).map Prod.fst
        ↔ ∃ q : UInt64, p.toNat ≤ q.toNat ∧ q.toNat < p.toNat + vs.length ∧ encode q = key) := by
  induction vs with
  | nil =>
    intro p _
    constructor
    · intro hkey
      cases hkey
    · rintro ⟨q, hpq, hqp, -⟩
      rw [List.length_nil] at hqp
      omega
  | cons v vs ih =>
    intro p hp
    rw [List.length_cons] at hp
    have hp1 : (p + 1).toNat = p.toNat + 1 := toNat_add_one (by omega)
    have hrest := ih (p + 1) (by omega)
    rw [hp1] at hrest
    show key ∈ encode p :: (entriesFrom (p + 1) vs).map Prod.fst ↔ _
    rw [List.mem_cons, hrest, List.length_cons]
    constructor
    · rintro (rfl | ⟨q, hpq, hqp, hkey⟩)
      · exact ⟨p, Nat.le_refl _, by omega, rfl⟩
      · exact ⟨q, by omega, by omega, hkey⟩
    · -- a position of the range is the first one or one behind it
      rintro ⟨q, hpq, hqp, hkey⟩
      by_cases hq : q = p
      · left
        rw [← hkey, hq]
      · have hne : q.toNat ≠ p.toNat := fun h => hq (UInt64.toNat_inj.mp h)
        exact Or.inr ⟨q, by omega, by omega, hkey⟩

/-- Entries under the keys of consecutive positions. -/
theorem eq_entriesFrom_of_keys {es : List Entry} (vs : List Bytes) :
    ∀ p, es.map Prod.fst = (entriesFrom p vs).map Prod.fst →
      es = entriesFrom p (es.map Prod.snd) := by
  induction es generalizing vs with
  | nil => intro p _; rfl
  | cons e es ih =>
    intro p hkeys
    cases vs with
    | nil => cases hkeys
    | cons v vs =>
      have hsplit : e.1 = encode p ∧ es.map Prod.fst = (entriesFrom (p + 1) vs).map Prod.fst :=
        List.cons_eq_cons.mp hkeys
      show e :: es = (encode p, e.2) :: entriesFrom (p + 1) (es.map Prod.snd)
      rw [← ih vs (p + 1) hsplit.2, ← hsplit.1]

end Position

namespace Tree

theorem contains_iff {t : Tree} {key : Bytes} :
    t.contains key = true ↔ key ∈ t.entries.map Prod.fst := by
  unfold contains
  rw [List.any_eq_true, List.mem_map]
  constructor
  · rintro ⟨e, he, hkey⟩
    exact ⟨e, he, of_decide_eq_true hkey⟩
  · rintro ⟨e, he, hkey⟩
    exact ⟨e, he, decide_eq_true hkey⟩

theorem sorted_keys (t : Tree) : (t.entries.map Prod.fst).Pairwise (· < ·) :=
  List.pairwise_map.mpr t.sorted

/-- The keys of a tree are the positions of a range: one run without a gap, or
nothing.  A tail is a position, so the run ends before the last position. -/
def Occupies (t : Tree) (s : Span) : Prop :=
  ∀ key, t.contains key = true ↔ ∃ p : UInt64, s.head ≤ p ∧ p < s.tail ∧ Position.encode p = key

namespace Fills

variable {t : Tree} {s : Span} {values : List Bytes}

theorem head_le_tail (h : Fills t s values) : s.head ≤ s.tail := by
  have htail := h.tail
  exact UInt64.le_iff_toNat_le.mpr (by omega)

theorem occupies (h : Fills t s values) : t.Occupies s := by
  intro key
  rw [contains_iff, h.entries, Position.mem_keys_entriesFrom values s.head h.bound, ← h.tail]
  simp only [UInt64.le_iff_toNat_le, UInt64.lt_iff_toNat_lt]

/-- **A run of positions without gaps fills a range.**  With the keys of the range
it also has their order, for both are ascending. -/
theorem of_occupies (h : t.Occupies s) : ∃ range, Fills t range t.values := by
  by_cases hne : s.head < s.tail
  · have hlt := UInt64.lt_iff_toNat_lt.mp hne
    have hsize : s.tail.toNat < UInt64.size := s.tail.toNat_lt
    -- any values will do to list the keys of the range
    let blanks : List Bytes := List.replicate (s.tail.toNat - s.head.toNat) []
    have hlen : blanks.length = s.tail.toNat - s.head.toNat := List.length_replicate
    have hkeys : t.entries.map Prod.fst = (Position.entriesFrom s.head blanks).map Prod.fst := by
      refine List.Pairwise.eq_of_mem_iff t.sorted_keys
        (List.pairwise_map.mpr (Position.sorted_entriesFrom blanks s.head (by omega))) ?_
      intro key
      have htail : s.head.toNat + blanks.length = s.tail.toNat := by omega
      rw [← contains_iff, h key, Position.mem_keys_entriesFrom blanks s.head (by omega), htail]
      simp only [UInt64.le_iff_toNat_le, UInt64.lt_iff_toNat_lt]
    have hcount : t.values.length = blanks.length := by
      have := congrArg List.length hkeys
      rwa [List.length_map, List.length_map, Position.length_entriesFrom, ← List.length_map] at this
    refine ⟨s, Position.eq_entriesFrom_of_keys blanks s.head hkeys, by omega, ?_⟩
    intro hnil
    rw [hnil, List.length_nil] at hcount
    omega
  · -- no position lies in the range, so there is no entry
    have hnil : t.entries = [] := by
      refine List.eq_nil_iff_forall_not_mem.mpr fun e he => ?_
      obtain ⟨p, hhead, htail, -⟩ := (h e.1).mp (contains_iff.mpr (List.mem_map_of_mem he))
      exact hne (UInt64.lt_of_le_of_lt hhead htail)
    have hvalues : t.values = [] := by
      unfold Tree.values
      rw [hnil]
      rfl
    rw [hvalues]
    exact ⟨.fresh, hnil, rfl, fun _ => rfl⟩

end Fills

/-! ## §2. Writes that overwrite nothing. -/

/-- No write of a batch meets an entry that is there at its turn. -/
def Spares : (batch : List Change) → Tree → Prop
  | [], _ => True
  | .put key value :: rest, t => t.contains key = false ∧ Spares rest (t.insert key value)
  | .delete key :: rest, t => Spares rest (t.erase key)

theorem spares_delete {α : Type} (f : α → Bytes) (as : List α) :
    ∀ t : Tree, Spares (as.map fun a => .delete (f a)) t := by
  induction as with
  | nil => intro t; trivial
  | cons a as ih => intro t; exact ih (t.erase (f a))

theorem spares_append {as bs : List Change} :
    ∀ {t : Tree}, Spares as t → Spares bs (t.apply as) → Spares (as ++ bs) t := by
  induction as with
  | nil => intro t _ hbs; exact hbs
  | cons c as ih =>
    intro t has hbs
    cases c with
    | put key value => exact ⟨has.1, ih has.2 hbs⟩
    | delete key => exact ih (t := t.erase key) has hbs

/-- A batch of writes that fits between two parts of a tree overwrites nothing. -/
theorem spares_put (bs es : List Entry) :
    ∀ (t : Tree) (as : List Entry), t.entries = as ++ bs →
      (as ++ es ++ bs).Pairwise (fun a b => a.1 < b.1) →
      Spares (es.map fun e => .put e.1 e.2) t := by
  induction es with
  | nil => intro t as _ _; trivial
  | cons e es ih =>
    intro t as ht hs
    have hnext := entries_insert_between ht hs
    have hassoc : (as ++ [e]) ++ es ++ bs = as ++ (e :: es) ++ bs := by simp
    refine ⟨?_, ih (t.insert e.1 e.2) (as ++ [e]) hnext (by rw [hassoc]; exact hs)⟩
    -- every key of the tree is less or greater
    rw [Bool.eq_false_iff]
    intro hmem
    obtain ⟨d, hd, hkey⟩ := List.mem_map.mp (contains_iff.mp hmem)
    have hsplit := List.pairwise_append.mp hs
    have hleft := List.pairwise_append.mp hsplit.1
    rw [ht] at hd
    have hirrefl : ¬ d.1 < d.1 := List.lt_irrefl d.1
    rcases List.mem_append.mp hd with hd | hd
    · have hlt := hleft.2.2 d hd e List.mem_cons_self
      rw [← hkey] at hlt
      exact hirrefl hlt
    · have hlt := hsplit.2.2 e (List.mem_append_right as List.mem_cons_self) d hd
      rw [← hkey] at hlt
      exact hirrefl hlt

namespace Fills

variable {t : Tree} {s : Span} {values : List Bytes}

theorem spares_append (new : List Bytes) {tail : UInt64} (h : Fills t s values)
    (hroom : s.backEnd new.length = .ok tail) : Spares (Position.putFrom s.tail new) t := by
  rw [Position.putFrom_eq]
  refine spares_put [] _ t t.entries (List.append_nil _).symm ?_
  rw [List.append_nil]
  exact h.sorted_append new hroom

theorem spares_prepend (new : List Bytes) {start : UInt64} (h : Fills t s values)
    (hroom : s.frontStart new.length = .ok start) : Spares (Position.putFrom start new) t := by
  rw [Position.putFrom_eq]
  refine spares_put t.entries _ t [] (List.nil_append _).symm ?_
  rw [List.nil_append]
  exact h.sorted_prepend new hroom

end Fills

/-! ## §3. What a tree and its range have in common. -/

/-- A tree agrees with the range that is remembered for it.  Sums and differences
of positions are taken in 64 bits; that one does not wrap is said by its value. -/
structure Agrees (t : Tree) (s : Span) : Prop where
  occupies : t.Occupies s
  head_le_tail : s.head ≤ s.tail
  width : (s.tail - s.head).toNat = s.tail.toNat - s.head.toNat
  length : s.length = t.size
  /-- An empty range is in the middle of the key space. -/
  centred : t.size = 0 → s.head = 0x7fffffffffffffff ∧ s.tail = 0x7fffffffffffffff
  /-- Behind each entry there is another position. -/
  next : ∀ p, t.contains (Position.encode p) = true → (p + 1).toNat = p.toNat + 1
  /-- Room at the back is room for every position there. -/
  back : ∀ count tail, s.backEnd count = .ok tail → ∀ offset < count,
    (s.tail + UInt64.ofNat offset).toNat = s.tail.toNat + offset
  /-- Room at the front is room for every position there. -/
  front : ∀ count start, s.frontStart count = .ok start → ∀ offset < count,
    (start + UInt64.ofNat offset).toNat = start.toNat + offset
  recover : Span.recover t = .ok s

theorem Fills.agrees {t : Tree} {s : Span} {values : List Bytes} (h : Fills t s values) :
    t.Agrees s where
  occupies := h.occupies
  head_le_tail := h.head_le_tail
  width := UInt64.toNat_sub_of_le _ _ h.head_le_tail
  length := by rw [h.length, h.size]
  centred hempty := by
    rw [h.size] at hempty
    rw [h.centred (List.eq_nil_of_length_eq_zero hempty)]
    exact ⟨rfl, rfl⟩
  next p hp := by
    obtain ⟨q, -, hlt, hq⟩ := (h.occupies _).mp hp
    -- the key of a position is not the key of another one
    have hpq : Except.ok (ε := StoreError) q = .ok p := by
      rw [← Position.decode_encode q, hq, Position.decode_encode]
    cases hpq
    have hlt' := UInt64.lt_iff_toNat_lt.mp hlt
    have hsize : s.tail.toNat < UInt64.size := s.tail.toNat_lt
    exact Position.toNat_add_one (by omega)
  back count tail hroom offset hoffset := by
    unfold Span.backEnd at hroom
    split at hroom
    case isFalse => cases hroom
    case isTrue hlt => exact Position.toNat_add_ofNat (by omega)
  front count start hroom offset hoffset := by
    unfold Span.frontStart at hroom
    split at hroom
    case isFalse => cases hroom
    case isTrue hle =>
      cases hroom
      have hstart := Position.toNat_sub_ofNat hle
      have hsize : s.head.toNat < UInt64.size := s.head.toNat_lt
      exact Position.toNat_add_ofNat (by omega)
  recover := h.recover

theorem eq_of_entries {t u : Tree} (h : t.entries = u.entries) : t = u := by
  cases t
  cases u
  cases h
  rfl

/-- Taking the first entry deletes its key. -/
theorem dropFirst_eq {t : Tree} {e : Entry} (h : t.first? = some e) :
    t.dropFirst = t.apply [.delete e.1] := by
  obtain ⟨rest, hrest⟩ := List.head?_eq_some_iff.mp h
  have hdelete := entries_apply_delete [e] t hrest
  refine eq_of_entries ?_
  show t.entries.tail = (t.apply ([e].map fun e => .delete e.1)).entries
  rw [hdelete, hrest]
  rfl

end Tree

/-! ## §4. The block queue. -/

namespace StoredQueue

open BlockQueue (Call)

/-- The batch of writes by which a call changes the tree. -/
def writes (q : StoredQueue) : Call → List Tree.Change
  | .enqueue b =>
    match q.span.backEnd 1 with
    | .ok _ => [.put (Position.encode q.span.tail) (Block.Binary.encode b)]
    | .error _ => []
  | .enqueueBatch bs =>
    let kept := Capacity.admissible q.capacity q.length bs.length
    match q.span.backEnd kept with
    | .ok _ => Position.putFrom q.span.tail ((bs.take kept).map Block.Binary.encode)
    | .error _ => []
  | .poll =>
    match q.tree.first? with
    | some e => [.delete e.1]
    | none => []
  | .clear => q.tree.deleteAll
  | _ => []

/-- A queue agrees with its tree, whatever is called next. -/
structure InStep (q : StoredQueue) : Prop where
  agrees : q.tree.Agrees q.span
  length : q.length = q.tree.size
  writes : ∀ c, ((BlockQueue.stored q).perform c).2.tree? = some (q.tree.apply (q.writes c))
    ∧ Tree.Spares (q.writes c) q.tree
  /-- The tree opens as the queue that is already there. -/
  reopens : ∃ next events, BlockQueue.openTree q.tree q.capacity = .ok (.stored next, events)
    ∧ next.tree = q.tree ∧ next.span = q.span ∧ next.capacity = q.capacity
    ∧ ∀ h, next.index.count h = q.index.count h

theorem tree_poll (q : StoredQueue) : q.poll.next.tree = q.tree.apply (q.writes .poll) := by
  unfold poll writes
  cases hfirst : q.tree.first? with
  | none => rfl
  | some e =>
    -- the entry has left before anybody looks at its key or its value
    dsimp only
    rw [← Tree.dropFirst_eq hfirst]
    split
    next => rfl
    next =>
      split
      next => rfl
      next =>
        unfold reindex
        split
        next => rfl
        next => rfl

theorem tree_perform (q : StoredQueue) (c : Call) :
    ((BlockQueue.stored q).perform c).2.tree? = some (q.tree.apply (q.writes c)) := by
  cases c with
  | enqueue b =>
    show some (StoredQueue.enqueue q b).next.tree = _
    unfold StoredQueue.enqueue writes
    cases q.span.backEnd 1 with
    | error e => rfl
    | ok tail => rfl
  | enqueueBatch bs =>
    show some (StoredQueue.enqueueBatch q bs).next.tree = _
    simp only [StoredQueue.enqueueBatch, writes]
    cases q.span.backEnd (Capacity.admissible q.capacity q.length bs.length) with
    | error e => rfl
    | ok tail => rfl
  | poll => exact congrArg some q.tree_poll
  | _ => rfl

theorem spares_writes {q : StoredQueue} {values : List Bytes} (h : q.tree.Fills q.span values)
    (c : Call) : Tree.Spares (q.writes c) q.tree := by
  cases c with
  | enqueue b =>
    unfold writes
    cases hroom : q.span.backEnd 1 with
    | error e => trivial
    | ok tail => exact h.spares_append [Block.Binary.encode b] hroom
  | enqueueBatch bs =>
    have hlen : ((bs.take (Capacity.admissible q.capacity q.length bs.length)).map
        Block.Binary.encode).length = Capacity.admissible q.capacity q.length bs.length := by
      unfold Capacity.admissible
      rw [List.length_map, List.length_take]
      omega
    simp only [writes]
    cases hroom : q.span.backEnd (Capacity.admissible q.capacity q.length bs.length) with
    | error e => trivial
    | ok tail => exact h.spares_append _ (by rw [hlen]; exact hroom)
  | poll =>
    unfold writes
    cases q.tree.first? with
    | none => trivial
    | some e => trivial
  | clear => exact Tree.spares_delete Prod.fst q.tree.entries q.tree
  | _ => trivial

theorem Holds.inStep {q : StoredQueue} {bs : List Block} (h : q.Holds bs) : q.InStep where
  agrees := h.fills.agrees
  length := h.fills.agrees.length
  writes c := ⟨q.tree_perform c, spares_writes h.fills c⟩
  reopens := by
    obtain ⟨index, hopen, hnext⟩ := h.recover
    refine ⟨{ q with index := index }, [.openedQueue q.length q.capacity], ?_, rfl, rfl, rfl, ?_⟩
    · unfold BlockQueue.openTree
      rw [hopen]
      rfl
    · intro k
      rw [h.index.count]
      exact hnext.index.count k

/-- A run of positions without gaps that has blocks under them opens as a queue. -/
theorem exists_openTree {t : Tree} {s : Span} (capacity : Nat) (hrun : t.Occupies s)
    (hvalues : ∀ v ∈ t.values, ∃ b, decodeBlock v = .ok b) :
    ∃ q events, BlockQueue.openTree t capacity = .ok (.stored q, events) := by
  obtain ⟨range, hfills⟩ := Tree.Fills.of_occupies hrun
  have hblocks : ∀ {values : List Bytes}, (∀ v ∈ values, ∃ b, decodeBlock v = .ok b) →
      ∃ bs : List Block, values.map decodeBlock = bs.map .ok := by
    intro values hvalues
    induction values with
    | nil => exact ⟨[], rfl⟩
    | cons v vs ih =>
      obtain ⟨b, hb⟩ := hvalues v List.mem_cons_self
      obtain ⟨bs, hbs⟩ := ih fun w hw => hvalues w (List.mem_cons_of_mem v hw)
      exact ⟨b :: bs, by rw [List.map_cons, List.map_cons, hb, hbs]⟩
  obtain ⟨bs, hbs⟩ := hblocks hvalues
  let q : StoredQueue := ⟨t, range, HashIndex.empty.insertAll (bs.map Block.hash), capacity⟩
  refine ⟨q, [.openedQueue q.length capacity], ?_⟩
  unfold BlockQueue.openTree
  rw [recover_of_blocks capacity hfills.recover hbs]
  rfl

end StoredQueue

/-! ## §5. The frontier. -/

namespace StoredFrontier

open Frontier (Call)

/-- The batch that writes hashes before the head. -/
def frontWrites (f : StoredFrontier) (hs : List BlockHash) : List Tree.Change :=
  if hs.isEmpty then []
  else match f.span.frontStart hs.length with
    | .ok start => Position.putFrom start (hs.map BlockHash.bytes)
    | .error _ => []

/-- The batch of writes by which a call changes the tree. -/
def writes (f : StoredFrontier) : Call → List Tree.Change
  | .reset h =>
    match Span.fresh.frontStart 1 with
    | .ok start => f.tree.deleteAll ++ [.put (Position.encode start) h.bytes]
    | .error _ => []
  | .pushFront h => f.frontWrites [h]
  | .pushFrontBatch hs => f.frontWrites hs
  | .returnBatch hs => f.frontWrites hs
  | .pushBack h =>
    match f.span.backEnd 1 with
    | .ok _ => [.put (Position.encode f.span.tail) h.bytes]
    | .error _ => []
  | .drainFront n =>
    match (f.tree.entries.take n).mapM decodeEntry with
    | .ok _ => (f.tree.entries.take n).map fun e => .delete e.1
    | .error _ => []
  | .clear => f.tree.deleteAll
  | _ => []

/-- A frontier agrees with its tree, whatever is called next. -/
structure InStep (f : StoredFrontier) : Prop where
  agrees : f.tree.Agrees f.span
  length : f.length = f.tree.size
  writes : ∀ c, ((Frontier.stored f).perform c).2.tree? = some (f.tree.apply (f.writes c))
    ∧ Tree.Spares (f.writes c) f.tree
  /-- The tree opens as the frontier that is already there. -/
  reopens : (Frontier.stored f).reopen = .ok (.stored f)

theorem tree_pushFrontBatch (f : StoredFrontier) (hs : List BlockHash) :
    (f.pushFrontBatch hs).next.tree = f.tree.apply (f.frontWrites hs) := by
  unfold pushFrontBatch frontWrites
  split
  · rfl
  · cases f.span.frontStart hs.length with
    | error e => rfl
    | ok start => rfl

theorem tree_drainFront (f : StoredFrontier) (n : Nat) :
    (f.drainFront n).next.tree = f.tree.apply (f.writes (.drainFront n)) := by
  simp only [drainFront, writes]
  cases hm : (f.tree.entries.take n).mapM decodeEntry with
  | error e => rfl
  | ok decoded =>
    dsimp only
    cases hlast : decoded.getLast? with
    | some last => rfl
    | none =>
      -- nothing was decoded, so nothing is deleted
      rw [List.getLast?_eq_none_iff] at hlast
      subst hlast
      have hnil : f.tree.entries.take n = [] := by
        cases htaken : f.tree.entries.take n with
        | nil => rfl
        | cons e es =>
          rw [htaken, List.mapM_cons] at hm
          obtain ⟨d, -, hm⟩ := exists_of_bind_ok hm
          obtain ⟨ds, -, hm⟩ := exists_of_bind_ok hm
          cases hm
      rw [hnil]
      rfl

theorem tree_perform (f : StoredFrontier) (c : Call) :
    ((Frontier.stored f).perform c).2.tree? = some (f.tree.apply (f.writes c)) := by
  cases c with
  | pushFront h => exact congrArg some (f.tree_pushFrontBatch [h])
  | pushFrontBatch hs => exact congrArg some (f.tree_pushFrontBatch hs)
  | returnBatch hs => exact congrArg some (f.tree_pushFrontBatch hs)
  | pushBack h =>
    show some (StoredFrontier.pushBack f h).next.tree = _
    unfold StoredFrontier.pushBack writes
    cases f.span.backEnd 1 with
    | error e => rfl
    | ok tail => rfl
  | drainFront n => exact congrArg some (f.tree_drainFront n)
  | _ => rfl

theorem spares_frontWrites {f : StoredFrontier} {values : List Bytes}
    (h : f.tree.Fills f.span values) (hs : List BlockHash) :
    Tree.Spares (f.frontWrites hs) f.tree := by
  unfold frontWrites
  split
  · trivial
  · cases hroom : f.span.frontStart hs.length with
    | error e => trivial
    | ok start => exact h.spares_prepend _ (by rw [List.length_map]; exact hroom)

theorem spares_writes {f : StoredFrontier} {values : List Bytes} (h : f.tree.Fills f.span values)
    (c : Call) : Tree.Spares (f.writes c) f.tree := by
  cases c with
  | reset k =>
    -- by its turn the one write of the batch meets an empty tree
    refine Tree.spares_append (Tree.spares_delete Prod.fst f.tree.entries f.tree) ⟨?_, trivial⟩
    unfold Tree.contains
    rw [f.tree.entries_apply_deleteAll]
    rfl
  | pushFront k => exact spares_frontWrites h [k]
  | pushFrontBatch ks => exact spares_frontWrites h ks
  | returnBatch ks => exact spares_frontWrites h ks
  | pushBack k =>
    unfold writes
    cases hroom : f.span.backEnd 1 with
    | error e => trivial
    | ok tail => exact h.spares_append [k.bytes] hroom
  | drainFront n =>
    unfold writes
    dsimp only
    split
    · exact Tree.spares_delete Prod.fst _ f.tree
    · trivial
  | clear => exact Tree.spares_delete Prod.fst f.tree.entries f.tree
  | _ => trivial

/-- The tree of a frontier fills the range that is remembered for it; its values
may be anything. -/
def Placed (f : StoredFrontier) : Prop := f.tree.Fills f.span f.tree.values

namespace Placed

variable {f : StoredFrontier}

theorem of_fills {values : List Bytes} (h : f.tree.Fills f.span values) : f.Placed := by
  unfold Placed
  rw [h.values_eq]
  exact h

theorem pushFrontBatch (h : f.Placed) (hs : List BlockHash) : (f.pushFrontBatch hs).next.Placed := by
  unfold StoredFrontier.pushFrontBatch
  split
  · exact h
  · cases hroom : f.span.frontStart hs.length with
    | error e => exact h
    | ok start => exact of_fills (h.prepend _ (by rw [List.length_map]; exact hroom))

theorem pushBack (h : f.Placed) (k : BlockHash) : (f.pushBack k).next.Placed := by
  unfold StoredFrontier.pushBack
  cases hroom : f.span.backEnd 1 with
  | error e => exact h
  | ok tail => exact of_fills (h.append [k.bytes] hroom)

/-- What is decoded from consecutive entries are hashes and these positions. -/
theorem exists_positioned {vs : List Bytes} :
    ∀ {p : UInt64} {ds : List (BlockHash × UInt64)},
      (Position.entriesFrom p vs).mapM decodeEntry = .ok ds →
      ∃ hs, ds = positioned p hs ∧ hs.length = vs.length := by
  induction vs with
  | nil =>
    intro p ds hds
    cases hds
    exact ⟨[], rfl, rfl⟩
  | cons v vs ih =>
    intro p ds hds
    unfold Position.entriesFrom at hds
    rw [List.mapM_cons] at hds
    obtain ⟨d, hd, hds⟩ := exists_of_bind_ok hds
    obtain ⟨rest, hrest, hds⟩ := exists_of_bind_ok hds
    cases hds
    obtain ⟨hs, rfl, hlen⟩ := ih hrest
    unfold decodeEntry at hd
    obtain ⟨k, -, hd⟩ := exists_of_bind_ok hd
    rw [Position.decode_encode] at hd
    cases hd
    exact ⟨k :: hs, rfl, congrArg (· + 1) hlen⟩

/-- Draining takes entries from the front, or it meets a value that is no hash and
takes none. -/
theorem drainFront (h : f.Placed) (n : Nat) : (f.drainFront n).next.Placed := by
  have htaken : f.tree.entries.take n
      = Position.entriesFrom f.span.head (f.tree.values.take n) := by
    rw [h.entries, Position.take_entriesFrom]
  simp only [StoredFrontier.drainFront]
  rw [htaken]
  cases hm : (Position.entriesFrom f.span.head (f.tree.values.take n)).mapM decodeEntry with
  | error e => exact h
  | ok decoded =>
    obtain ⟨hs, rfl, hlen⟩ := exists_positioned hm
    dsimp only
    rcases List.eq_nil_or_concat hs with rfl | ⟨ks, k, hks⟩
    · exact h
    · rw [List.concat_eq_append] at hks
      subst hks
      rw [getLast?_positioned]
      have hbound := h.bound
      have hle : (f.tree.values.take n).length ≤ f.tree.values.length := by
        rw [List.length_take]
        omega
      rw [List.length_append, List.length_singleton] at hlen
      -- the position decoded last is the last one of those that are taken
      have hlast : (f.span.head + UInt64.ofNat ks.length).toNat + 1
          = f.span.head.toNat + (f.tree.values.take n).length := by
        rw [Position.toNat_add_ofNat (by omega)]
        omega
      have hsplit : f.tree.Fills f.span (f.tree.values.take n ++ f.tree.values.drop n) := by
        rw [List.take_append_drop]
        exact h
      exact of_fills (hsplit.deleteFront _ hlast)

/-- **Every call keeps the range, whatever is stored.** -/
theorem perform (h : f.Placed) (c : Call) :
    ∃ next : StoredFrontier, ((Frontier.stored f).perform c).2 = .stored next ∧ next.Placed := by
  cases c with
  | reset k =>
    obtain ⟨-, hnext⟩ := Frontier.Holds.reset (.stored f) k
    exact ⟨_, rfl, of_fills hnext⟩
  | pushFront k => exact ⟨_, rfl, h.pushFrontBatch [k]⟩
  | pushFrontBatch ks => exact ⟨_, rfl, h.pushFrontBatch ks⟩
  | returnBatch ks => exact ⟨_, rfl, h.pushFrontBatch ks⟩
  | pushBack k => exact ⟨_, rfl, h.pushBack k⟩
  | drainFront n => exact ⟨_, rfl, h.drainFront n⟩
  | clear => exact ⟨_, rfl, of_fills (Tree.Fills.cleared f.tree)⟩
  | _ => exact ⟨f, rfl, h⟩

theorem recover (h : f.Placed) : StoredFrontier.recover f.tree = .ok f := by
  unfold StoredFrontier.recover
  rw [Tree.Fills.recover h]
  rfl

theorem inStep (h : f.Placed) : f.InStep where
  agrees := Tree.Fills.agrees h
  length := (Tree.Fills.agrees h).length
  writes c := ⟨f.tree_perform c, spares_writes h c⟩
  reopens := by
    show (Frontier.openTree f.tree).map Prod.fst = _
    unfold Frontier.openTree
    rw [h.recover]
    rfl

end Placed

/-- A run of positions without gaps opens as a frontier. -/
theorem exists_openTree {t : Tree} {s : Span} (hrun : t.Occupies s) :
    ∃ f events, Frontier.openTree t = .ok (.stored f, events) := by
  obtain ⟨range, hfills⟩ := Tree.Fills.of_occupies hrun
  let f : StoredFrontier := ⟨t, range⟩
  have hplaced : f.Placed := hfills
  refine ⟨f, [.openedFrontier f.length], ?_⟩
  unfold Frontier.openTree
  rw [hplaced.recover]
  rfl

end StoredFrontier

/-- The states that a frontier in a tree can get into, whatever the values are. -/
inductive Frontier.Reachable : Frontier → Prop where
  | opened {t : Tree} {s : Span} {f : Frontier} {events : List Event} (hrun : t.Occupies s)
      (hopen : openTree t = .ok (f, events)) : Reachable f
  | performed {f : Frontier} (h : Reachable f) (c : Call) : Reachable (f.perform c).2
  | restarted {f next : Frontier} (h : Reachable f) (hopen : f.reopen = .ok next) :
      Reachable next

theorem Frontier.Reachable.exists_placed {f : Frontier} (h : f.Reachable) :
    ∃ store : StoredFrontier, f = .stored store ∧ store.Placed := by
  induction h with
  | opened hrun hopen =>
    obtain ⟨range, hfills⟩ := Tree.Fills.of_occupies hrun
    unfold openTree StoredFrontier.recover at hopen
    rw [hfills.recover] at hopen
    cases hopen
    exact ⟨_, rfl, hfills⟩
  | performed _ c ih =>
    obtain ⟨store, rfl, hstore⟩ := ih
    exact hstore.perform c
  | restarted _ hopen ih =>
    obtain ⟨store, rfl, hstore⟩ := ih
    rw [hstore.inStep.reopens] at hopen
    cases hopen
    exact ⟨store, rfl, hstore⟩

/-! ## §6. Both stores, call after call. -/

/-- **WHAT IS REMEMBERED IS WHAT IS THERE.**  Every tree whose keys are positions
without a gap opens, as a queue if its values are blocks; and whatever is called
then, refused or not, a store agrees with its tree: the keys are the positions of
the range, no write meets an entry, no sum of positions wraps, and opening the
tree again changes nothing. -/
theorem positions_inStep :
    (∀ {t : Tree} {s : Span} (capacity : Nat), t.Occupies s →
        (∀ v ∈ t.values, ∃ b, StoredQueue.decodeBlock v = .ok b) →
        ∃ q events, BlockQueue.openTree t capacity = .ok (.stored q, events)
          ∧ BlockQueue.Reachable (.stored q))
      ∧ (∀ {q : StoredQueue}, BlockQueue.Reachable (.stored q) → q.InStep)
      ∧ (∀ {t : Tree} {s : Span}, t.Occupies s →
        ∃ f events, Frontier.openTree t = .ok (.stored f, events)
          ∧ Frontier.Reachable (.stored f))
      ∧ ∀ {f : StoredFrontier}, Frontier.Reachable (.stored f) → f.InStep := by
  refine ⟨?_, ?_, ?_, ?_⟩
  -- a queue, then a frontier: first that it opens, then how it stands after any calls
  · intro t s capacity hrun hvalues
    obtain ⟨q, events, hopen⟩ := StoredQueue.exists_openTree capacity hrun hvalues
    refine ⟨q, events, hopen, .opened (fun e he => ?_) hopen⟩
    obtain ⟨p, -, -, hp⟩ := (hrun e.1).mp (Tree.contains_iff.mpr (List.mem_map_of_mem he))
    rw [← hp]
    exact Position.length_encode p
  · intro q hq
    obtain ⟨bs, hbs⟩ := hq.holds
    exact StoredQueue.Holds.inStep hbs
  · intro t s hrun
    obtain ⟨f, events, hopen⟩ := StoredFrontier.exists_openTree hrun
    exact ⟨f, events, hopen, .opened hrun hopen⟩
  · intro f hf
    obtain ⟨store, hstore, hplaced⟩ := hf.exists_placed
    cases hstore
    exact hplaced.inStep

/-- A queue of one block under the last position there is for one. -/
def StoredQueue.brimful : StoredQueue :=
  let b : Block := .linking 1 (.replicate 1) (.replicate 0)
  ⟨Tree.empty.insert (Position.encode 0xfffffffffffffffe) (Block.Binary.encode b),
    ⟨0xfffffffffffffffe, 0xffffffffffffffff⟩, .insert .empty b.hash, 4⟩

/-- A frontier from the first position on, with a value that is no hash. -/
def StoredFrontier.grounded : StoredFrontier :=
  ⟨(Tree.empty.insert (Position.encode 0) (List.replicate 32 7)).insert (Position.encode 1) [1],
    ⟨0, 2⟩⟩

theorem positions_inStep_atTheEnds :
    StoredQueue.brimful.tree.Occupies StoredQueue.brimful.span
      ∧ ((BlockQueue.stored .brimful).perform
          (.enqueue (.linking 2 (.replicate 2) (.replicate 1)))).1 = .refused .keySpaceExhausted
      ∧ BlockQueue.Reachable (.stored .brimful) ∧ StoredQueue.brimful.InStep
      ∧ StoredFrontier.grounded.tree.Occupies StoredFrontier.grounded.span
      ∧ ((Frontier.stored .grounded).perform (.pushFront (.replicate 9))).1
          = .refused .keySpaceExhausted
      ∧ ((Frontier.stored .grounded).perform (.drainFront 2)).1
          = .refused (.corruption (.hashLength 1))
      ∧ Frontier.Reachable (.stored .grounded) ∧ StoredFrontier.grounded.InStep := by
  let b : Block := .linking 1 (.replicate 1) (.replicate 0)
  have hstorable : ∀ d ∈ [b], d.Storable := by decide +kernel
  have hdecoded : StoredQueue.brimful.tree.values.map StoredQueue.decodeBlock = [b].map .ok :=
    StoredQueue.map_decodeBlock_encode hstorable
  have hqueue : StoredQueue.brimful.tree.Fills StoredQueue.brimful.span
      StoredQueue.brimful.tree.values := ⟨rfl, by decide +kernel, fun h => by cases h⟩
  have hblocks : ∀ v ∈ StoredQueue.brimful.tree.values,
      ∃ d, StoredQueue.decodeBlock v = .ok d := by
    intro v hv
    obtain rfl := List.mem_singleton.mp hv
    exact ⟨b, StoredQueue.decodeBlock_encode (hstorable b (List.mem_singleton_self b))⟩
  have hfrontier : StoredFrontier.grounded.tree.Fills StoredFrontier.grounded.span
      StoredFrontier.grounded.tree.values :=
    ⟨by decide +kernel, by decide +kernel, by decide +kernel⟩
  -- what the theorem opens are the two stores themselves
  obtain ⟨q, _, hopen, hq⟩ := positions_inStep.1 4 hqueue.occupies hblocks
  have hbrimful : BlockQueue.openTree StoredQueue.brimful.tree 4
      = .ok (.stored .brimful, [.openedQueue StoredQueue.brimful.length 4]) := by
    unfold BlockQueue.openTree StoredQueue.recover StoredQueue.scanIndex
    rw [hqueue.recover, StoredQueue.foldlM_decoded .empty hdecoded]
    rfl
  obtain ⟨f, _, hopen', hf⟩ := positions_inStep.2.2.1 hfrontier.occupies
  have hgrounded : Frontier.openTree StoredFrontier.grounded.tree
      = .ok (.stored .grounded, [.openedFrontier StoredFrontier.grounded.length]) := by
    unfold Frontier.openTree StoredFrontier.recover
    rw [hfrontier.recover]
    rfl
  cases hopen.symm.trans hbrimful
  cases hopen'.symm.trans hgrounded
  exact ⟨hqueue.occupies, by decide +kernel, hq, positions_inStep.2.1 hq, hfrontier.occupies,
    by decide +kernel, by decide +kernel, hf, positions_inStep.2.2.2 hf⟩

end BlockSync
