/-
  BlockSync.Proofs.Store.HashIndex
  ────────────────────────────────
  **THE INDEX IS A MULTISET.**

  `HashIndex.Counts` relates an index to the list of hashes it stands for: each
  hash has one entry at most, no entry counts zero, and the count of a hash is
  how often the list has it.  Inserting and removing a hash keep that relation;
  removing needs it, for an entry that is left out uncovers a second one under
  the same hash, and a count of zero has no predecessor.

  An index may also have lost hashes.  `HashIndex.Tracks` is what is left then: no
  count is too high, and some hashes are counted right.  `Counts` is the case in
  which all of them are.
-/
import BlockSync.Store.HashIndex

namespace BlockSync.HashIndex

/-! ## §1. Entries one by one. -/

theorem count_cons (k h : BlockHash) (n : Nat) (rest : List (BlockHash × Nat)) :
    count ⟨(k, n) :: rest⟩ h = if k = h then n else count ⟨rest⟩ h := by
  unfold count
  rw [List.find?_cons]
  by_cases hk : k = h
  · rw [if_pos hk]
    simp [hk]
  · rw [if_neg hk]
    simp [hk]

theorem count_eq_zero {h : BlockHash} :
    ∀ {counts : List (BlockHash × Nat)}, h ∉ counts.map Prod.fst → count ⟨counts⟩ h = 0
  | [], _ => rfl
  | (k, n) :: rest, hmem => by
    rw [List.map_cons, List.mem_cons, not_or] at hmem
    rw [count_cons, if_neg (fun hk => hmem.1 hk.symm), count_eq_zero hmem.2]

/-- The entry of a hash that has one holds its count. -/
theorem mem_of_mem_keys {h : BlockHash} :
    ∀ {counts : List (BlockHash × Nat)}, h ∈ counts.map Prod.fst →
      (h, count ⟨counts⟩ h) ∈ counts
  | (k, n) :: rest, hmem => by
    rw [count_cons]
    by_cases hk : k = h
    · rw [if_pos hk, hk]
      exact List.mem_cons_self
    · rw [if_neg hk]
      have hrest : h ∈ rest.map Prod.fst := by
        rcases List.mem_cons.mp hmem with heq | hrest
        · exact absurd heq.symm hk
        · exact hrest
      exact List.mem_cons_of_mem _ (mem_of_mem_keys hrest)

/-! ## §2. One more of a hash. -/

theorem count_insert_go (h k : BlockHash) (counts : List (BlockHash × Nat)) :
    count ⟨insert.go h counts⟩ k = count ⟨counts⟩ k + if h = k then 1 else 0 := by
  induction counts with
  | nil =>
    show count ⟨[(h, 1)]⟩ k = 0 + _
    rw [count_cons, Nat.zero_add]
    rfl
  | cons e rest ih =>
    obtain ⟨d, n⟩ := e
    unfold insert.go
    by_cases hd : d = h
    · -- the entry that is counted up
      subst hd
      rw [if_pos rfl, count_cons, count_cons]
      by_cases hk : d = k
      · rw [if_pos hk, if_pos hk, if_pos hk]
      · rw [if_neg hk, if_neg hk, if_neg hk, Nat.add_zero]
    · rw [if_neg hd, count_cons, count_cons, ih]
      by_cases hk : d = k
      · have hhk : ¬ h = k := fun hhk => hd (hk.trans hhk.symm)
        rw [if_pos hk, if_pos hk, if_neg hhk, Nat.add_zero]
      · rw [if_neg hk, if_neg hk]

theorem mem_insert_go {h : BlockHash} {e : BlockHash × Nat} {counts : List (BlockHash × Nat)}
    (he : e ∈ insert.go h counts) : e ∈ counts ∨ e.1 = h ∧ 0 < e.2 := by
  induction counts with
  | nil =>
    rw [show e = (h, 1) from List.mem_singleton.mp he]
    exact Or.inr ⟨rfl, Nat.one_pos⟩
  | cons d rest ih =>
    obtain ⟨k, n⟩ := d
    unfold insert.go at he
    split at he
    next hk =>
      rcases List.mem_cons.mp he with rfl | he
      · exact Or.inr ⟨hk, Nat.succ_pos n⟩
      · exact Or.inl (List.mem_cons_of_mem _ he)
    next =>
      rcases List.mem_cons.mp he with rfl | he
      · exact Or.inl List.mem_cons_self
      · exact (ih he).imp_left (List.mem_cons_of_mem _)

theorem nodup_insert_go {h : BlockHash} {counts : List (BlockHash × Nat)}
    (hn : (counts.map Prod.fst).Nodup) : ((insert.go h counts).map Prod.fst).Nodup := by
  induction counts with
  | nil =>
    show [h].Nodup
    simp
  | cons d rest ih =>
    obtain ⟨k, n⟩ := d
    obtain ⟨hk, hrest⟩ := List.nodup_cons.mp hn
    unfold insert.go
    split
    next => exact List.nodup_cons.mpr ⟨hk, hrest⟩
    next hne =>
      -- no key is new behind this one but the inserted hash
      refine List.nodup_cons.mpr ⟨?_, ih hrest⟩
      intro hmem
      obtain ⟨e, he, heq⟩ := List.mem_map.mp hmem
      rcases mem_insert_go he with he | ⟨he, -⟩
      · exact hk (List.mem_map.mpr ⟨e, he, heq⟩)
      · exact hne (heq.symm.trans he)

/-! ## §3. One less of a hash. -/

theorem sublist_keys_remove_go (h : BlockHash) (counts : List (BlockHash × Nat)) :
    ((remove.go h counts).map Prod.fst).Sublist (counts.map Prod.fst) := by
  induction counts with
  | nil => exact List.Sublist.refl _
  | cons d rest ih =>
    obtain ⟨k, n⟩ := d
    unfold remove.go
    split
    next =>
      split
      next => exact List.sublist_cons_self _ _
      next => exact List.Sublist.refl _
    next => exact ih.cons_cons k

theorem pos_remove_go {h : BlockHash} {counts : List (BlockHash × Nat)}
    (hp : ∀ e ∈ counts, 0 < e.2) : ∀ e ∈ remove.go h counts, 0 < e.2 := by
  induction counts with
  | nil => intro e he; cases he
  | cons d rest ih =>
    obtain ⟨k, n⟩ := d
    have hrest : ∀ e ∈ rest, 0 < e.2 := fun e he => hp e (List.mem_cons_of_mem _ he)
    unfold remove.go
    intro e he
    split at he
    next =>
      split at he
      next => exact hrest e he
      next hn =>
        rcases List.mem_cons.mp he with rfl | he
        · exact Nat.pos_of_ne_zero hn
        · exact hrest e he
    next =>
      rcases List.mem_cons.mp he with rfl | he
      · exact hp _ List.mem_cons_self
      · exact ih hrest e he

theorem count_remove_go {h : BlockHash} (k : BlockHash) {counts : List (BlockHash × Nat)}
    (hn : (counts.map Prod.fst).Nodup) :
    count ⟨remove.go h counts⟩ k = count ⟨counts⟩ k - if h = k then 1 else 0 := by
  induction counts with
  | nil => exact (Nat.zero_sub _).symm
  | cons e rest ih =>
    obtain ⟨d, n⟩ := e
    obtain ⟨hd, hrest⟩ := List.nodup_cons.mp hn
    unfold remove.go
    by_cases hdh : d = h
    · subst hdh
      rw [if_pos rfl, count_cons]
      by_cases hk : d = k
      · -- the entry of the hash itself: it is left out when it counted one
        rw [if_pos hk, if_pos hk]
        split
        next hzero => rw [hzero, ← hk, count_eq_zero hd]
        next => rw [count_cons, if_pos hk]
      · rw [if_neg hk, if_neg hk, Nat.sub_zero]
        split
        next => rfl
        next => rw [count_cons, if_neg hk]
    · rw [if_neg hdh, count_cons, count_cons, ih hrest]
      by_cases hk : d = k
      · have hhk : ¬ h = k := fun hhk => hdh (hk.trans hhk.symm)
        rw [if_pos hk, if_pos hk, if_neg hhk, Nat.sub_zero]
      · rw [if_neg hk, if_neg hk]

/-! ## §4. An index that may have lost hashes. -/

/-- An index has a hash exactly if it counts it. -/
theorem contains_iff_count_pos {index : HashIndex} (hpos : ∀ e ∈ index.counts, 0 < e.2)
    (h : BlockHash) : index.contains h ↔ 0 < index.count h := by
  unfold HashIndex.contains
  rw [List.any_eq_true]
  constructor
  · rintro ⟨e, he, heq⟩
    have hmem : h ∈ index.counts.map Prod.fst :=
      List.mem_map.mpr ⟨e, he, of_decide_eq_true heq⟩
    exact hpos _ (mem_of_mem_keys hmem)
  · intro hcount
    have hmem : h ∈ index.counts.map Prod.fst := by
      apply Decidable.by_contra
      intro hmem
      have hzero : index.count h = 0 := count_eq_zero hmem
      omega
    exact ⟨_, mem_of_mem_keys hmem, decide_eq_true rfl⟩

/-- An index counts no hash more often than a list has it, and the hashes that it
is sure of as often as the list does. -/
structure Tracks (index : HashIndex) (hs : List BlockHash) (sure : BlockHash → Prop) : Prop where
  nodup : (index.counts.map Prod.fst).Nodup
  pos : ∀ e ∈ index.counts, 0 < e.2
  count_le : ∀ h, index.count h ≤ hs.count h
  count_eq : ∀ h, sure h → index.count h = hs.count h

namespace Tracks

variable {index : HashIndex} {hs : List BlockHash} {sure : BlockHash → Prop}

/-- An index that has lost everything is sure of what is not there. -/
theorem empty (hsure : ∀ h, sure h → h ∉ hs) : Tracks .empty hs sure :=
  ⟨List.nodup_nil, fun e he => (by cases he), fun _ => Nat.zero_le _,
    fun h hh => (List.count_eq_zero.mpr (hsure h hh)).symm⟩

theorem insert (h : BlockHash) (ht : Tracks index hs sure) :
    Tracks (index.insert h) (hs ++ [h]) sure := by
  have hinsert : ∀ k, (index.insert h).count k = index.count k + if h = k then 1 else 0 :=
    fun k => count_insert_go h k index.counts
  have happend : ∀ k, (hs ++ [h]).count k = hs.count k + if h = k then 1 else 0 := by
    intro k
    rw [List.count_append, List.count_singleton]
    simp only [beq_iff_eq]
  refine ⟨nodup_insert_go ht.nodup, ?_, ?_, ?_⟩
  · intro e he
    rcases mem_insert_go he with he | ⟨-, hpos⟩
    · exact ht.pos e he
    · exact hpos
  · intro k
    rw [hinsert, happend]
    exact Nat.add_le_add_right (ht.count_le k) _
  · intro k hk
    rw [hinsert, happend, ht.count_eq k hk]

theorem insertAll (ks : List BlockHash) :
    ∀ {index : HashIndex} {hs : List BlockHash}, Tracks index hs sure →
      Tracks (index.insertAll ks) (hs ++ ks) sure := by
  induction ks with
  | nil =>
    intro index hs ht
    rw [List.append_nil]
    exact ht
  | cons k ks ih =>
    intro index hs ht
    have hrest := ih (ht.insert k)
    rw [List.append_assoc] at hrest
    exact hrest

theorem remove {h : BlockHash} (ht : Tracks index (h :: hs) sure) :
    Tracks (index.remove h) hs sure := by
  have hremove : ∀ k, (index.remove h).count k = index.count k - if h = k then 1 else 0 :=
    fun k => count_remove_go k ht.nodup
  have hcons : ∀ k, (h :: hs).count k = hs.count k + if h = k then 1 else 0 := by
    intro k
    rw [List.count_cons]
    simp only [beq_iff_eq]
  refine ⟨ht.nodup.sublist (sublist_keys_remove_go h index.counts), pos_remove_go ht.pos, ?_, ?_⟩
  · intro k
    have hle := ht.count_le k
    rw [hcons] at hle
    rw [hremove]
    exact Nat.sub_le_of_le_add hle
  · intro k hk
    rw [hremove, ht.count_eq k hk, hcons, Nat.add_sub_cancel]

/-- What an index has is there. -/
theorem mem_of_contains (ht : Tracks index hs sure) {h : BlockHash} (hc : index.contains h) :
    h ∈ hs := by
  have hpos := (contains_iff_count_pos ht.pos h).mp hc
  exact List.count_pos_iff.mp (Nat.lt_of_lt_of_le hpos (ht.count_le h))

/-- An index has a hash that it is sure of exactly if the list does. -/
theorem contains_iff (ht : Tracks index hs sure) {h : BlockHash} (hh : sure h) :
    index.contains h ↔ h ∈ hs := by
  rw [contains_iff_count_pos ht.pos, ht.count_eq h hh, List.count_pos_iff]

/-- Of hashes it is sure of, an index misses those that the list does not have. -/
theorem missing_eq (ht : Tracks index hs sure) {ks : List BlockHash} (hks : ∀ k ∈ ks, sure k) :
    index.missing ks = ks.filter fun k => k ∉ hs := by
  unfold HashIndex.missing
  refine List.filter_congr fun k hk => ?_
  have hiff := ht.contains_iff (hks k hk)
  by_cases hmem : k ∈ hs
  · rw [hiff.mpr hmem]
    simp [hmem]
  · rw [Bool.eq_false_iff.mpr fun hc => hmem (hiff.mp hc)]
    simp [hmem]

end Tracks

/-! ## §5. What an index stands for. -/

/-- An index stands for a list of hashes, whose order does not matter. -/
structure Counts (index : HashIndex) (hs : List BlockHash) : Prop where
  nodup : (index.counts.map Prod.fst).Nodup
  pos : ∀ e ∈ index.counts, 0 < e.2
  count : ∀ h, index.count h = hs.count h

namespace Counts

variable {index : HashIndex} {hs : List BlockHash}

/-- An index that stands for a list may be sure of any hash. -/
theorem tracks (hc : Counts index hs) (sure : BlockHash → Prop) : Tracks index hs sure :=
  ⟨hc.nodup, hc.pos, fun h => Nat.le_of_eq (hc.count h), fun h _ => hc.count h⟩

/-- An index that is sure of every hash stands for the list. -/
theorem of_tracks (ht : Tracks index hs fun _ => True) : Counts index hs :=
  ⟨ht.nodup, ht.pos, fun h => ht.count_eq h trivial⟩

theorem empty : Counts .empty [] := of_tracks (.empty fun _ _ => List.not_mem_nil)

theorem insertAll (ks : List BlockHash) (hc : Counts index hs) :
    Counts (index.insertAll ks) (hs ++ ks) :=
  of_tracks ((hc.tracks _).insertAll ks)

theorem remove {h : BlockHash} (hc : Counts index (h :: hs)) : Counts (index.remove h) hs :=
  of_tracks (hc.tracks _).remove

/-- **An index has a hash exactly if the list it stands for does.** -/
theorem contains_iff (hc : Counts index hs) (h : BlockHash) : index.contains h ↔ h ∈ hs :=
  (hc.tracks fun _ => True).contains_iff trivial

/-- The hashes an index misses are those that the list does not have. -/
theorem missing_eq (hc : Counts index hs) (ks : List BlockHash) :
    index.missing ks = ks.filter fun k => k ∉ hs :=
  (hc.tracks fun _ => True).missing_eq fun _ _ => trivial

end Counts
end BlockSync.HashIndex
