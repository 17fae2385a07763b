/-
  BlockSync.Proofs.Store.Recovery
  ───────────────────────────────
  **OPENING A TREE FINDS EVERY GAP BETWEEN ITS ENDS, AND NO OTHER LOSS.**

  Nobody reads all the keys when a tree is opened.  Its first key, its last key and
  the count of its entries are looked at (`Span.recover_of_ends`), and that is
  enough: keys ascend, so positions that span no more than their number are one run.

      no entry                                       the fresh range
      the last position of the key space is in use   no position is left for a tail
      the keys are a run of positions                the range of that run
      anything else                                  the range and the count of entries,
                                                     which do not match

  Main results:

      recover_eq_ok_iff       a tree of positions opens exactly if they are one run
      recover_of_sublist      entries lost between the ends are noticed
      Fills.part              entries lost at the ends are not
      recover_finds_gaps      all of it, and what it means for the two stores
-/
import BlockSync.Proofs.Store.Occupancy

namespace BlockSync

/-! ## §1. What is looked at. -/

namespace Tree

/-- The first and the last key of a tree are two positions. -/
structure Ends (t : Tree) (head final : UInt64) : Prop where
  first : t.first?.map Prod.fst = some (Position.encode head)
  last : t.last?.map Prod.fst = some (Position.encode final)

/-- A tree of positions that is not empty has two ends. -/
theorem exists_ends {t : Tree} (hkeys : ∀ e ∈ t.entries, e.1.length = 8) (hne : t.entries ≠ []) :
    ∃ head final, t.Ends head final := by
  obtain ⟨head, hhead⟩ := Position.exists_decode (hkeys _ (List.head_mem hne))
  obtain ⟨final, hfinal⟩ := Position.exists_decode (hkeys _ (List.getLast_mem hne))
  refine ⟨head, final, ?_, ?_⟩
  · show t.entries.head?.map Prod.fst = _
    rw [List.head?_eq_some_head hne, Position.encode_of_decode hhead]
    rfl
  · show t.entries.getLast?.map Prod.fst = _
    rw [List.getLast?_eq_some_getLast hne, Position.encode_of_decode hfinal]
    rfl

end Tree

namespace Span

variable {t u : Tree} {head final : UInt64}

theorem recover_of_nil (h : t.entries = []) : recover t = .ok .fresh := by
  have hfirst : t.first? = none := by
    show t.entries.head? = none
    rw [h]
    rfl
  unfold recover
  rw [hfirst]

/-- **The ends and the count decide.** -/
theorem recover_of_ends (h : t.Ends head final) :
    recover t =
      if final.toNat + 1 = UInt64.size then .error .keySpaceExhausted
      else if (⟨head, final + 1⟩ : Span).length ≠ t.size
        then .error (.corruption (.span head (final + 1) t.size))
      else .ok ⟨head, final + 1⟩ := by
  obtain ⟨first, hfirst, hhead⟩ := Option.map_eq_some_iff.mp h.first
  obtain ⟨last, hlast, hfinal⟩ := Option.map_eq_some_iff.mp h.last
  -- both ends are read as positions, so only the count is left to compare
  unfold recover
  rw [hfirst, hlast]
  simp only [bind, Except.bind, hhead, hfinal, Position.decode_encode]

/-- **A tree of positions opens exactly if they are one run**, which then is the
range it opens with. -/
theorem recover_eq_ok_iff (hkeys : ∀ e ∈ t.entries, e.1.length = 8) (h : t.Ends head final)
    (hfinal : final.toNat + 1 ≠ UInt64.size) :
    recover t = .ok ⟨head, final + 1⟩ ↔ t.Occupies ⟨head, final + 1⟩ := by
  constructor
  · intro hopen
    exact (Tree.Fills.of_recover hkeys hopen).occupies
  · -- a run opens with some range, and the ends leave no choice
    intro hrun
    obtain ⟨range, hfills⟩ := Tree.Fills.of_occupies hrun
    have hopen := recover_of_ends h
    rw [hfills.recover, if_neg hfinal] at hopen
    split at hopen
    · cases hopen
    · rw [hfills.recover, hopen]

/-- Whatever else the keys of a tree of positions are, they are no run. -/
theorem recover_of_not_occupies (hkeys : ∀ e ∈ t.entries, e.1.length = 8)
    (h : t.Ends head final) (hfinal : final.toNat + 1 ≠ UInt64.size)
    (hgap : ¬ t.Occupies ⟨head, final + 1⟩) :
    recover t = .error (.corruption (.span head (final + 1) t.size)) := by
  have hopen := recover_of_ends h
  rw [if_neg hfinal] at hopen
  -- were the count right, the tree would have opened, and so be a run
  split at hopen
  · exact hopen
  · exact absurd ((recover_eq_ok_iff hkeys h hfinal).mp hopen) hgap

/-! ## §2. Entries that are lost. -/

/-- **Entries lost between the ends are noticed**: the ends are as far apart as they
were, but fewer entries are left. -/
theorem recover_of_sublist {s : Span} (hkeys : ∀ e ∈ t.entries, e.1.length = 8)
    (hopen : recover t = .ok s) (hsub : u.entries.Sublist t.entries) (hlost : u.entries ≠ t.entries)
    (hfirst : u.first?.map Prod.fst = t.first?.map Prod.fst)
    (hlast : u.last?.map Prod.fst = t.last?.map Prod.fst) :
    recover u = .error (.corruption (.span s.head s.tail u.size)) := by
  have hne : t.entries ≠ [] := by
    intro hnil
    rw [hnil] at hsub hlost
    exact hlost (List.sublist_nil.mp hsub)
  obtain ⟨head, final, hends⟩ := Tree.exists_ends hkeys hne
  have hends' : u.Ends head final := ⟨hfirst.trans hends.first, hlast.trans hends.last⟩
  have hfewer : u.size < t.size :=
    Nat.lt_of_le_of_ne hsub.length_le fun heq => hlost (hsub.eq_of_length heq)
  -- what the whole tree opened with says what its ends are
  rw [recover_of_ends hends] at hopen
  rw [recover_of_ends hends']
  split at hopen
  · cases hopen
  next hfinal =>
    split at hopen
    · cases hopen
    next hcount =>
      cases hopen
      rw [if_neg hfinal, if_pos (by omega)]

end Span

/-- **Entries lost at the ends are not noticed**: what is left is a run again. -/
theorem Tree.Fills.part {t u : Tree} {s : Span} (h : t.Fills s t.values)
    (hu : u.entries <:+: t.entries) : ∃ range, u.Fills range u.values := by
  obtain ⟨front, back, hsplit⟩ := hu
  have hvalues : t.values = front.map Prod.snd ++ (u.values ++ back.map Prod.snd) := by
    unfold Tree.values
    rw [← hsplit, List.append_assoc, List.map_append, List.map_append]
  have hlen : t.values.length
      = front.length + (u.values.length + (back.map Prod.snd).length) := by
    rw [hvalues, List.length_append, List.length_append, List.length_map]
  have hbound := h.bound
  -- the entries that are left begin as many positions behind the head as are lost there
  have hentries := h.entries
  rw [hvalues, Position.entriesFrom_append, Position.entriesFrom_append, ← hsplit,
    List.append_assoc] at hentries
  have hmiddle := (List.append_inj (List.append_inj hentries (by simp)).2
    (by simp [Tree.values])).1
  by_cases hne : u.values = []
  · -- nothing is left, and that is the fresh range
    rw [hne] at hmiddle ⊢
    exact ⟨.fresh, hmiddle, rfl, fun _ => rfl⟩
  · rw [List.length_map] at hmiddle
    have hhead : (s.head + UInt64.ofNat front.length).toNat = s.head.toNat + front.length :=
      Position.toNat_add_ofNat (by omega)
    refine ⟨⟨s.head + UInt64.ofNat front.length,
      s.head + UInt64.ofNat front.length + UInt64.ofNat u.values.length⟩, hmiddle, ?_, ?_⟩
    · exact Position.toNat_add_ofNat (by omega)
    · intro hnil
      exact absurd hnil hne

/-! ## §3. What the stores make of it. -/

theorem Frontier.openTree_of_error {t : Tree} {e : StoreError} (h : Span.recover t = .error e) :
    openTree t = .error e := by
  unfold openTree StoredFrontier.recover
  rw [h]
  rfl

theorem BlockQueue.openTree_of_error {t : Tree} {e : StoreError} (capacity : Nat)
    (h : Span.recover t = .error e) : openTree t capacity = .error e := by
  unfold openTree StoredQueue.recover
  rw [h]
  rfl

/-- Values that are blocks stay blocks in every part of a tree. -/
theorem StoredQueue.exists_blocks_of_part {t u : Tree} {bs : List Block}
    (hu : u.entries <:+: t.entries) (hbs : t.values.map decodeBlock = bs.map .ok) :
    ∃ ds : List Block, u.values.map decodeBlock = ds.map .ok := by
  obtain ⟨front, back, hsplit⟩ := hu
  unfold Tree.values at hbs ⊢
  rw [← hsplit, List.map_append, List.map_append, List.map_append, List.map_append] at hbs
  obtain ⟨cs, _, -, hcs, -⟩ := List.append_eq_map_iff.mp hbs
  obtain ⟨_, ds, -, -, hds⟩ := List.append_eq_map_iff.mp hcs.symm
  exact ⟨ds, hds.symm⟩

/-- What is left of a tree that opens as a queue opens as one, if it is a run. -/
theorem BlockQueue.openTree_of_part {t u : Tree} {range : Span} {capacity : Nat} {q : BlockQueue}
    {events : List Event} (hq : openTree t capacity = .ok (q, events))
    (hu : u.entries <:+: t.entries) (hrange : Span.recover u = .ok range) :
    ∃ next events, openTree u capacity = .ok (.stored next, events) := by
  unfold openTree at hq ⊢
  cases hr : StoredQueue.recover t capacity with
  | error e =>
    rw [hr] at hq
    cases hq
  | ok s =>
    -- only a tree of blocks opens as a queue
    obtain ⟨bs, hbs, -⟩ := StoredQueue.exists_blocks_of_recover hr
    obtain ⟨ds, hds⟩ := StoredQueue.exists_blocks_of_part hu hbs
    rw [StoredQueue.recover_of_blocks capacity hrange hds]
    exact ⟨_, _, rfl⟩

/-- **OPENING A TREE FINDS EVERY GAP BETWEEN ITS ENDS, AND NO OTHER LOSS.**  A tree
without entries opens with the fresh range.  If all its keys are positions, it is
refused for want of a tail if the last position there is is in use; it opens from its
first key to one past its last if its keys are all the positions between; and in
every other case it is refused as damaged, with this range and the count of entries.

So of a tree that opens no entries can be lost between the first and the last one
without either store refusing it, and any number can be lost before and behind some
others without either store noticing. -/
theorem recover_finds_gaps {t : Tree} (hkeys : ∀ e ∈ t.entries, e.1.length = 8) :
    (t.entries = [] → Span.recover t = .ok .fresh)
      ∧ (t.entries ≠ [] → ∃ head final, t.Ends head final
        ∧ (final = 0xffffffffffffffff → Span.recover t = .error .keySpaceExhausted)
        ∧ (final ≠ 0xffffffffffffffff →
          (t.Occupies ⟨head, final + 1⟩ → Span.recover t = .ok ⟨head, final + 1⟩)
            ∧ (¬ t.Occupies ⟨head, final + 1⟩ →
              Span.recover t = .error (.corruption (.span head (final + 1) t.size)))))
      ∧ (∀ {s : Span}, Span.recover t = .ok s →
        (∀ {u : Tree}, u.entries.Sublist t.entries → u.entries ≠ t.entries →
          u.first?.map Prod.fst = t.first?.map Prod.fst →
          u.last?.map Prod.fst = t.last?.map Prod.fst →
          Span.recover u = .error (.corruption (.span s.head s.tail u.size))
            ∧ Frontier.openTree u = .error (.corruption (.span s.head s.tail u.size))
            ∧ ∀ capacity, BlockQueue.openTree u capacity
              = .error (.corruption (.span s.head s.tail u.size)))
          ∧ ∀ {u : Tree}, u.entries <:+: t.entries →
            (∃ range, Span.recover u = .ok range)
              ∧ (∃ f events, Frontier.openTree u = .ok (.stored f, events))
              ∧ ∀ capacity q events, BlockQueue.openTree t capacity = .ok (q, events) →
                ∃ next events, BlockQueue.openTree u capacity = .ok (.stored next, events)) := by
  refine ⟨Span.recover_of_nil, ?_, ?_⟩
  · intro hne
    obtain ⟨head, final, hends⟩ := Tree.exists_ends hkeys hne
    have hlast : final.toNat + 1 = UInt64.size ↔ final = 0xffffffffffffffff := by
      constructor
      · intro heq
        exact UInt64.toNat_inj.mp (Nat.succ.inj heq)
      · intro heq
        rw [heq]
        rfl
    refine ⟨head, final, hends, ?_, ?_⟩
    · intro hfull
      rw [Span.recover_of_ends hends, if_pos (hlast.mpr hfull)]
    · intro hroom
      have hfinal := mt hlast.mp hroom
      exact ⟨(Span.recover_eq_ok_iff hkeys hends hfinal).mpr,
        Span.recover_of_not_occupies hkeys hends hfinal⟩
  · intro s hopen
    constructor
    · intro u hsub hlost hfirst hlast
      have hgap := Span.recover_of_sublist hkeys hopen hsub hlost hfirst hlast
      exact ⟨hgap, Frontier.openTree_of_error hgap,
        fun capacity => BlockQueue.openTree_of_error capacity hgap⟩
    · intro u hu
      obtain ⟨range, hfills⟩ := (Tree.Fills.of_recover hkeys hopen).part hu
      refine ⟨⟨range, hfills.recover⟩, StoredFrontier.exists_openTree hfills.occupies, ?_⟩
      intro capacity q events hq
      exact BlockQueue.openTree_of_part hq hu hfills.recover

/-- Three hashes under the positions from 5 on. -/
def Tree.trio : Tree :=
  let hashes := [BlockHash.replicate 1, .replicate 2, .replicate 3]
  ⟨Position.entriesFrom 5 (hashes.map BlockHash.bytes),
    Position.sorted_entriesFrom _ 5 (by decide +kernel)⟩

theorem recover_finds_gaps_trio :
    (∀ e ∈ Tree.trio.entries, e.1.length = 8)
      ∧ Span.recover .trio = .ok ⟨5, 8⟩
      ∧ Span.recover (Tree.trio.erase (Position.encode 6)) = .error (.corruption (.span 5 8 2))
      ∧ ∃ f events, Frontier.openTree Tree.trio.dropFirst = .ok (.stored f, events) := by
  have hkeys : ∀ e ∈ Tree.trio.entries, e.1.length = 8 := by decide +kernel
  have hopen : Span.recover .trio = .ok ⟨5, 8⟩ := by decide +kernel
  obtain ⟨-, -, hloss⟩ := recover_finds_gaps hkeys
  obtain ⟨hgap, hends⟩ := hloss hopen
  have hmiddle : (Tree.trio.erase (Position.encode 6)).entries ≠ Tree.trio.entries := by
    decide +kernel
  refine ⟨hkeys, hopen, (hgap List.filter_sublist hmiddle rfl ?_).1, ?_⟩
  · decide +kernel
  · exact (hends (List.tail_suffix Tree.trio.entries).isInfix).2.1

end BlockSync
