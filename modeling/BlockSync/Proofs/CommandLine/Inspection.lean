/-
  BlockSync.Proofs.CommandLine.Inspection
  ───────────────────────────────────────
  **AN OPERATOR CAN RUN ANY COMMAND ON ANY DATABASE.**

  A request reads the settings, opens the database, the frontier and the queue, and then
  looks or clears; each of these may be as far as it gets.  Whatever the two trees hold:

      the settings or a store cannot be read    nothing is printed, nothing changes
      status                                    what the entries at the ends say
      hashes n                                  the first n values, if they are hashes
      clear                                     two empty trees, which open again

  A store that opens remembers as many entries as its tree has
  (`Tree.Fills.length_of_recover`), and the values of an open queue are blocks.  So only a
  value of the frontier that is no hash can stop a report halfway, and what was printed
  before it is still true.

  Main results:

      sizeLines_eq            the sizes in a report are counts of entries
      exists_statusReport_eq  a status tells what stands at the ends of both trees
      exists_hashesReport_eq  hashes are shown in the order in which they are drained
      run_eq_of_opened        a command that gets as far as the stores
      safe_on_any_database    all of it, for every request and every database
-/
import BlockSync.CommandLine.Request
import BlockSync.Proofs.Store.Consumption

namespace BlockSync

/-! ## §1. What an open store says of its tree. -/

/-- Values of the width of a hash are hashes. -/
theorem BlockHash.exists_map_bytes {vs : List Bytes} (h : ∀ v ∈ vs, v.length = 32) :
    ∃ hs : List BlockHash, vs = hs.map BlockHash.bytes := by
  induction vs with
  | nil => exact ⟨[], rfl⟩
  | cons v vs ih =>
    obtain ⟨hv, hvs⟩ := List.forall_mem_cons.mp h
    obtain ⟨hs, rfl⟩ := ih hvs
    exact ⟨⟨v, hv⟩ :: hs, rfl⟩

/-- A frontier and a queue over the trees of a database. -/
structure Database.Opened (d : Database) (capacity : Nat) (f : StoredFrontier)
    (q : StoredQueue) : Prop where
  frontier : ∃ events, Frontier.openTree d.hashes = .ok (.stored f, events)
  queue : ∃ events, BlockQueue.openTree d.blocks capacity = .ok (.stored q, events)

namespace Database.Opened

variable {d : Database} {capacity : Nat} {f : StoredFrontier} {q : StoredQueue}

theorem openStores (h : d.Opened capacity f q) :
    (d.openStores capacity).2 = .ok (.stored f, .stored q) := by
  obtain ⟨events, hf⟩ := h.frontier
  obtain ⟨more, hq⟩ := h.queue
  unfold Database.openStores
  rw [hf]
  dsimp only
  rw [hq]

theorem tree_frontier (h : d.Opened capacity f q) : f.tree = d.hashes := by
  obtain ⟨events, hf⟩ := h.frontier
  exact (Frontier.recover_of_openTree hf).1

/-- The queue has the capacity it was opened with, and its values are blocks. -/
theorem exists_blocks (h : d.Opened capacity f q) :
    ∃ bs : List Block, d.blocks.values.map StoredQueue.decodeBlock = bs.map .ok
      ∧ q.tree = d.blocks ∧ q.capacity = capacity ∧ Span.recover d.blocks = .ok q.span := by
  obtain ⟨events, hq⟩ := h.queue
  have hrecover := BlockQueue.recover_of_openTree hq
  obtain ⟨bs, hbs, htree, hspan, -⟩ := StoredQueue.exists_blocks_of_recover hrecover
  rw [StoredQueue.recover_of_blocks capacity hspan hbs] at hrecover
  exact ⟨bs, hbs, htree, congrArg StoredQueue.capacity (Except.ok.inj hrecover).symm, hspan⟩

/-- Stores that were opened and closed again leave the database as it was. -/
theorem keep_eq (h : d.Opened capacity f q) :
    (d.keepFrontier (.stored f)).keepQueue (.stored q) = d := by
  obtain ⟨-, -, htree, -, -⟩ := h.exists_blocks
  show (⟨f.tree, q.tree⟩ : Database) = d
  rw [h.tree_frontier, htree]

end Database.Opened

namespace CommandLine

namespace Command

variable {d : Database} {capacity : Nat} {f : StoredFrontier} {q : StoredQueue}

/-! ## §2. Reports. -/

/-- The sizes in a report are the counts of entries. -/
theorem sizeLines_eq (h : d.Opened capacity f q) :
    sizeLines (.stored f) (.stored q)
      = ["hash queue size:  " ++ toString d.hashes.size,
        "block queue size: " ++ toString d.blocks.size ++ "/" ++ toString capacity] := by
  obtain ⟨events, hf⟩ := h.frontier
  obtain ⟨-, -, -, hcapacity, hspan⟩ := h.exists_blocks
  have hhashes : f.span.length = d.hashes.size :=
    Tree.Fills.length_of_recover (Frontier.recover_of_openTree hf).2
  have hblocks : q.span.length = d.blocks.size := Tree.Fills.length_of_recover hspan
  show ["hash queue size:  " ++ toString f.span.length,
    "block queue size: " ++ toString q.span.length ++ "/" ++ toString q.capacity] = _
  rw [hhashes, hblocks, hcapacity]

/-- The line about the last block of a tree. -/
inductive LastLines (t : Tree) : List String → Prop where
  | none (h : t.entries = []) : LastLines t []
  | block {e : Entry} {b : Block} (h : t.last? = some e)
      (hb : StoredQueue.decodeBlock e.2 = .ok b) :
      LastLines t ["last block:       #" ++ toString b.number.toNat ++ " " ++ b.hash.text]

/-- The last value of an open queue is a block, or there is none. -/
theorem exists_lastLines_eq (h : d.Opened capacity f q) :
    ∃ last, LastLines d.blocks last ∧ lastLines (.stored q) = .ok last := by
  obtain ⟨bs, hbs, htree, -, -⟩ := h.exists_blocks
  show ∃ last, LastLines d.blocks last ∧ (StoredQueue.peekBack q).map _ = .ok last
  unfold StoredQueue.peekBack
  rw [htree]
  cases hlast : d.blocks.last? with
  | none => exact ⟨[], .none (List.getLast?_eq_none_iff.mp hlast), rfl⟩
  | some e =>
    have he : e ∈ d.blocks.entries := List.mem_of_getLast? hlast
    have hmem : StoredQueue.decodeBlock e.2 ∈ bs.map .ok := by
      rw [← hbs]
      exact List.mem_map_of_mem (List.mem_map_of_mem he)
    obtain ⟨b, -, hb⟩ := List.mem_map.mp hmem
    refine ⟨_, .block hlast hb.symm, ?_⟩
    dsimp only
    rw [← hb]
    rfl

/-- The line about the first hash tells what the first value is. -/
theorem bestLine_nil (htree : f.tree.entries = []) :
    bestLine (.stored f) = .ok "best hash:        none" := by
  have hpeek : (Frontier.stored f).peek = .error .emptyFrontier := by
    show StoredFrontier.peek f = _
    unfold StoredFrontier.peek Tree.first?
    rw [htree]
    rfl
  unfold bestLine
  rw [hpeek]

theorem peek_cons {e : Entry} {rest : List Entry} (htree : f.tree.entries = e :: rest) :
    (Frontier.stored f).peek = StoredFrontier.decodeHash e.2 := by
  show StoredFrontier.peek f = _
  unfold StoredFrontier.peek Tree.first?
  rw [htree]
  rfl

theorem bestLine_hash {e : Entry} {rest : List Entry} {h : BlockHash}
    (htree : f.tree.entries = e :: rest) (hvalue : e.2 = h.bytes) :
    bestLine (.stored f) = .ok ("best hash:        " ++ h.text) := by
  unfold bestLine
  rw [peek_cons htree, hvalue, StoredFrontier.decodeHash_bytes]

theorem bestLine_damaged {e : Entry} {rest : List Entry} (htree : f.tree.entries = e :: rest)
    (hvalue : e.2.length ≠ 32) :
    bestLine (.stored f) = .error (.corruption (.hashLength e.2.length)) := by
  have hpeek : (Frontier.stored f).peek = .error (.corruption (.hashLength e.2.length)) := by
    rw [peek_cons htree]
    unfold StoredFrontier.decodeHash BlockHash.ofBytes?
    rw [dif_neg hvalue]
  unfold bestLine
  rw [hpeek]

theorem statusReport_of_best {g : Frontier} {p : BlockQueue} {line : String}
    {last : List String} (hbest : bestLine g = .ok line) (hlast : lastLines p = .ok last) :
    statusReport g p = .ok (sizeLines g p ++ [line] ++ last) := by
  unfold statusReport
  rw [hbest, hlast]

theorem statusReport_of_damage {g : Frontier} {e : StoreError} (hbest : bestLine g = .error e)
    (p : BlockQueue) : statusReport g p = .failed (sizeLines g p) (.store e) := by
  unfold statusReport
  rw [hbest]

/-- **A status tells what stands at the ends of both trees.** -/
theorem exists_statusReport_eq (h : d.Opened capacity f q) :
    ∃ last, LastLines d.blocks last
      ∧ (d.hashes.entries = [] → statusReport (.stored f) (.stored q)
        = .ok (sizeLines (.stored f) (.stored q) ++ ["best hash:        none"] ++ last))
      ∧ ∀ e rest, d.hashes.entries = e :: rest →
        (∀ k : BlockHash, e.2 = k.bytes → statusReport (.stored f) (.stored q)
          = .ok (sizeLines (.stored f) (.stored q) ++ ["best hash:        " ++ k.text] ++ last))
        ∧ (e.2.length ≠ 32 → statusReport (.stored f) (.stored q)
          = .failed (sizeLines (.stored f) (.stored q))
            (.store (.corruption (.hashLength e.2.length)))) := by
  obtain ⟨last, hlast, hlines⟩ := exists_lastLines_eq h
  have htree := h.tree_frontier
  refine ⟨last, hlast, fun hnil => ?_, fun e rest hes => ?_⟩
  · exact statusReport_of_best (bestLine_nil (by rw [htree, hnil])) hlines
  · have hfirst : f.tree.entries = e :: rest := by rw [htree, hes]
    exact ⟨fun k hvalue => statusReport_of_best (bestLine_hash hfirst hvalue) hlines,
      fun hwidth => statusReport_of_damage (bestLine_damaged hfirst hwidth) _⟩

/-- **Hashes are shown in the order in which they are drained.** -/
theorem hashesReport_eq {hs : List BlockHash} (hvalues : f.tree.values = hs.map BlockHash.bytes)
    (n : Nat) : hashesReport n (.stored f) = .ok ((hs.take n).map BlockHash.text) := by
  have hfront : (Frontier.stored f).front n = .ok (hs.take n) := by
    show StoredFrontier.front f n = _
    unfold StoredFrontier.front
    rw [hvalues, ← List.map_take, StoredFrontier.mapM_decodeHash]
  unfold hashesReport
  rw [hfront]

/-- What is shown of a sound frontier is what any drains hand out. -/
theorem exists_hashesReport_eq (h : d.Opened capacity f q)
    (hwell : ∀ e ∈ d.hashes.entries, e.1.length = 8 ∧ e.2.length = 32) :
    ∃ all : List BlockHash, d.hashes.values = all.map BlockHash.bytes
      ∧ all.length = d.hashes.size
      ∧ (∀ n, hashesReport n (.stored f) = .ok ((all.take n).map BlockHash.text))
      ∧ ∀ asked given g, f.Drains asked given g → given = all.take asked := by
  have hwidths : ∀ v ∈ d.hashes.values, v.length = 32 := fun v hv => by
    obtain ⟨e, he, rfl⟩ := List.mem_map.mp hv
    exact (hwell e he).2
  obtain ⟨all, hall⟩ := BlockHash.exists_map_bytes hwidths
  have hsize : all.length = d.hashes.size := by
    have hlengths := congrArg List.length hall
    unfold Tree.values at hlengths
    rw [List.length_map, List.length_map] at hlengths
    exact hlengths.symm
  have htree := h.tree_frontier
  obtain ⟨events, hopen⟩ := h.frontier
  have hspan := (Frontier.recover_of_openTree hopen).2
  have hvalues : f.tree.values = all.map BlockHash.bytes := by rw [htree, hall]
  refine ⟨all, hall, hsize, hashesReport_eq hvalues, fun asked given g hg => ?_⟩
  rw [← htree] at hspan hwell
  obtain ⟨k, hgiven, -, hk⟩ := hg.exists_drained hspan hvalues
  rw [hgiven, hk fun e he => (hwell e he).1]

/-! ## §3. What is left of the database. -/

/-- A command that gets as far as the stores acts on them. -/
theorem run_eq_of_opened (h : d.Opened capacity f q) (c : Command) :
    c.run capacity d = match c with
      | .status => (statusReport (.stored f) (.stored q), d)
      | .hashes n => (hashesReport n (.stored f), d)
      | .clear => (.ok [], ⟨f.clear.tree, q.clear.tree⟩) := by
  unfold run
  rw [h.openStores]
  cases c with
  | status => exact congrArg (Prod.mk _) h.keep_eq
  | hashes n => exact congrArg (Prod.mk _) h.keep_eq
  | clear => rfl

/-- Nothing happens where a store does not open. -/
theorem exists_run_eq_of_refused
    (h : (∃ e, Frontier.openTree d.hashes = .error e)
      ∨ ∃ e, BlockQueue.openTree d.blocks capacity = .error e) :
    ∃ e, ∀ c : Command, c.run capacity d = (.failed [] (.store e), d) := by
  have hstores : ∃ e, (d.openStores capacity).2 = .error e := by
    unfold Database.openStores
    cases hf : Frontier.openTree d.hashes with
    | error e => exact ⟨e, rfl⟩
    | ok opened =>
      -- the frontier opens, so it is the queue that does not
      obtain ⟨e, hq⟩ := h.resolve_left (by rw [hf]; rintro ⟨e, he⟩; cases he)
      refine ⟨e, ?_⟩
      dsimp only
      rw [hq]
  obtain ⟨e, he⟩ := hstores
  refine ⟨e, fun c => ?_⟩
  unfold run
  rw [he]

theorem exists_opened_or_refused (d : Database) (capacity : Nat) :
    (∃ f q, d.Opened capacity f q)
      ∨ (∃ e, Frontier.openTree d.hashes = .error e)
      ∨ ∃ e, BlockQueue.openTree d.blocks capacity = .error e := by
  cases hf : StoredFrontier.recover d.hashes with
  | error e =>
    refine Or.inr (Or.inl ⟨e, ?_⟩)
    unfold Frontier.openTree
    rw [hf]
    rfl
  | ok f =>
    cases hq : StoredQueue.recover d.blocks capacity with
    | error e =>
      refine Or.inr (Or.inr ⟨e, ?_⟩)
      unfold BlockQueue.openTree
      rw [hq]
      rfl
    | ok q =>
      refine Or.inl ⟨f, q, ⟨[.openedFrontier f.length], ?_⟩,
        ⟨[.openedQueue q.length capacity], ?_⟩⟩
      · unfold Frontier.openTree
        rw [hf]
        rfl
      · unfold BlockQueue.openTree
        rw [hq]
        rfl

/-- **To look changes nothing**, however far one gets. -/
theorem next_run_of_looking (d : Database) (capacity : Nat) {c : Command} (hc : c ≠ .clear) :
    (c.run capacity d).2 = d := by
  rcases exists_opened_or_refused d capacity with ⟨f, q, h⟩ | hrefused
  · rw [run_eq_of_opened h]
    cases c with
    | status => rfl
    | hashes n => rfl
    | clear => exact absurd rfl hc
  · obtain ⟨e, he⟩ := exists_run_eq_of_refused hrefused
    rw [he]

/-- A tree without entries opens as a frontier and as a queue of no length. -/
theorem opens_empty {t : Tree} (ht : t.entries = []) :
    (∃ f events, Frontier.openTree t = .ok (f, events) ∧ f.length = 0)
      ∧ ∀ capacity, ∃ q events, BlockQueue.openTree t capacity = .ok (q, events)
        ∧ q.length = 0 := by
  have hspan : Span.recover t = .ok .fresh := by
    unfold Span.recover Tree.first?
    rw [ht]
    rfl
  have hlength : Span.fresh.length = 0 := Tree.Fills.empty.length
  refine ⟨⟨.stored ⟨t, .fresh⟩, [.openedFrontier Span.fresh.length], ?_, hlength⟩,
    fun capacity => ?_⟩
  · unfold Frontier.openTree StoredFrontier.recover
    rw [hspan]
    rfl
  · have hvalues : t.values.map StoredQueue.decodeBlock = ([] : List Block).map .ok := by
      unfold Tree.values
      rw [ht]
      rfl
    refine ⟨.stored ⟨t, .fresh, .empty, capacity⟩, [.openedQueue Span.fresh.length capacity], ?_,
      hlength⟩
    unfold BlockQueue.openTree
    rw [StoredQueue.recover_of_blocks capacity hspan hvalues]
    rfl

end Command

/-! ## §4. Requests. -/

namespace Request

variable {r : Request} {file : Settings.File}

theorem run_of_settings_error {failure : Failure} (h : r.settings file = .error failure)
    (data : Except StoreError Database) : r.run file data = (.failed [] failure, data) := by
  unfold run
  rw [h]

theorem run_of_data_error {settings : Settings} (h : r.settings file = .ok settings)
    (e : StoreError) : r.run file (.error e) = (.failed [] (.database r.dataDir e), .error e) := by
  unfold run
  rw [h]

theorem run_of_ready {settings : Settings} (h : r.settings file = .ok settings) (d : Database) :
    r.run file (.ok d) = ((r.command.run settings.maxBlocksQueued d).1,
      .ok (r.command.run settings.maxBlocksQueued d).2) := by
  unfold run
  rw [h]

/-- **ANY COMMAND CAN BE RUN ON ANY DATABASE.**  The two trees may hold whatever there is.
A request to look leaves them alone, whether it succeeds or fails, and no request touches
them if the settings cannot be used, if the database cannot be opened, or if one of its
stores cannot.

If both stores open, a status tells the counts of entries, then the first hash, and then
the block under the last key; of a first value that is no hash it tells the damage, behind
the counts.  A frontier whose keys are positions and whose values are hashes is shown from
its front: as many hashes as asked for or as there are, and any drains that come later hand
out the same ones in this order.  After a clear both trees are without entries, and both
open again, whatever the capacity, as stores of no length. -/
theorem safe_on_any_database (r : Request) (file : Settings.File) (d : Database) :
    (r.command ≠ .clear → ∀ data, (r.run file data).2 = data)
    ∧ (∀ failure, r.settings file = .error failure →
      ∀ data, r.run file data = (.failed [] failure, data))
    ∧ ∀ settings, r.settings file = .ok settings →
      (∀ e, r.run file (.error e) = (.failed [] (.database r.dataDir e), .error e))
      ∧ ((∃ e, Frontier.openTree d.hashes = .error e)
          ∨ (∃ e, BlockQueue.openTree d.blocks settings.maxBlocksQueued = .error e) →
        ∃ e, r.run file (.ok d) = (.failed [] (.store e), .ok d))
      ∧ ∀ f q, d.Opened settings.maxBlocksQueued f q →
        (r.command = .status → ∃ last, Command.LastLines d.blocks last
          ∧ let sizes := ["hash queue size:  " ++ toString d.hashes.size,
              "block queue size: " ++ toString d.blocks.size ++ "/"
                ++ toString settings.maxBlocksQueued]
            (d.hashes.entries = [] →
              (r.run file (.ok d)).1 = .ok (sizes ++ ["best hash:        none"] ++ last))
            ∧ ∀ e rest, d.hashes.entries = e :: rest →
              (∀ h : BlockHash, e.2 = h.bytes → (r.run file (.ok d)).1
                = .ok (sizes ++ ["best hash:        " ++ h.text] ++ last))
              ∧ (e.2.length ≠ 32 → (r.run file (.ok d)).1
                = .failed sizes (.store (.corruption (.hashLength e.2.length)))))
        ∧ (∀ n, r.command = .hashes n →
          (∀ e ∈ d.hashes.entries, e.1.length = 8 ∧ e.2.length = 32) →
          ∃ all : List BlockHash, d.hashes.values = all.map BlockHash.bytes
            ∧ (all.take n).length = min n d.hashes.size
            ∧ (r.run file (.ok d)).1 = .ok ((all.take n).map BlockHash.text)
            ∧ ∀ asked given g, f.Drains asked given g → given = all.take asked)
        ∧ (r.command = .clear → ∃ next : Database, r.run file (.ok d) = (.ok [], .ok next)
          ∧ next.hashes.entries = [] ∧ next.blocks.entries = []
          ∧ (∃ g events, Frontier.openTree next.hashes = .ok (g, events) ∧ g.length = 0)
          ∧ ∀ capacity, ∃ g events, BlockQueue.openTree next.blocks capacity = .ok (g, events)
            ∧ g.length = 0) := by
  refine ⟨fun hlook data => ?_, fun failure => run_of_settings_error, fun settings hready => ?_⟩
  · -- the settings and the database stand between a request and the stores
    cases hsettings : r.settings file with
    | error failure => rw [run_of_settings_error hsettings]
    | ok settings =>
      cases data with
      | error e => rw [run_of_data_error hsettings]
      | ok d =>
        rw [run_of_ready hsettings]
        exact congrArg Except.ok (Command.next_run_of_looking d _ hlook)
  · refine ⟨run_of_data_error hready, fun hrefused => ?_, fun f q h => ?_⟩
    · obtain ⟨e, he⟩ := Command.exists_run_eq_of_refused hrefused
      refine ⟨e, ?_⟩
      rw [run_of_ready hready, he]
    · have hrun := run_of_ready hready d
      rw [Command.run_eq_of_opened h] at hrun
      refine ⟨fun hstatus => ?_, fun n hhashes hwell => ?_, fun hclear => ?_⟩
      · rw [hstatus] at hrun
        obtain ⟨last, hlast, hempty, hfirst⟩ := Command.exists_statusReport_eq h
        rw [Command.sizeLines_eq h] at hempty hfirst
        rw [hrun]
        exact ⟨last, hlast, hempty, hfirst⟩
      · rw [hhashes] at hrun
        obtain ⟨all, hall, hsize, hshown, hdrains⟩ := Command.exists_hashesReport_eq h hwell
        rw [hrun]
        exact ⟨all, hall, by rw [List.length_take, hsize], hshown n, hdrains⟩
      · rw [hclear] at hrun
        have hhashes : f.clear.tree.entries = [] := Tree.entries_apply_deleteAll f.tree
        have hblocks : q.clear.tree.entries = [] := Tree.entries_apply_deleteAll q.tree
        exact ⟨_, hrun, hhashes, hblocks, (Command.opens_empty hhashes).1,
          (Command.opens_empty hblocks).2⟩

/-- Two hashes from position 5 on. -/
def twoHashes : Tree :=
  ⟨Position.entriesFrom 5 ([BlockHash.replicate 1, .replicate 2].map BlockHash.bytes),
    Position.sorted_entriesFrom _ 5 (by decide +kernel)⟩

/-- The hash under the first position of all and a value under the last one. -/
def strayedHashes : Tree :=
  (Tree.empty.insert (Position.encode 0) (BlockHash.replicate 1).bytes).insert
    (Position.encode 0xfffffffffffffffe) [7]

/-- Two hashes are shown in their order and stay.  A clear of a frontier with a gap fails
and leaves the gap. -/
theorem safe_on_any_database_twoHashes :
    let look : Request := ⟨"data", none, .hashes 9⟩
    let clear : Request := ⟨"data", none, .clear⟩
    let sound : Database := ⟨twoHashes, .empty⟩
    let strayed : Database := ⟨strayedHashes, .empty⟩
    look.settings .unreadable = .ok .standard
      ∧ (look.run .unreadable (.ok sound)).2 = .ok sound
      ∧ (∃ all : List BlockHash, (all.take 9).length = 2
        ∧ (look.run .unreadable (.ok sound)).1 = .ok ((all.take 9).map BlockHash.text))
      ∧ ∃ e, clear.run .unreadable (.ok strayed) = (.failed [] (.store e), .ok strayed) := by
  intro look clear sound strayed
  have hspan : Span.recover twoHashes = .ok ⟨5, 7⟩ := by decide +kernel
  have hsound : sound.Opened 300 ⟨twoHashes, ⟨5, 7⟩⟩ ⟨.empty, .fresh, .empty, 300⟩ := by
    refine ⟨⟨[.openedFrontier (Span.length ⟨5, 7⟩)], ?_⟩,
      ⟨[.openedQueue Span.fresh.length 300], rfl⟩⟩
    show Frontier.openTree twoHashes = _
    unfold Frontier.openTree StoredFrontier.recover
    rw [hspan]
    rfl
  have hwell : ∀ e ∈ sound.hashes.entries, e.1.length = 8 ∧ e.2.length = 32 := by decide +kernel
  have hgap : ∃ e, Frontier.openTree strayed.hashes = .error e := by
    have hopen : Span.recover strayedHashes
        = .error (.corruption (.span 0 0xffffffffffffffff 2)) := by decide +kernel
    refine ⟨.corruption (.span 0 0xffffffffffffffff 2), ?_⟩
    show Frontier.openTree strayedHashes = _
    unfold Frontier.openTree StoredFrontier.recover
    rw [hopen]
    rfl
  obtain ⟨hlook, -, hready⟩ := safe_on_any_database look .unreadable sound
  obtain ⟨-, -, hstores⟩ := hready .standard rfl
  obtain ⟨all, -, hlen, hshown, -⟩ := (hstores _ _ hsound).2.1 9 rfl hwell
  obtain ⟨-, -, hready'⟩ := safe_on_any_database clear .unreadable strayed
  exact ⟨rfl, hlook (by decide) _, ⟨all, hlen, hshown⟩, (hready' .standard rfl).2.1 (Or.inl hgap)⟩

end Request
end CommandLine
end BlockSync
