/-
  BlockSync.Proofs.Sync.Backlog
  ─────────────────────────────
  **HOW MANY BLOCKS WAIT AT MOST.**

  Only bulk appends are bounded by the capacity.  A single append is not, nor is the
  block that goes back without parent; and while that block is in flight a bulk append
  may take its place.  So it has to be counted with the others: `load` counts the
  blocks in the queue and the one in flight.

      a bulk append     not beyond the capacity and one in flight, or no more than before
      a single append   one more
      the importer      no more than before

  After any deeds the load is at most what the queue had at the beginning, or its
  capacity, and one more, and one for each single append (`load_after`).
-/
import BlockSync.Proofs.Store.BlockQueue.Growth
import BlockSync.Proofs.Sync.Conservation
import BlockSync.Proofs.Sync.Stores

namespace BlockSync

namespace Pipeline

variable {σ : Type} {p q : Pipeline σ}

/-- The count of blocks that are queued or in flight. -/
def load (p : Pipeline σ) : Nat := p.queue.length + p.importer.inFlight.length

theorem length_inFlight_le (i : Importer) : i.inFlight.length ≤ 1 := by
  unfold Importer.inFlight
  split
  · exact Nat.le_refl 1
  · exact Nat.zero_le 1

/-- **The importer only moves blocks**: none is there that was not there before. -/
theorem Flow.load_le (h : Flow p q) (hwithin : p.queue.Within) :
    q.queue.Within ∧ q.queue.capacity = p.queue.capacity ∧ q.load ≤ p.load := by
  unfold load
  cases h with
  | idle hqueue hflight =>
    rw [hqueue, hflight]
    exact ⟨hwithin, rfl, Nat.le_refl _⟩
  | took hrest hqueue hflight =>
    obtain ⟨hnext, hlength⟩ := hwithin.poll
    rw [hqueue, hflight, hrest]
    exact ⟨hnext, p.queue.capacity_poll, hlength⟩
  | done hb hqueue hflight =>
    rw [hqueue, hflight, hb]
    exact ⟨hwithin, rfl, Nat.le_succ _⟩
  | @back b hb hqueue hflight =>
    obtain ⟨hnext, hlength⟩ := hwithin.enqueue b
    rw [hqueue, hflight, hb]
    exact ⟨hnext, p.queue.capacity_enqueue b, hlength⟩

end Pipeline

namespace Synchronizer

variable {σ : Type} {C : Chain σ}

/-- Whether a deed is a single append. -/
def Deed.isSingleAppend : Deed σ → Bool
  | .call (.addBlock _) => true
  | _ => false

/-- Only a single append goes beyond the capacity. -/
theorem excess_of_onQueue? {c : Call} {k : BlockQueue.Call} (hk : c.onQueue? = some k) :
    k.excess = if Deed.isSingleAppend (σ := σ) (.call c) then 1 else 0 := by
  cases c with
  | addBlocks bs =>
    cases bs with
    | nil => cases hk
    | cons b bs => cases hk; rfl
  | addBlock b => cases hk; rfl
  | clear => cases hk; rfl
  | _ => cases hk

/-- The queue stays within its range and keeps its capacity, and the load is bounded
by a number above it. -/
structure Loaded (capacity bound : Nat) (s : Synchronizer σ) : Prop where
  within : s.pipeline.queue.Within
  capacity_eq : s.pipeline.queue.capacity = capacity
  capacity_lt : capacity < bound
  load_le : s.pipeline.load ≤ bound

namespace Loaded

variable {capacity bound : Nat} {s t : Synchronizer (Recorded σ)}

/-- What leaves the queue and the block in flight alone. -/
theorem aside (h : Loaded capacity bound s) (more : Nat)
    (hqueue : t.pipeline.queue = s.pipeline.queue)
    (hflight : t.pipeline.importer.inFlight = s.pipeline.importer.inFlight) :
    Loaded capacity (bound + more) t := by
  refine ⟨by rw [hqueue]; exact h.within, by rw [hqueue]; exact h.capacity_eq,
    Nat.lt_add_right more h.capacity_lt, ?_⟩
  unfold Pipeline.load
  rw [hqueue, hflight]
  exact Nat.le_add_right_of_le h.load_le

theorem call (h : Loaded capacity bound s) (c : Call) :
    Loaded capacity (bound + if Deed.isSingleAppend (σ := σ) (.call c) then 1 else 0)
      (s.call c) := by
  have hqueue := s.queue_call c
  have hflight := (Served.call s c).pipeline.inFlight
  cases hk : c.onQueue? with
  | none =>
    rw [hk] at hqueue
    exact h.aside _ hqueue hflight
  | some k =>
    rw [hk] at hqueue
    have hone := Pipeline.length_inFlight_le s.pipeline.importer
    obtain ⟨hwithin, hcapacity, hlt, hload⟩ := h
    obtain ⟨hnext, hlength⟩ := hwithin.perform k
    rw [excess_of_onQueue? (σ := σ) hk] at hlength
    refine ⟨by rw [hqueue]; exact hnext, ?_, Nat.lt_add_right _ hlt, ?_⟩
    · rw [hqueue]
      exact (s.pipeline.queue.capacity_perform k).trans hcapacity
    · -- the queue may be full again while a block is in flight
      unfold Pipeline.load at hload ⊢
      rw [hqueue, hflight]
      show (s.pipeline.queue.perform k).2.length + _ ≤ _
      omega

theorem work (h : Loaded capacity bound s) : Loaded capacity bound (s.work C.recorded) := by
  rcases s.work_eq_or_move C.recorded with hrest | hmove
  · rw [hrest]
    exact h
  · obtain ⟨hnext, hcapacity, hload⟩ := hmove.flow.load_le h.within
    exact ⟨hnext, hcapacity.trans h.capacity_eq, h.capacity_lt, Nat.le_trans hload h.load_le⟩

/-- **Each deed keeps the bound**, which a single append puts up by one. -/
theorem happen (h : Loaded capacity bound s) (d : Deed σ) :
    Loaded capacity (bound + if d.isSingleAppend then 1 else 0) (s.happen C d) := by
  rcases s.deed_cases C d with ⟨c, rfl⟩ | rfl | haside
  · exact h.call c
  · exact h.work
  · exact h.aside _ haside.queue haside.inFlight

/-- The bound at the beginning: the capacity or the length, and one. -/
theorem of_start {settings : Settings} {canRun : Bool} {site : Site (Recorded σ)}
    (hwithin : site.pipeline.queue.Within) (hstart : start settings canRun site = .ok s) :
    Loaded site.pipeline.queue.capacity
      (max site.pipeline.queue.capacity site.pipeline.queue.length + 1) s := by
  obtain ⟨events, hpipeline⟩ := exists_pipeline_start hstart
  refine ⟨?_, ?_, by omega, ?_⟩
  · rw [hpipeline]
    exact hwithin
  · rw [hpipeline]
    rfl
  · -- nothing is in flight yet
    rw [hpipeline]
    show site.pipeline.queue.length + 0 ≤ _
    omega

theorem after (h : Loaded capacity bound s) (deeds : List (Deed σ)) :
    Loaded capacity (bound + deeds.countP Deed.isSingleAppend) (s.after C deeds) :=
  after_counted (Loaded capacity) Deed.isSingleAppend (fun _ => True) (fun d _ h => h.happen d)
    deeds (fun _ _ => trivial) h

end Loaded

/-- **HOW MANY BLOCKS WAIT AT MOST.**  A synchronizer starts over a queue that
opened, whatever its keys and values are.  After any deeds of the callers, of the
importer and of the chain there are, in the queue and in flight together, at most as
many blocks as the capacity allows or as there were at the beginning, and one more,
and one more for each single append.  So with bulk appends only a queue that began
within its capacity is never longer than that and one.  The length is the count of
blocks in a queue that is in good order. -/
theorem load_after {settings : Settings} {canRun : Bool} {site : Site (Recorded σ)}
    {s₀ : Synchronizer (Recorded σ)} (hqueue : site.pipeline.queue.Opened)
    (hstart : start settings canRun site = .ok s₀) (deeds : List (Deed σ)) :
    let q := site.pipeline.queue
    let s := s₀.after C deeds
    s.size + s.pipeline.importer.inFlight.length
        ≤ max q.capacity q.length + 1 + deeds.countP Deed.isSingleAppend
      ∧ ((∀ d ∈ deeds, d.isSingleAppend = false) → q.length ≤ q.capacity →
        s.size ≤ q.capacity + 1)
      ∧ (q.Reachable → (∀ d ∈ deeds, ∀ b ∈ d.blocks, b.Storable) →
        q.length = q.blocks.length ∧ s.pipeline.queue.contents = s.pipeline.queue.blocks.map .ok
          ∧ s.size = s.pipeline.queue.blocks.length) := by
  intro q s
  have hload : s.size + s.pipeline.importer.inFlight.length
      ≤ max q.capacity q.length + 1 + deeds.countP Deed.isSingleAppend :=
    ((Loaded.of_start hqueue.within hstart).after (C := C) deeds).load_le
  refine ⟨hload, ?_, ?_⟩
  · intro hbulk hroom
    have hnone : deeds.countP Deed.isSingleAppend = 0 :=
      List.countP_eq_zero.mpr fun d hd => by simp [hbulk d hd]
    omega
  · intro hreach hdeeds
    have hsound := (Pipeline.Sound.of_start hreach hstart).after (C := C) deeds hdeeds
    obtain ⟨bs, hbs⟩ := hreach.holds
    refine ⟨by rw [hbs.blocks_eq]; exact hbs.length_eq, hsound.holds.contents_eq,
      hsound.holds.length_eq⟩

/-- A block is in flight when another one takes its place, and then it comes back:
the queue is longer than its capacity by one. -/
theorem load_after_waitingForParent :
    let deeds : List (Deed ScriptedChain) :=
      [.call (.addBlocks [heir 2, heir 1]), .work, .work, .call (.addBlocks [heir 3]), .work]
    let s := waitingForParent.after ScriptedChain.chain deeds
    waitingForParent.pipeline.queue.capacity = 2 ∧ s.pipeline.queue.blocks.length = 3
      ∧ s.size ≤ 2 + 1 := by
  intro deeds s
  have hqueue : waitingForParent.pipeline.queue.Opened :=
    .opened (t := .empty) (BlockQueue.openTree_empty 2)
  have hstart : start ⟨1, 2, 5⟩ true waitingForParent.toSite = .ok waitingForParent := rfl
  have hload := load_after (C := ScriptedChain.chain) hqueue hstart deeds
  exact ⟨rfl, by decide +kernel, hload.2.1 (by decide +kernel) (by decide +kernel)⟩

end Synchronizer
end BlockSync
