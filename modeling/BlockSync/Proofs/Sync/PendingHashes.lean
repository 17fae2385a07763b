/-
  BlockSync.Proofs.Sync.PendingHashes
  ───────────────────────────────────
  **WHAT THE GAUGE OF PENDING HASHES SHOWS.**

  A hash that is announced singly goes to the frontier, and the gauge stays as it was.
  Every other call that changes the frontier sets the gauge.  So the gauge is behind
  the frontier by single hashes, and by nothing else (`hashGauge_after`).

  The invariant is `Behind`: how far the gauge is behind at most.
-/
import BlockSync.Proofs.Sync.Gauges

namespace BlockSync.Synchronizer

variable {σ : Type} {C : Chain σ}

/-! ## §1. How far behind. -/

/-- Whether a deed announces a single hash. -/
def Deed.isAddHash : Deed σ → Bool
  | .call (.addHash _) => true
  | _ => false

/-- The gauge of pending hashes is behind the frontier by a number at most. -/
structure Behind (n : Nat) (s : Synchronizer σ) : Prop where
  holds : ∃ hs, s.frontier.Holds hs
  gauge : ∃ missed ≤ n, s.pipeline.hashGauge = some ((s.frontier.length : Int) - missed)

namespace Behind

variable {n : Nat} {s t : Synchronizer (Recorded σ)}

theorem isSome_metrics (h : Behind n s) : s.pipeline.metrics.isSome := by
  obtain ⟨missed, -, hgauge⟩ := h.gauge
  unfold Pipeline.hashGauge at hgauge
  rw [← Option.isSome_map, hgauge]
  rfl

theorem aside (h : Behind n s) (more : Nat) (hview : t.hashView = s.hashView) :
    Behind (n + more) t := by
  obtain ⟨hgauge, hfrontier⟩ := Prod.mk.inj hview
  obtain ⟨missed, hmissed, hbehind⟩ := h.gauge
  refine ⟨by rw [hfrontier]; exact h.holds, missed, Nat.le_add_right_of_le hmissed, ?_⟩
  rw [hgauge, hfrontier]
  exact hbehind

/-- A single hash that finds room is missed. -/
theorem addHash (h : Behind n s) (k : BlockHash) : Behind (n + 1) (s.addHash k).2 := by
  obtain ⟨hs, hholds⟩ := h.holds
  rcases s.addHash_cases hholds k with ⟨-, hgauge, hnext⟩ | ⟨-, hview⟩
  · obtain ⟨missed, hmissed, hbehind⟩ := h.gauge
    refine ⟨⟨_, hnext⟩, missed + 1, Nat.succ_le_succ hmissed, ?_⟩
    rw [hgauge, hbehind, hnext.length_eq, hholds.length_eq, List.length_cons]
    congr 1
    omega
  · exact h.aside 1 hview

theorem call (h : Behind n s) (c : Call) :
    Behind (n + if Deed.isAddHash (σ := σ) (.call c) then 1 else 0) (s.call c) := by
  by_cases hc : ∃ k, c = .addHash k
  · obtain ⟨k, rfl⟩ := hc
    exact h.addHash k
  · cases s.update_hashes_call h.isSome_metrics fun k hk => hc ⟨k, hk⟩ with
    | set _ hgauge =>
      refine ⟨exists_holds_call h.holds c, 0, Nat.zero_le _, ?_⟩
      rw [Int.natCast_zero, Int.sub_zero]
      exact hgauge
    | left _ hsame => exact h.aside _ hsame

/-- **Each deed keeps the gauge as far behind**, or by one hash further. -/
theorem happen (h : Behind n s) (d : Deed σ) :
    Behind (n + if d.isAddHash then 1 else 0) (s.happen C d) := by
  rcases s.deed_cases C d with ⟨c, rfl⟩ | rfl | haside
  · exact h.call c
  · refine h.aside _ ?_
    rcases s.work_eq_or_move C.recorded with hrest | hmove
    · exact congrArg hashView hrest
    · exact congrArg (·, s.frontier) hmove.hashGauge
  · refine h.aside _ ?_
    unfold hashView Pipeline.hashGauge
    rw [haside.metrics, haside.frontier]

theorem of_start {settings : Settings} {canRun : Bool} {site : Site (Recorded σ)}
    (hfrontier : ∃ hs, site.frontier.Holds hs)
    (hgauge : site.pipeline.hashGauge = some (site.frontier.length : Int))
    (hstart : start settings canRun site = .ok s) : Behind 0 s := by
  obtain ⟨events, hpipeline⟩ := exists_pipeline_start hstart
  refine ⟨by rw [frontier_start hstart]; exact hfrontier, 0, Nat.le_refl 0, ?_⟩
  rw [hpipeline, frontier_start hstart, Int.natCast_zero, Int.sub_zero]
  exact hgauge

theorem after (h : Behind n s) (deeds : List (Deed σ)) :
    Behind (n + deeds.countP Deed.isAddHash) (s.after C deeds) :=
  after_counted Behind Deed.isAddHash (fun _ => True) (fun d _ h => h.happen d) deeds
    (fun _ _ => trivial) h

end Behind

/-! ## §2. Whole runs. -/

/-- **WHAT THE GAUGE OF PENDING HASHES SHOWS.**  It shows the count of hashes when a
synchronizer starts.  After any deeds it is behind the frontier by some of the hashes
that were announced singly, and by no others: a call that announces one adds it to the
frontier and does not set the gauge.  Every other call that changes the frontier does,
so the gauge shows the count of hashes after each of them, and all the time if no hash
is announced singly. -/
theorem hashGauge_after {settings : Settings} {canRun : Bool} {site : Site (Recorded σ)}
    {s₀ : Synchronizer (Recorded σ)} (hfrontier : ∃ hs, site.frontier.Holds hs)
    (hgauge : site.pipeline.hashGauge = some (site.frontier.length : Int))
    (hstart : start settings canRun site = .ok s₀) (deeds : List (Deed σ)) :
    let s := s₀.after C deeds
    s.frontier.Holds s.frontier.hashes
      ∧ (∃ missed ≤ deeds.countP Deed.isAddHash,
        s.pipeline.hashGauge = some ((s.frontier.hashes.length : Int) - missed))
      ∧ ((∀ d ∈ deeds, d.isAddHash = false) →
        s.pipeline.hashGauge = some (s.frontier.hashes.length : Int))
      ∧ (∀ k, (s.addHash k).1.isOk = true →
        (s.addHash k).2.pipeline.hashGauge = s.pipeline.hashGauge
          ∧ (s.addHash k).2.frontier.hashes = k :: s.frontier.hashes)
      ∧ ∀ c, s.SetsHashGauge c →
        (s.call c).pipeline.hashGauge = some ((s.call c).frontier.hashes.length : Int) := by
  intro s
  have hbehind : Behind (0 + deeds.countP Deed.isAddHash) s :=
    (Behind.of_start hfrontier hgauge hstart).after deeds
  rw [Nat.zero_add] at hbehind
  obtain ⟨hs, hholds⟩ := hbehind.holds
  obtain ⟨missed, hmissed, hshown⟩ := hbehind.gauge
  rw [hholds.length_eq] at hshown
  rw [hholds.hashes_eq]
  refine ⟨hholds, ⟨missed, hmissed, hshown⟩, fun hnone => ?_, fun k hok => ?_, fun c hc => ?_⟩
  · have hzero : deeds.countP Deed.isAddHash = 0 :=
      List.countP_eq_zero.mpr fun d hd => by simp [hnone d hd]
    obtain rfl : missed = 0 := by omega
    rw [hshown, Int.natCast_zero, Int.sub_zero]
  · rcases s.addHash_cases hholds k with ⟨-, hgauge, hnext⟩ | ⟨hrefused, -⟩
    · exact ⟨hgauge, hnext.hashes_eq⟩
    · rw [hrefused] at hok
      cases hok
  · -- the gauge is set to the length, and the length counts the hashes
    have hadd : ∀ k, c ≠ .addHash k := by
      rintro k rfl
      exact hc
    obtain ⟨hs', hholds'⟩ := exists_holds_call hbehind.holds c
    rw [hholds'.hashes_eq, ← hholds'.length_eq]
    cases s.update_hashes_call hbehind.isSome_metrics hadd with
    | set _ hset => exact hset
    | left hnot _ => exact absurd hc hnot

/-- One hash is announced, and the gauge shows none. -/
theorem hashGauge_announcedOnce :
    start ⟨1, 2, 5⟩ true metered.toSite = .ok metered
      ∧ (metered.addHash (.replicate 1)).1.isOk = true
      ∧ (metered.addHash (.replicate 1)).2.frontier.hashes.length = 1
      ∧ (metered.addHash (.replicate 1)).2.pipeline.hashGauge = some 0 :=
  ⟨rfl, by decide +kernel, by decide +kernel, by decide +kernel⟩

/-- The next hash that goes behind the others sets it right. -/
theorem hashGauge_after_announcedOnce :
    let s := metered.after ScriptedChain.chain [.call (.addHash (.replicate 1))]
    (∃ missed : Nat, missed ≤ 1
        ∧ s.pipeline.hashGauge = some ((s.frontier.hashes.length : Int) - missed))
      ∧ (s.addNewBlockHash (.replicate 2)).2.frontier.hashes.length = 2
      ∧ (s.addNewBlockHash (.replicate 2)).2.pipeline.hashGauge
        = some ((s.addNewBlockHash (.replicate 2)).2.frontier.hashes.length : Int) := by
  intro s
  have hfrontier : ∃ hs, metered.toSite.frontier.Holds hs := ⟨[], rfl⟩
  have hstart : start ⟨1, 2, 5⟩ true metered.toSite = .ok metered := rfl
  have hafter := hashGauge_after (C := ScriptedChain.chain) hfrontier rfl hstart
    [.call (.addHash (.replicate 1))]
  have hok : (s.addNewBlockHash (.replicate 2)).1.isOk = true := by decide +kernel
  exact ⟨hafter.2.1, by decide +kernel, hafter.2.2.2.2 (.addNewBlockHash (.replicate 2)) hok⟩

end BlockSync.Synchronizer
