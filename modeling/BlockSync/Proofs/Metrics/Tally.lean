/-
  BlockSync.Proofs.Metrics.Tally
  ──────────────────────────────
  **WHAT THE COUNTERS OF ATTEMPTS SAY.**

  An attempt to import a block leaves three traces: how long it took, and either its
  outcome or a failure.  `Metrics.tally` is what of the metrics they go into, and
  `Tally.attempt` what one attempt does to it.

  The invariant is `Tallied`: the counters agree with a list of attempts, one by one
  for each label.  It gives the sums:

      Tallied.observations_eq_sum   the durations are as many as the outcomes, of all
                                    four kinds, and the failures together

  Labels are kept in ascending order, so that no label has two counters; only for this
  reason is one more of a label one more in its counter (`count_increment`).
-/
import BlockSync.Block
import BlockSync.Metrics.Registry
import Mathlib.Algebra.GroupWithZero.Nat
import Mathlib.Data.String.Basic

namespace BlockSync

/-! ## §1. Counters by label. -/

namespace LabelCounts

/-- The labels ascend. -/
def Sorted (c : LabelCounts) : Prop := c.counts.Pairwise fun a b => a.1 < b.1

/-- No label is new but the one that is counted. -/
theorem mem_increment_go {label : String} {e : String × Nat} {es : List (String × Nat)}
    (h : e ∈ increment.go label es) : e.1 = label ∨ ∃ d ∈ es, d.1 = e.1 := by
  induction es with
  | nil =>
    left
    rw [List.mem_singleton.mp h]
  | cons d ds ih =>
    obtain ⟨l, n⟩ := d
    unfold increment.go at h
    split at h
    · next heq =>
      rcases List.mem_cons.mp h with rfl | htail
      · exact Or.inl heq
      · exact Or.inr ⟨e, List.mem_cons_of_mem _ htail, rfl⟩
    · split at h
      · rcases List.mem_cons.mp h with rfl | hold
        · exact Or.inl rfl
        · exact Or.inr ⟨e, hold, rfl⟩
      · rcases List.mem_cons.mp h with rfl | htail
        · exact Or.inr ⟨(l, n), List.mem_cons_self, rfl⟩
        · rcases ih htail with heq | ⟨d, hd, heq⟩
          · exact Or.inl heq
          · exact Or.inr ⟨d, List.mem_cons_of_mem _ hd, heq⟩

theorem mem_increment {c : LabelCounts} {label : String} {e : String × Nat}
    (h : e ∈ (c.increment label).counts) : e.1 = label ∨ ∃ d ∈ c.counts, d.1 = e.1 :=
  mem_increment_go h

theorem sorted_increment_go (label : String) {es : List (String × Nat)}
    (h : es.Pairwise fun a b => a.1 < b.1) :
    (increment.go label es).Pairwise fun a b => a.1 < b.1 := by
  induction es with
  | nil => exact List.pairwise_singleton _ _
  | cons d ds ih =>
    obtain ⟨l, n⟩ := d
    obtain ⟨hfirst, hrest⟩ := List.pairwise_cons.mp h
    unfold increment.go
    split
    · exact List.pairwise_cons.mpr ⟨hfirst, hrest⟩
    · next hne =>
      split
      · next hlt =>
        -- the new label is the least of all
        refine List.pairwise_cons.mpr ⟨fun e he => ?_, h⟩
        rcases List.mem_cons.mp he with rfl | he
        · exact hlt
        · exact lt_trans hlt (hfirst e he)
      · next hge =>
        refine List.pairwise_cons.mpr ⟨fun e he => ?_, ih hrest⟩
        rcases mem_increment_go he with heq | ⟨d, hd, heq⟩
        · rw [heq]
          exact lt_of_le_of_ne (not_lt.mp hge) hne
        · rw [← heq]
          exact hfirst d hd

theorem sorted_increment {c : LabelCounts} (h : c.Sorted) (label : String) :
    (c.increment label).Sorted :=
  sorted_increment_go label h

theorem count_cons (l other : String) (n : Nat) (es : List (String × Nat)) :
    count ⟨(l, n) :: es⟩ other = if l = other then n else count ⟨es⟩ other := by
  unfold count
  by_cases h : l = other
  · simp [h]
  · simp [h]

/-- A label below all others has not been counted yet. -/
theorem count_eq_zero {label : String} {es : List (String × Nat)}
    (h : ∀ e ∈ es, label < e.1) : count ⟨es⟩ label = 0 := by
  induction es with
  | nil => rfl
  | cons d ds ih =>
    obtain ⟨l, n⟩ := d
    have hlt : label < l := h (l, n) List.mem_cons_self
    rw [count_cons, if_neg hlt.ne', ih fun e he => h e (List.mem_cons_of_mem _ he)]

/-- **One more of a label** is one more in its counter, and none in any other. -/
theorem count_increment {c : LabelCounts} (h : c.Sorted) (label other : String) :
    (c.increment label).count other = c.count other + if label = other then 1 else 0 := by
  obtain ⟨es⟩ := c
  show count ⟨increment.go label es⟩ other = _
  change es.Pairwise _ at h
  induction es with
  | nil =>
    unfold increment.go
    rw [count_cons]
    simp [count]
  | cons d ds ih =>
    obtain ⟨l, n⟩ := d
    obtain ⟨hfirst, hrest⟩ := List.pairwise_cons.mp h
    unfold increment.go
    split
    · next heq =>
      subst heq
      rw [count_cons, count_cons]
      by_cases hl : l = other
      · simp [hl]
      · simp [hl]
    · next hne =>
      split
      · next hlt =>
        -- no counter further on has the new label, for they ascend
        have hzero : count ⟨(l, n) :: ds⟩ label = 0 := by
          refine count_eq_zero fun e he => ?_
          rcases List.mem_cons.mp he with rfl | he
          · exact hlt
          · exact lt_trans hlt (hfirst e he)
        rw [count_cons label]
        by_cases hl : label = other
        · subst hl
          simp [hzero]
        · simp [hl]
      · rw [count_cons, count_cons, ih hrest]
        by_cases hl : l = other
        · subst hl
          simp [Ne.symm hne]
        · simp [hl]

end LabelCounts

/-! ## §2. The tally of attempts. -/

/-- The metrics that attempts to import a block go into. -/
structure Tally where
  outcomes : LabelCounts
  failures : Nat
  durations : Option Durations

/-- What of the metrics is about attempts. -/
def Metrics.tally (m : Metrics) : Tally := ⟨m.outcomes, m.failures, m.durations⟩

namespace Tally

/-- One attempt more, that took some seconds. -/
def attempt (t : Tally) (seconds : Float) (v : Verdict) : Tally :=
  let durations := some ((t.durations.getD .empty).observe seconds)
  match v with
  | .outcome o => ⟨t.outcomes.increment o.name, t.failures, durations⟩
  | _ => ⟨t.outcomes, t.failures + 1, durations⟩

/-- How many durations were recorded. -/
def observations (t : Tally) : Nat := t.durations.elim 0 Durations.count

theorem observations_attempt (t : Tally) (seconds : Float) (v : Verdict) :
    (t.attempt seconds v).observations = t.observations + 1 := by
  have hcount : ((t.durations.getD .empty).observe seconds).count = t.observations + 1 := by
    unfold observations
    cases t.durations with
    | none => rfl
    | some d => rfl
  cases v with
  | _ => exact hcount

end Tally

/-- The tally agrees with a list of attempts. -/
structure Tallied (t : Tally) (es : List (Block × Verdict)) : Prop where
  sorted : t.outcomes.Sorted
  outcomes : ∀ o : Outcome, t.outcomes.count o.name = es.countP fun e => e.2 = .outcome o
  labels : ∀ e ∈ t.outcomes.counts, ∃ o : Outcome, e.1 = o.name
  failures : t.failures = es.countP fun e => e.2.outcome? = none
  observations : t.observations = es.length

/-- Each attempt has one of the four outcomes, or none. -/
theorem sum_countP_outcome (es : List (Block × Verdict)) :
    (Outcome.all.map fun o => es.countP fun e => e.2 = .outcome o).sum
      + es.countP (fun e => e.2.outcome? = none) = es.length := by
  induction es with
  | nil => rfl
  | cons e es ih =>
    obtain ⟨b, v⟩ := e
    simp only [Outcome.all, List.map_cons, List.map_nil, List.sum_cons, List.sum_nil,
      List.countP_cons, List.length_cons] at ih ⊢
    cases v with
    | outcome o =>
      cases o with
      | _ => simp [Verdict.outcome?] at ih ⊢; omega
    | _ => simp [Verdict.outcome?] at ih ⊢; omega

namespace Tallied

variable {t : Tally} {es : List (Block × Verdict)}

theorem fresh : Tallied Metrics.fresh.tally [] where
  sorted := List.Pairwise.nil
  outcomes _ := rfl
  labels e he := by cases he
  failures := rfl
  observations := rfl

theorem name_inj {o o' : Outcome} (h : o.name = o'.name) : o = o' := by
  cases o with
  | _ => cases o' with
    | _ => first | rfl | simp [Outcome.name] at h

/-- **One attempt more** is counted where it belongs, and nowhere else. -/
theorem attempt (h : Tallied t es) (b : Block) (seconds : Float) (v : Verdict) :
    Tallied (t.attempt seconds v) (es ++ [(b, v)]) := by
  have hobserved : (t.attempt seconds v).observations = (es ++ [(b, v)]).length := by
    rw [t.observations_attempt, h.observations, List.length_append, List.length_singleton]
  cases v with
  | outcome o =>
    refine ⟨LabelCounts.sorted_increment h.sorted o.name, fun o' => ?_, fun e he => ?_, ?_,
      hobserved⟩
    · show (t.outcomes.increment o.name).count o'.name = _
      rw [LabelCounts.count_increment h.sorted, h.outcomes o', List.countP_append]
      by_cases ho : o = o'
      · simp [ho]
      · have hname : o.name ≠ o'.name := fun heq => ho (name_inj heq)
        simp [ho, hname]
    · rcases LabelCounts.mem_increment he with heq | ⟨d, hd, heq⟩
      · exact ⟨o, heq⟩
      · rw [← heq]
        exact h.labels d hd
    · show t.failures = _
      rw [h.failures, List.countP_append]
      simp [Verdict.outcome?]
  | _ =>
    -- no outcome is counted
    refine ⟨h.sorted, fun o => ?_, h.labels, ?_, hobserved⟩
    · show t.outcomes.count o.name = _
      rw [h.outcomes o, List.countP_append]
      simp
    · show t.failures + 1 = _
      rw [h.failures, List.countP_append]
      simp [Verdict.outcome?]

/-- **The counters add up to the durations.** -/
theorem observations_eq_sum (h : Tallied t es) :
    t.observations = (Outcome.all.map fun o => t.outcomes.count o.name).sum + t.failures := by
  have hsum := sum_countP_outcome es
  rw [h.observations, h.failures, ← hsum]
  simp only [h.outcomes]

end Tallied
end BlockSync
