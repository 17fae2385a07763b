/-
  BlockSync.Metrics.Registry
  ──────────────────────────
  **WHAT IS COUNTED AND MEASURED.**

  Two gauges hold the sizes of the frontier and of the block queue.  Import
  attempts are counted by outcome, or as failures, and their durations in
  seconds go into a histogram.
-/
import BlockSync.Chain.Outcome

namespace BlockSync

/-! ## §1. Durations. -/

/-- The durations observed so far: how many fell first under each bound, their
sum and their count. -/
structure Durations where
  perBound : List Nat
  sum : Float
  count : Nat

namespace Durations

/-- The upper bounds of the histogram, in seconds. -/
def bounds : List Float := [0.005, 0.01, 0.025, 0.05, 0.1, 1.0]

/-- No duration yet. -/
def empty : Durations := ⟨bounds.map fun _ => 0, 0.0, 0⟩

/-- One more under the first bound that a duration does not exceed, if any. -/
def place (seconds : Float) : List Float → List Nat → List Nat
  | bound :: bounds, n :: ns =>
    if seconds ≤ bound then (n + 1) :: ns else n :: place seconds bounds ns
  | _, ns => ns

/-- One more duration. -/
def observe (d : Durations) (seconds : Float) : Durations :=
  ⟨place seconds bounds d.perBound, d.sum + seconds, d.count + 1⟩

/-- How many durations do not exceed each bound. -/
def cumulative (d : Durations) : List Nat :=
  go 0 d.perBound
where
  go (below : Nat) : List Nat → List Nat
    | [] => []
    | n :: ns => (below + n) :: go (below + n) ns

end Durations

/-! ## §2. Counters by label. -/

/-- Counters by label, in ascending order of the labels. -/
structure LabelCounts where
  counts : List (String × Nat)

namespace LabelCounts

/-- No label yet. -/
def empty : LabelCounts := ⟨[]⟩

/-- The count of a label. -/
def count (c : LabelCounts) (label : String) : Nat :=
  (c.counts.find? fun e => e.1 = label).elim 0 Prod.snd

/-- One more of a label. -/
def increment (c : LabelCounts) (label : String) : LabelCounts :=
  ⟨go c.counts⟩
where
  go : List (String × Nat) → List (String × Nat)
    | [] => [(label, 1)]
    | (l, n) :: rest =>
      if l = label then (l, n + 1) :: rest
      else if label < l then (label, 1) :: (l, n) :: rest
      else (l, n) :: go rest

end LabelCounts

/-! ## §3. The registry. -/

/-- The metrics of one process. -/
structure Metrics where
  hashesPending : Int
  blocksPending : Int
  outcomes : LabelCounts
  failures : Nat
  /-- The durations, once there is one. -/
  durations : Option Durations

namespace Metrics

/-- Fresh metrics. -/
def fresh : Metrics := ⟨0, 0, .empty, 0, none⟩

instance : Inhabited Metrics := ⟨fresh⟩

/-- Set the gauge of pending hashes. -/
def setHashesPending (m : Metrics) (n : Int) : Metrics := { m with hashesPending := n }

/-- Set the gauge of pending blocks. -/
def setBlocksPending (m : Metrics) (n : Int) : Metrics := { m with blocksPending := n }

/-- Count an attempt that completed, by its outcome. -/
def countOutcome (m : Metrics) (label : String) : Metrics :=
  { m with outcomes := m.outcomes.increment label }

/-- Count an attempt that failed or crashed. -/
def countFailure (m : Metrics) : Metrics := { m with failures := m.failures + 1 }

/-- Record how long an attempt took. -/
def observe (m : Metrics) (seconds : Float) : Metrics :=
  { m with durations := some ((m.durations.getD .empty).observe seconds) }

/-- How many durations were recorded. -/
def observations (m : Metrics) : Nat := m.durations.elim 0 Durations.count

end Metrics
end BlockSync
