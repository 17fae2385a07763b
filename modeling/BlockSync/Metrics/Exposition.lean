/-
  BlockSync.Metrics.Exposition
  ────────────────────────────
  **METRICS AS LINES OF TEXT.**

  Each family of samples is introduced by a line of help and a line with its
  type; each sample is a line with its name, its labels and its value.  Families
  come in the order of their names, and a family that has no sample yet is left
  out.  Counts and gauges are written as 64-bit floats.
-/
import BlockSync.Decimal.Shortest
import BlockSync.Metrics.Registry

namespace BlockSync.Exposition

/-! ## §1. Samples and families. -/

/-- One measured value. -/
structure Sample where
  suffix : String
  labels : List (String × String)
  value : String

/-- The samples of one name. -/
structure Family where
  name : String
  help : String
  type : String
  samples : List Sample

/-- A label's value between its quotes. -/
def escape (s : String) : String :=
  String.ofList (s.toList.flatMap fun c =>
    if c = '\\' then ['\\', '\\']
    else if c = '"' then ['\\', '"']
    else if c = '\n' then ['\\', 'n']
    else [c])

/-- The labels of a sample in braces, or nothing. -/
def labelText (labels : List (String × String)) : String :=
  if labels.isEmpty then ""
  else "\x7b" ++ ",".intercalate (labels.map fun (k, v) => k ++ "=\"" ++ escape v ++ "\"") ++ "\x7d"

/-- The lines of a family. -/
def Family.lines (f : Family) : List String :=
  if f.samples.isEmpty then []
  else ("# HELP " ++ f.name ++ " " ++ f.help) :: ("# TYPE " ++ f.name ++ " " ++ f.type)
    :: f.samples.map fun s => f.name ++ s.suffix ++ labelText s.labels ++ " " ++ s.value

/-! ## §2. The families of the program. -/

/-- A count as a float. -/
def ofCount (n : Nat) : String := Decimal.text (Float.ofNat n)

/-- A gauge as a float. -/
def ofGauge (n : Int) : String := Decimal.text (Int64.ofInt n).toFloat

/-- The size of the block queue. -/
def blocksPending (m : Metrics) : Family where
  name := "block_queue_blocks_pending"
  help := "Number of downloaded blocks waiting for import"
  type := "gauge"
  samples := [⟨"", [], ofGauge m.blocksPending⟩]

/-- The size of the frontier. -/
def hashesPending (m : Metrics) : Family where
  name := "block_queue_hashes_pending"
  help := "Number of block hashes waiting to be fetched"
  type := "gauge"
  samples := [⟨"", [], ofGauge m.hashesPending⟩]

/-- The attempts that failed or crashed. -/
def failures (m : Metrics) : Family where
  name := "block_queue_import_failures_total"
  help := "Total number of block imports that errored or panicked"
  type := "counter"
  samples := [⟨"", [], ofCount m.failures⟩]

/-- The attempts that completed, by outcome. -/
def outcomes (m : Metrics) : Family where
  name := "block_queue_import_outcomes_total"
  help := "Total number of block imports by outcome"
  type := "counter"
  samples := m.outcomes.counts.map fun (label, n) => ⟨"", [("outcome", label)], ofCount n⟩

/-- The samples of a histogram: cumulative counts by bound, the sum and the count. -/
def durationSamples (d : Durations) : List Sample :=
  (Durations.bounds.zip d.cumulative).map (fun (bound, n) =>
      ⟨"_bucket", [("le", Decimal.text bound)], ofCount n⟩)
    ++ [⟨"_bucket", [("le", "+Inf")], ofCount d.count⟩,
      ⟨"_sum", [], Decimal.text d.sum⟩, ⟨"_count", [], ofCount d.count⟩]

/-- The durations of attempts. -/
def durations (m : Metrics) : Family where
  name := "block_queue_import_time_seconds"
  help := "Time taken to import a block"
  type := "histogram"
  samples := m.durations.elim [] durationSamples

/-- **The lines of all metrics.** -/
def lines (m : Metrics) : List String :=
  [blocksPending m, hashesPending m, failures m, outcomes m, durations m].flatMap Family.lines

end BlockSync.Exposition
