/-!
# Metrics

Counters, gauges and histograms of one index. Values are floating-point numbers, as the exposition format has them.
-/

namespace PhraseIndex

/-- Observations counted by the bounds they stay within. -/
structure Histogram where
  bounds : List Float
  /-- For each bound the observations that it is the first to hold. -/
  buckets : List Nat
  count : Nat := 0
  sum : Float := 0.0

namespace Histogram

def ofBounds (bounds : List Float) : Histogram := { bounds, buckets := bounds.map fun _ => 0 }

/-- Adds one to the bucket of the first bound that `x` does not pass. -/
def place (x : Float) : List Float → List Nat → List Nat
  | b :: bounds, n :: buckets => if x ≤ b then (n + 1) :: buckets else n :: place x bounds buckets
  | _, buckets => buckets

def observe (h : Histogram) (x : Float) : Histogram :=
  { h with buckets := place x h.bounds h.buckets, count := h.count + 1, sum := h.sum + x }

/-- For each bound the number of observations that stay within it. -/
def cumulative (h : Histogram) : List (Float × Nat) :=
  h.bounds.zip ((h.buckets.foldl (fun (sums, total) n => (sums ++ [total + n], total + n)) (([] : List Nat), 0)).1)

end Histogram

/-- The two sides of a sentence pair. -/
inductive Side
  | source
  | target
  deriving DecidableEq, Repr

def Side.name : Side → String
  | source => "source"
  | target => "target"

structure Metrics where
  batchesCommitted : Float := 0.0
  batchErrors : Float := 0.0
  sentencesAppended : Float := 0.0
  fragmentsMerged : Float := 0.0
  domainsDeleted : Float := 0.0
  /-- Queries on a side; nothing before the first one. -/
  sourceQueries : Option Float := none
  targetQueries : Option Float := none
  keysSwept : Float := 0.0
  indexBytes : Float := 0.0
  storageBytes : Float := 0.0
  commitLatency : Histogram := .ofBounds [0.001, 0.005, 0.01, 0.025, 0.05, 0.1, 0.25, 0.5, 1.0, 5.0]
  batchSize : Histogram := .ofBounds [1.0, 10.0, 100.0, 1000.0, 10000.0, 100000.0]

namespace Metrics

def amount (n : Nat) : Float := (UInt64.ofNat n).toFloat

/-- A committed batch. -/
def recordBatch (m : Metrics) (sentences fragments deletions : Nat) (seconds : Float) : Metrics :=
  { m with
    batchesCommitted := m.batchesCommitted + 1.0
    sentencesAppended := m.sentencesAppended + amount sentences
    fragmentsMerged := m.fragmentsMerged + amount fragments
    domainsDeleted := m.domainsDeleted + amount deletions
    batchSize := m.batchSize.observe (amount sentences)
    commitLatency := m.commitLatency.observe seconds }

/-- A batch that could not be committed. -/
def recordBatchError (m : Metrics) : Metrics := { m with batchErrors := m.batchErrors + 1.0 }

def recordCount (m : Metrics) (side : Side) : Metrics :=
  let more (queries : Option Float) : Option Float := some (queries.getD 0.0 + 1.0)
  match side with
  | .source => { m with sourceQueries := more m.sourceQueries }
  | .target => { m with targetQueries := more m.targetQueries }

def recordSweep (m : Metrics) (keys : Nat) : Metrics := { m with keysSwept := m.keysSwept + amount keys }

def setSizes (m : Metrics) (index storage : Nat) : Metrics :=
  { m with indexBytes := amount index, storageBytes := amount storage }

end Metrics

end PhraseIndex
