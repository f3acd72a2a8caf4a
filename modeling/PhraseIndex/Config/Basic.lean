import PhraseIndex.Decimal.Text
import PhraseIndex.Error

/-!
# Configuration

The settings of an index, their limits, and the tuning profile of the key-value engine that follows from them. The
sweep timeout is kept as the number of seconds that was asked for; `sweepTimeout?` is the duration, to the nearest
nanosecond, that it stands for.
-/

namespace PhraseIndex

structure Config where
  /-- Longest phrase that is indexed exactly. -/
  prefixLength : PrefixLength := 4
  /-- Seconds between background sweeps. -/
  sweepSeconds : Float := 120.0
  /-- Greatest number of keys that one commit of a sweep removes. -/
  sweepBatch : UInt64 := 10000
  /-- Writes go first; the manifest waits for a compaction. -/
  bulkLoad : Bool := false
  /-- Corpus files roll over past this size. -/
  maxFileSize : UInt64 := 536870912
  deriving DecidableEq

/-- A length of time; `nanoseconds` stays below one second. -/
structure Duration where
  seconds : Nat
  nanoseconds : Nat
  deriving DecidableEq, Repr

namespace Duration

def perSecond : Nat := 1000000000

/-- Carries whole seconds over; a duration has fewer than `2 ^ 64` of them. -/
def ofNanoseconds? (n : Nat) : Option Duration :=
  if n / perSecond < UInt64.size then some ⟨n / perSecond, n % perSecond⟩ else none

/-- Seconds as a floating-point number: the whole ones, and the rest divided by a billion. -/
def toFloat (d : Duration) : Float :=
  (UInt64.ofNat d.seconds).toFloat + (UInt64.ofNat d.nanoseconds).toFloat / 1000000000.0

/-- The duration nearest to this many seconds, a tie going to the even nanosecond. Negative numbers other than zero
have none, and neither have those of `2 ^ 64` seconds and more. -/
def ofFloat? (seconds : Float) : Option Duration :=
  match Decimal.ofFloat seconds with
  | .finite negative mantissa exponent =>
    if negative && mantissa != 0 then none
    else ofNanoseconds? (Decimal.roundDiv .even (mantissa * Nat.pow 2 exponent.toNat * perSecond)
      (Nat.pow 2 (-exponent).toNat))
  | _ => none

end Duration

/-- How the key-value engine is set up. -/
inductive Tuning
  /-- Write throughput first; the journal is persisted on request only. -/
  | bulkLoad
  /-- Bounded compaction for reads and writes at the same time. -/
  | steadyState
  deriving DecidableEq, Repr

namespace Tuning

def name : Tuning → String
  | bulkLoad => "BulkLoad"
  | steadyState => "SteadyState"

def mebibyte : Nat := 1024 * 1024

def maxMemtableSize : Tuning → Nat
  | bulkLoad => 256 * mebibyte
  | steadyState => 64 * mebibyte

/-- Number of tables in the first level that starts a compaction into the next. -/
def firstLevelThreshold : Tuning → Nat
  | bulkLoad => 64
  | steadyState => 8

def tableTargetSize : Tuning → Nat
  | bulkLoad => 256 * mebibyte
  | steadyState => 64 * mebibyte

/-- Size ratio between consecutive levels. -/
def levelRatio (_ : Tuning) : Nat := 8

def persistsJournalOnRequest (t : Tuning) : Bool := t == bulkLoad

end Tuning

namespace Config

def tuning (c : Config) : Tuning := if c.bulkLoad then .bulkLoad else .steadyState

/-- The duration between background sweeps, if the seconds stand for one. -/
def sweepTimeout? (c : Config) : Option Duration := Duration.ofFloat? c.sweepSeconds

/-- Sets the time between sweeps. -/
def withSweepTimeout (c : Config) (d : Duration) : Config := { c with sweepSeconds := d.toFloat }

def validate (c : Config) : Except Error Unit := do
  require (c.prefixLength != 0) .zeroPrefixLength
  require (c.sweepBatch != 0) .zeroSweepBatch
  require (c.sweepSeconds.isFinite && 0.0 < c.sweepSeconds) (.sweepTimeout c.sweepSeconds)
  require (1024 ≤ c.maxFileSize) (.maxFileSize c.maxFileSize)

end Config

end PhraseIndex
