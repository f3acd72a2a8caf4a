import Std.Data.ExtTreeSet
import PhraseIndex.Streams

/-!
# Update batches

The unit of ingestion: sentence pairs to add, domains to delete, and the stream positions that the index reaches once
the batch is committed. An update that the positions cover already is refused.
-/

namespace PhraseIndex

abbrev DomainSet := Std.ExtTreeSet Domain

structure UpdateBatch where
  /-- Bound on the number of additions; zero for none. -/
  capacity : Nat
  /-- The positions once the batch is applied. -/
  streams : Streams
  entries : List SentencePair := []
  deletions : DomainSet := ∅

namespace UpdateBatch

def size (b : UpdateBatch) : Nat := b.entries.length

def isFull (b : UpdateBatch) : Bool := 0 < b.capacity && b.capacity ≤ b.size

def isEmpty (b : UpdateBatch) : Bool := b.entries.isEmpty && b.deletions.isEmpty

/-- Queues a sentence pair without looking at its stream. -/
def push (b : UpdateBatch) (pair : SentencePair) : UpdateBatch := { b with entries := b.entries ++ [pair] }

/-- Marks a domain without looking at its stream. -/
def deleteDomain (b : UpdateBatch) (domain : Domain) : UpdateBatch :=
  { b with deletions := b.deletions.insert domain }

/-- Does what `change` does if the update is new, and tells whether it was. -/
def accept (b : UpdateBatch) (id : UpdateId) (change : UpdateBatch → UpdateBatch) : Bool × UpdateBatch :=
  if b.streams.covers id then (false, b) else (true, change { b with streams := b.streams.advance id })

def add (b : UpdateBatch) (id : UpdateId) (pair : SentencePair) : Bool × UpdateBatch := b.accept id (·.push pair)

def delete (b : UpdateBatch) (id : UpdateId) (domain : Domain) : Bool × UpdateBatch :=
  b.accept id (·.deleteDomain domain)

/-- Empties the batch and keeps the reached positions. -/
def clear (b : UpdateBatch) : UpdateBatch := { b with entries := [], deletions := ∅ }

/-! ## Sequences of calls -/

/-- A call on a batch. -/
inductive Item
  | add (id : UpdateId) (pair : SentencePair)
  | push (pair : SentencePair)
  | delete (id : UpdateId) (domain : Domain)
  | deleteDomain (domain : Domain)
  | clear
  deriving DecidableEq, Repr

/-- Makes one call; only calls that carry an update number answer. -/
def apply (b : UpdateBatch) : Item → Option Bool × UpdateBatch
  | .add id pair =>
    let (accepted, b) := b.add id pair
    (some accepted, b)
  | .push pair => (none, b.push pair)
  | .delete id domain =>
    let (accepted, b) := b.delete id domain
    (some accepted, b)
  | .deleteDomain domain => (none, b.deleteDomain domain)
  | .clear => (none, b.clear)

@[simp] theorem streams_clear (b : UpdateBatch) : b.clear.streams = b.streams := rfl

/-- A refused update changes nothing. -/
theorem accept_of_covers {b : UpdateBatch} {id : UpdateId} (h : b.streams.covers id = true)
    (change : UpdateBatch → UpdateBatch) : b.accept id change = (false, b) := by
  simp [accept, h]

end UpdateBatch

end PhraseIndex
