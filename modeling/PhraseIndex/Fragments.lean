import Std.Data.ExtTreeMap
import PhraseIndex.Count
import PhraseIndex.Key
import PhraseIndex.Posting

/-!
# What a sentence adds to the index

Every stretch of a sentence that is no longer than the prefix length is a phrase of the index (`windows`). The source
side gives a posting under the phrase and the domain, the target side one more occurrence of the phrase. `Fragments`
collects both for a batch, so that the index is asked for one merge per key.
-/

namespace PhraseIndex

namespace Sentence

/-- The phrases of up to `limit` words at the front of a sentence, the shorter ones first. -/
def heads (limit : Nat) (s : Sentence) : List Phrase :=
  (List.range (s.take limit).length).map fun i => s.take (i + 1)

/-- The phrases at each position of a sentence whose first word has the number `start`. -/
def windowsFrom (limit : Nat) : Nat → Sentence → List (Nat × Phrase)
  | _, [] => []
  | start, s@(_ :: rest) => (heads limit s).map (start, ·) ++ windowsFrom limit (start + 1) rest

/-- The phrases of up to `limit` words, each with the position at which it starts. -/
def windows (limit : Nat) (s : Sentence) : List (Nat × Phrase) := s.windowsFrom limit 0

/-- Goes through the phrases without making a list of them. -/
def foldWindows (limit : Nat) (f : β → Nat → Phrase → β) : Nat → Sentence → β → β
  | _, [], acc => acc
  | start, s@(_ :: rest), acc => foldWindows limit f (start + 1) rest ((heads limit s).foldl (f · start) acc)

theorem foldWindows_eq (limit : Nat) (f : β → Nat → Phrase → β) (start : Nat) (s : Sentence) (acc : β) :
    foldWindows limit f start s acc = (windowsFrom limit start s).foldl (fun acc w => f acc w.1 w.2) acc := by
  induction s generalizing start acc with
  | nil => rfl
  | cons w rest ih => simp [foldWindows, windowsFrom, ih, List.foldl_map]

end Sentence

/-- What a batch merges into the index. -/
structure Fragments where
  /-- Postings by source key, the latest first. -/
  postings : Std.ExtTreeMap Bytes (List Posting) := ∅
  /-- Occurrences by target key. -/
  occurrences : Std.ExtTreeMap Bytes Nat := ∅

namespace Fragments

def addPosting (f : Fragments) (key : Bytes) (p : Posting) : Fragments :=
  { f with postings := f.postings.alter key fun ps => some (p :: ps.getD []) }

def addOccurrence (f : Fragments) (key : Bytes) : Fragments :=
  { f with occurrences := f.occurrences.alter key fun n => some (n.getD 0 + 1) }

/-- Adds the phrases of a sentence pair that is stored at `offset`. -/
def addPair (limit : PrefixLength) (f : Fragments) (pair : SentencePair) (offset : Offset) : Fragments :=
  let posting (f : Fragments) (start : Nat) (phrase : Phrase) : Fragments :=
    f.addPosting (Key.source phrase pair.domain).encode ⟨pair.domain, offset, UInt16.ofNat start⟩
  let occurrence (f : Fragments) (_ : Nat) (phrase : Phrase) : Fragments := f.addOccurrence (Key.target phrase).encode
  pair.target.foldWindows limit.toNat occurrence 0 (pair.source.foldWindows limit.toNat posting 0 f)

/-- What the pairs add that are stored at these offsets. -/
def ofPairs (limit : PrefixLength) (pairs : List (SentencePair × Offset)) : Fragments :=
  pairs.foldl (fun f (pair, offset) => f.addPair limit pair offset) {}

/-- Number of posting lists. -/
def size (f : Fragments) : Nat := f.postings.size

/-- One operand for each key. -/
def merges (f : Fragments) : List (Bytes × Bytes) :=
  f.postings.toList.map (fun (key, ps) => (key, (PostingList.ofList ps.reverse).bytes)) ++
    f.occurrences.toList.map fun (key, n) => (key, Count.encode (Int64.ofNat n))

end Fragments

end PhraseIndex
