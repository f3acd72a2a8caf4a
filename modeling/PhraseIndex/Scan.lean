import PhraseIndex.Store

/-!
# The full scan

A scan goes through the phrase records of the index in key order, as they were when it was made, and passes over records
of other kinds. A record that cannot be decoded shows as an error, and the scan goes on behind it.
-/

namespace PhraseIndex

/-- A decoded phrase record. -/
inductive IndexEntry
  | source (phrase : Phrase) (domain : Domain) (postings : List Posting)
  | target (phrase : Phrase) (count : Int64)
  deriving DecidableEq, Repr

namespace IndexEntry

def isSource : IndexEntry → Bool
  | source .. => true
  | target .. => false

def domain? : IndexEntry → Option Domain
  | source _ domain _ => some domain
  | target .. => none

def phrase : IndexEntry → Phrase
  | source phrase .. => phrase
  | target phrase _ => phrase

/-- The postings of a source record; a count has none. -/
def postings : IndexEntry → List Posting
  | source _ _ postings => postings
  | target .. => []

def count : IndexEntry → Int64
  | source _ _ postings => Int64.ofNat postings.length
  | target _ count => count

/-- Decodes a record; nothing if it is not a phrase record. -/
def decode? (limit : PrefixLength) (key value : Bytes) : Option (Except Error IndexEntry) :=
  match Key.kindOf? key with
  | some .source => some do
    let postings ← PostingList.decode value
    let domain ← Key.domainOf limit key
    let phrase ← Key.phraseOf limit key
    pure (source phrase domain postings)
  | some .target => some do
    let phrase ← Key.phraseOf limit key
    let count ← Count.decode value
    pure (target phrase count)
  | _ => none

end IndexEntry

structure Scan where
  prefixLength : PrefixLength
  /-- Records still to come. -/
  rest : List (Bytes × Bytes)
  deriving DecidableEq, Repr

namespace Scan

/-- A scan over the records that are there now. -/
def create (s : Store) (prefixLength : PrefixLength) : Scan := { prefixLength, rest := s.toList }

/-- Goes back before the first of the records that are there now. -/
def restart (c : Scan) (s : Store) : Scan := create s c.prefixLength

/-- What the rest of the scan shows. -/
def entries (c : Scan) : List (Except Error IndexEntry) :=
  c.rest.filterMap fun (key, value) => IndexEntry.decode? c.prefixLength key value

/-- The next phrase record among these, and what follows it. -/
def nextOf (limit : PrefixLength) :
    List (Bytes × Bytes) → Option (Except Error IndexEntry) × List (Bytes × Bytes)
  | [] => (none, [])
  | (key, value) :: rest =>
    match IndexEntry.decode? limit key value with
    | some entry => (some entry, rest)
    | none => nextOf limit rest

/-- The next phrase record, none at the end. -/
def next (c : Scan) : Option (Except Error IndexEntry) × Scan :=
  let (entry, rest) := nextOf c.prefixLength c.rest
  (entry, { c with rest })

/-- Takes all that is left. -/
def drain (c : Scan) : List (Except Error IndexEntry) × Scan := (c.entries, { c with rest := [] })

/-- A step shows the first of what is left and leaves the others. -/
theorem entries_next (c : Scan) : c.entries = c.next.1.toList ++ c.next.2.entries := by
  obtain ⟨limit, rest⟩ := c
  induction rest with
  | nil => rfl
  | cons r rs ih =>
    obtain ⟨key, value⟩ := r
    cases h : IndexEntry.decode? limit key value with
    | some entry => simp [entries, next, nextOf, h]
    | none =>
      simp only [entries, next, nextOf, h, List.filterMap_cons] at ih ⊢
      exact ih

end Scan

end PhraseIndex
