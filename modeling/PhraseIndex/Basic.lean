/-!
# Corpus vocabulary

A phrase index is built over a bilingual corpus. A `SentencePair` belongs to a `Domain`, the unit of deletion, and its
source is searched by phrases, sequences of words. Updates arrive on numbered streams; an `UpdateId` names one.
-/

namespace PhraseIndex

/-- Deletable part of the corpus. -/
abbrev Domain := UInt32

/-- Token of a sentence. -/
abbrev Word := UInt32

/-- Position in a sentence. -/
abbrev Position := UInt16

/-- Channel on which updates arrive. -/
abbrev StreamId := UInt16

/-- Number of an update on its stream. -/
abbrev SeqNo := Int64

/-- Place of a sentence pair in the corpus, counted in bytes over all its files. -/
abbrev Offset := Int64

abbrev Sentence := List Word

abbrev Phrase := List Word

/-- Longest phrase that is indexed exactly. -/
abbrev PrefixLength := UInt8

/-- A link between a source and a target position. -/
structure AlignmentPoint where
  source : Position
  target : Position
  deriving DecidableEq, Repr, Inhabited

abbrev Alignment := List AlignmentPoint

structure SentencePair where
  domain : Domain
  source : Sentence
  target : Sentence
  alignment : Alignment
  deriving DecidableEq, Repr, Inhabited

structure UpdateId where
  stream : StreamId
  seq : SeqNo
  deriving DecidableEq, Repr, Inhabited

/-- An update is written as its stream and number with a colon between. -/
def UpdateId.text (id : UpdateId) : String :=
  toString id.stream ++ ":" ++ toString id.seq

/-- The part of a sentence at `start`, if the sentence reaches that far. -/
def Sentence.slice? (s : Sentence) (start length : Nat) : Option Phrase :=
  if start + length ≤ s.length then some ((s.drop start).take length) else none

/-- The words of the phrase follow each other from position `start` on. -/
def Sentence.hasAt (s : Sentence) (phrase : Phrase) (start : Nat) : Bool := phrase.isPrefixOf (s.drop start)

/-- Every position at which the phrase occurs, overlapping occurrences included. -/
def Sentence.occurrences (s : Sentence) (phrase : Phrase) : List Nat :=
  (List.range (s.length + 1)).filter (s.hasAt phrase)

/-- Release of the program. -/
def version : String := "0.1.0"

end PhraseIndex
