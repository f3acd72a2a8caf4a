import PhraseIndex.Corpus.Log
import PhraseIndex.Cursor
import PhraseIndex.Sampling.Context
import PhraseIndex.Sweep

/-!
# Sampling sentence pairs

A `Sampler` collects the sentence pairs that hold a phrase, which is given piece by piece. The domains of the context
are searched first, one after the other; then, if the search goes to the background or there is no context, all other
domains together. Domains that carried a deletion marker when the sampler was made are left out. Of a phrase longer
than the prefix length the index knows only the leading words, so every sentence is checked against the whole phrase.
-/

namespace PhraseIndex

/-- A sentence pair with every position of the phrase in its source. -/
structure Sample where
  pair : SentencePair
  offsets : List Position
  deriving DecidableEq, Repr

/-- A sentence that may hold the phrase, and the positions at which the index has its leading words. -/
abbrev Candidate := Offset × List Position

/-- A way to reorder candidates before some of them are picked. -/
structure Shuffle where
  order : List Candidate → List Candidate
  perm : ∀ cs, (order cs).Perm cs

/-- Leaves the candidates as they are. -/
def Shuffle.none : Shuffle := ⟨id, fun _ => .refl _⟩

/-- How many more samples are wanted; `none` for all there are. -/
abbrev Budget := Option Nat

namespace Budget

/-- A limit of zero is no limit. -/
def ofLimit (limit : Nat) : Budget := if limit == 0 then none else some limit

def isSpent (b : Budget) : Bool := b == some 0

def spend (b : Budget) (n : Nat) : Budget := b.map (· - n)

/-- There are more candidates than may be taken. -/
def isShort (b : Budget) (n : Nat) : Bool :=
  match b with
  | none => false
  | some left => left < n

end Budget

structure Sampler where
  prefixLength : PrefixLength
  /-- Context domains in search order, without deleted ones. -/
  context : List Domain
  /-- A context was given, if only of deleted domains. -/
  hasContext : Bool
  /-- The search goes on to other domains. -/
  background : Bool
  deleted : DomainSet
  phrase : Phrase := []

namespace Sampler

/-- A sampler over the domains that are not marked for deletion now. -/
def create (s : Store) (prefixLength : PrefixLength) (context : Context) (background : Bool) :
    Except Error Sampler := do
  let deleted ← Sweeper.markedDomains prefixLength s
  let context := context.searchOrder
  pure
    { prefixLength
      context := context.filter fun domain => !deleted.contains domain
      hasContext := !context.isEmpty
      background
      deleted }

/-- Forgets the phrase. -/
def reset (w : Sampler) : Sampler := { w with phrase := [] }

/-! ## Candidates -/

/-- Positions by sentence, both in increasing order and without repetition. -/
def group (ps : List Posting) : List Candidate :=
  let starts : Std.ExtTreeMap Offset (Std.ExtTreeSet Position) :=
    ps.foldl (fun m p => m.alter p.offset fun set => some ((set.getD ∅).insert p.start)) ∅
  starts.toList.map fun (offset, set) => (offset, set.toList)

/-- The sentences that the index has for the phrase, in one domain or in the accepted ones. -/
def candidates (w : Sampler) (s : Store) (domain : Option Domain) (accept : Domain → Bool) :
    Except Error (List Candidate) := do
  let cursor : Cursor := { prefixLength := w.prefixLength, domain }
  let postings ← ((cursor.seek s w.phrase).foldEntries s (fun out entry =>
    if w.deleted.contains entry.domain || !accept entry.domain then .ok out
    else do pure (out ++ (← PostingList.decode entry.value))) []).1
  pure (group postings)

/-! ## Samples -/

/-- The sample of a candidate, if its sentence does hold the phrase. -/
def verify (phrase : Phrase) (pair : SentencePair) (starts : List Position) : Option Sample :=
  let offsets := starts.filter fun start => pair.source.hasAt phrase start.toNat
  if offsets.isEmpty then none else some { pair, offsets }

/-- The samples of the candidates, in order, while the budget lasts. -/
def collect (corpus : Corpus) (disk : Disk) (phrase : Phrase) :
    Budget → List Candidate → Except Error (List Sample)
  | _, [] => .ok []
  | budget, (offset, starts) :: rest =>
    if budget.isSpent then .ok []
    else do
      let pair ← corpus.retrieve disk offset
      match verify phrase pair starts with
      | none => collect corpus disk phrase budget rest
      | some sample => do
        let samples ← collect corpus disk phrase (budget.spend 1) rest
        pure (sample :: samples)

/-- The samples of one search; when there are too many candidates the shuffle decides which come first. -/
def search (w : Sampler) (s : Store) (corpus : Corpus) (disk : Disk) (shuffle : Shuffle) (budget : Budget)
    (domain : Option Domain) (accept : Domain → Bool) : Except Error (List Sample) := do
  let found ← w.candidates s domain accept
  collect corpus disk w.phrase budget (if budget.isShort found.length then shuffle.order found else found)

/-- Searches the domains one after the other while the budget lasts. -/
def searchDomains (w : Sampler) (s : Store) (corpus : Corpus) (disk : Disk) (shuffle : Shuffle) :
    Budget → List Domain → Except Error (List Sample)
  | _, [] => .ok []
  | budget, domain :: rest =>
    if budget.isSpent then .ok []
    else do
      let samples ← w.search s corpus disk shuffle budget (some domain) fun _ => true
      let more ← searchDomains w s corpus disk shuffle (budget.spend samples.length) rest
      pure (samples ++ more)

/-- The search goes beyond the context. -/
def widens (w : Sampler) : Bool := w.background || !w.hasContext

/-- The samples of the present phrase. -/
def samples (w : Sampler) (s : Store) (corpus : Corpus) (disk : Disk) (shuffle : Shuffle) (budget : Budget) :
    Except Error (List Sample) := do
  if w.phrase.isEmpty then pure []
  else
    let first ← w.searchDomains s corpus disk shuffle budget w.context
    let budget := budget.spend first.length
    if w.widens && !budget.isSpent then
      let others ← w.search s corpus disk shuffle budget none fun domain => !w.context.contains domain
      pure (first ++ others)
    else pure first

/-- Appends to the phrase and answers up to `limit` samples of it; a limit of zero is none. -/
def extend (w : Sampler) (s : Store) (corpus : Corpus) (disk : Disk) (shuffle : Shuffle) (phrase : Phrase)
    (limit : Nat) : Except Error (List Sample) × Sampler :=
  let w := { w with phrase := w.phrase ++ phrase }
  (w.samples s corpus disk shuffle (.ofLimit limit), w)

end Sampler

end PhraseIndex
