import PhraseIndex.Store
import PhraseIndex.UpdateBatch

/-!
# Purging deleted domains

Deleting a domain only writes a marker. A `Sweeper` knows the domains that are `pending`; a sweep removes their source
records in commits of bounded size and takes the markers away last, so that an interrupted sweep is taken up again from
the markers. Every source record belongs to one domain, so whole records go and every other posting list stays as it is.

A sweep is made of single commits: `removal` for some of the keys, `finalRemoval` for the markers together with records
that came in meanwhile; `release` then forgets the domains without a new marker.
-/

namespace PhraseIndex

/-- Outcome of a sweep. -/
structure SweepStats where
  domains : Nat := 0
  keysRemoved : Nat := 0
  batches : Nat := 0
  deriving DecidableEq, Repr

structure Sweeper where
  prefixLength : PrefixLength
  /-- Greatest number of keys in one commit. -/
  batchSize : Nat
  pending : DomainSet := ∅
  /-- Background sweeps have been given up. -/
  stopped : Bool := false

namespace Sweeper

/-! ## Markers -/

def marker (domain : Domain) : Bytes := (Key.deletion domain).encode

/-- The domains that have a marker. -/
def markedDomains (limit : PrefixLength) (s : Store) : Except Error DomainSet := do
  let domains ← (s.keysOf .deletion).mapM (Key.domainOf limit)
  pure (Std.ExtTreeSet.ofList domains compare)

/-- A sweeper that takes up the domains whose markers are left. -/
def resume (s : Store) (prefixLength : PrefixLength) (batchSize : Nat) : Except Error Sweeper := do
  let pending ← markedDomains prefixLength s
  pure { prefixLength, batchSize := max batchSize 1, pending }

/-- Queues domains for the next sweep. -/
def mark (w : Sweeper) (domains : DomainSet) : Sweeper := { w with pending := w.pending ∪ domains }

/-! ## The commits of a sweep -/

/-- The leading keys that belong to the domains, and the error of the first key that cannot be read. -/
def doomedKeys (limit : PrefixLength) (domains : DomainSet) : List Bytes → List Bytes × Option Error
  | [] => ([], none)
  | key :: rest =>
    match Key.domainOf limit key with
    | .error e => ([], some e)
    | .ok domain =>
      let (keys, error) := doomedKeys limit domains rest
      (if domains.contains domain then key :: keys else keys, error)

/-- Cuts a list into pieces of `n`; the last one may be shorter. -/
def chunks (n : Nat) : Nat → List α → List (List α)
  | 0, _ => []
  | fuel + 1, xs => if xs.isEmpty then [] else xs.take n :: chunks n fuel (xs.drop n)

/-- The keys that a sweep removes before the markers, a list for each commit. If a key cannot be read the sweep ends
with its error, and only commits that were full by then are made. -/
def plan (w : Sweeper) (domains : DomainSet) (s : Store) : List (List Bytes) × Option Error :=
  let (keys, error) := doomedKeys w.prefixLength domains (s.keysOf .source)
  let pieces := chunks w.batchSize keys.length keys
  match error with
  | none => (pieces, none)
  | some e => (pieces.filter fun piece => w.batchSize ≤ piece.length, some e)

def removal (keys : List Bytes) : WriteBatch := { removes := keys }

/-- The markers, and every source record of the domains that is there at the moment of the commit. -/
def finalRemoval (w : Sweeper) (domains : DomainSet) (s : Store) : Except Error WriteBatch :=
  match doomedKeys w.prefixLength domains (s.keysOf .source) with
  | (keys, none) => .ok { removes := keys ++ domains.toList.map marker }
  | (_, some e) => .error e

/-- The domains that were marked again. -/
def remarked (domains : DomainSet) (s : Store) : DomainSet :=
  domains.filter fun domain => (s.get? (marker domain)).isSome

/-- Forgets swept domains, except those marked again. -/
def release (w : Sweeper) (domains again : DomainSet) : Sweeper :=
  { w with pending := w.pending.filter fun domain => !domains.contains domain || again.contains domain }

/-! ## A whole sweep -/

/-- Makes the commits in order; a failing one ends them. -/
def removeAll : Store → List (List Bytes) → Except Error Unit × Store
  | s, [] => (.ok (), s)
  | s, keys :: rest =>
    match s.commit (removal keys) with
    | .ok (_, s) => removeAll s rest
    | .error e => (.error e, s)

/-- Purges the pending domains. -/
def sweep (w : Sweeper) (s : Store) : Except Error SweepStats × Sweeper × Store :=
  let domains := w.pending
  if domains.isEmpty then (.ok {}, w, s)
  else
    let (pieces, failure) := w.plan domains s
    match removeAll s pieces, failure with
    | (.error e, s), _ => (.error e, w, s)
    | (.ok (), s), some e => (.error e, w, s)
    | (.ok (), s), none =>
      match s.commitWith (w.finalRemoval domains) with
      | .error e => (.error e, w, s)
      | .ok (commit, s) =>
        let removed := pieces.flatten.length + (commit.removes - domains.size)
        (.ok ⟨domains.size, removed, pieces.length + 1⟩, w.release domains (remarked domains s), s)

/-- A sweep of the background task: nothing to do without pending domains, and a fatal error stops the task. -/
def sweepInBackground (w : Sweeper) (s : Store) : Except Error SweepStats × Sweeper × Store :=
  if w.pending.isEmpty || w.stopped then (.ok {}, w, s)
  else
    match w.sweep s with
    | (.error e, w, s) => (.error e, { w with stopped := w.stopped || e.isFatal }, s)
    | done => done

end Sweeper

end PhraseIndex
