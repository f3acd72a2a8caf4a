import PhraseIndex.Config.Basic
import PhraseIndex.Corpus.Log
import PhraseIndex.Fragments
import PhraseIndex.Metrics.Basic
import PhraseIndex.Sampling.Sampler
import PhraseIndex.Scan
import PhraseIndex.Sweep

/-!
# The open phrase index

A `Model` is an index that is open: its configuration, its corpus files, the committed stream positions and the domains
that wait for a sweep. What outlives it is `Durable`, the index keyspace and the files. A batch is appended to the
corpus first and committed to the index after that, in one commit with its stream positions; if it fails on the way,
the appended sentences stay behind as bytes that no posting points to.
-/

namespace PhraseIndex

/-- What is left when an index is closed. -/
structure Durable where
  store : Store
  disk : Disk

structure Model where
  path : Path
  config : Config
  corpus : Corpus
  /-- The positions of the last committed batch. -/
  streams : Streams
  sweeper : Sweeper
  metrics : Metrics := {}

/-- Sizes of an open index. -/
structure IndexStats where
  prefixLength : PrefixLength
  indexBytes : Nat
  indexKeys : Nat
  storageBytes : Nat
  storageFiles : Nat
  streams : Nat
  pendingDeletions : Nat
  deriving DecidableEq, Repr

namespace Model

/-- Directory of the index keyspace in a model directory. -/
def indexPlace (place : Place) : Place := place ++ ["index"]

/-- Directory of the corpus files in a model directory. -/
def storagePath (path : Path) : Path := path.join "storage"

/-! ## Opening -/

/-- Makes the keyspace ready for an index with this configuration. -/
def prepare (d : Durable) (path : Path) (config : Config) : Except Error Durable := do
  config.validate
  require (d.disk.isDirectory path.place) (.modelPath path)
  let disk ← (d.disk.makeDirectories (indexPlace path.place)).mapError .os
  let store ← d.store.pin config.prefixLength
  pure { store, disk }

/-- The committed stream positions. -/
def storedStreams (s : Store) : Except Error Streams :=
  match s.get? Key.streams.encode with
  | some value => Streams.decode value
  | none => .ok .empty

/-- The committed manifest. -/
def storedManifest (s : Store) : Except Error Manifest :=
  match s.get? Key.manifest.encode with
  | some value => Manifest.decode value
  | none => .ok .empty

/-- Opens or creates the index in a directory, which has to exist. -/
def openAt (d : Durable) (path : Path) (config : Config) : Except Error Model × Durable :=
  match prepare d path config with
  | .error e => (.error e, d)
  | .ok d =>
    match storedStreams d.store, storedManifest d.store with
    | .error e, _ | _, .error e => (.error e, d)
    | .ok streams, .ok manifest =>
      match Corpus.openAt d.disk (storagePath path) manifest config.maxFileSize.toNat with
      | (.error e, disk) => (.error e, { d with disk })
      | (.ok corpus, disk) =>
        let model := do
          require config.sweepTimeout?.isSome .timeoutOverflow
          let sweeper ← Sweeper.resume d.store config.prefixLength config.sweepBatch.toNat
          pure { path, config, corpus, streams, sweeper }
        (model, { d with disk })

/-! ## Writing -/

/-- A batch that starts from the committed positions; a capacity of zero is no bound. -/
def newBatch (m : Model) (capacity : Nat) : UpdateBatch := { capacity, streams := m.streams }

/-- The longest source sentence that positions can number. -/
def sentenceLimit : Nat := 65535

/-- Appends sentence pairs in order and answers their offsets. -/
def appendAll : Corpus → Disk → List SentencePair → Except Error (List Offset) × Corpus × Disk
  | corpus, disk, [] => (.ok [], corpus, disk)
  | corpus, disk, pair :: pairs =>
    match corpus.append disk pair with
    | (.error e, corpus, disk) => (.error e, corpus, disk)
    | (.ok offset, corpus, disk) =>
      let (offsets, corpus, disk) := appendAll corpus disk pairs
      ((offset :: ·) <$> offsets, corpus, disk)

/-- The committed state of streams and corpus as records. -/
def streamsRecord (streams : Streams) : Bytes × Bytes := (Key.streams.encode, streams.encode)

def manifestRecord (manifest : Manifest) : Bytes × Bytes := (Key.manifest.encode, manifest.encode)

/-- The commit of a batch whose sentences are in the corpus: postings and counts, markers of deleted domains, stream
positions, and the manifest unless it is left to a compaction. -/
def commitOf (fragments : Fragments) (deletions : DomainSet) (streams : Streams) (manifest : Option Manifest) :
    WriteBatch where
  merges := fragments.merges
  puts :=
    deletions.toList.map (fun domain => (Sweeper.marker domain, [])) ++ [streamsRecord streams] ++
      (manifest.map manifestRecord).toList

/-- Appends a batch to the corpus and commits it to the index; answers how many posting lists it touched. Positions
never move back, whatever state the batch started from. -/
def commitBatch (m : Model) (d : Durable) (batch : UpdateBatch) : Except Error Nat × Model × Durable :=
  match batch.entries.find? fun pair => sentenceLimit < pair.source.length with
  | some pair => (.error (.sentenceTooLong pair.source.length), m, d)
  | none =>
    let (offsets, corpus, disk) := appendAll m.corpus d.disk batch.entries
    let m := { m with corpus }
    let d := { d with disk }
    match offsets with
    | .error e => (.error e, m, d)
    | .ok offsets =>
      let fragments := Fragments.ofPairs m.config.prefixLength (batch.entries.zip offsets)
      let streams := m.streams.merge batch.streams
      let manifest := if m.config.bulkLoad then none else some m.corpus.manifest
      match d.store.commit (commitOf fragments batch.deletions streams manifest) with
      | .error e => (.error e, m, d)
      | .ok (_, store) => (.ok fragments.size, { m with streams }, { d with store })

/-- Stores a batch, then hands the domains that it deletes to the sweeper. -/
def writeBatch (m : Model) (d : Durable) (batch : UpdateBatch) : Except Error Nat × Model × Durable :=
  match m.commitBatch d batch with
  | (.ok fragments, m, d) => (.ok fragments, { m with sweeper := m.sweeper.mark batch.deletions }, d)
  | (.error e, m, d) => (.error e, m, d)

/-- Indexes a batch; `seconds` is the time it took. -/
def put (m : Model) (d : Durable) (batch : UpdateBatch) (seconds : Float) : Except Error Unit × Model × Durable :=
  match m.writeBatch d batch with
  | (.ok fragments, m, d) =>
    let metrics := m.metrics.recordBatch batch.size fragments batch.deletions.size seconds
    (.ok (), { m with metrics }, d)
  | (.error e, m, d) => (.error e, { m with metrics := m.metrics.recordBatchError }, d)

/-- Makes the state of a bulk load durable. Compaction itself changes nothing that can be seen. -/
def compact (m : Model) (d : Durable) : Except Error Unit × Model × Durable :=
  let committed := if m.config.bulkLoad then
      (·.2) <$> d.store.commit { puts := [streamsRecord m.streams, manifestRecord m.corpus.manifest] }
    else .ok d.store
  match committed with
  | .error e => (.error e, m, d)
  | .ok store =>
    (.ok (), { m with metrics := m.metrics.setSizes store.byteSize m.corpus.size }, { d with store })

/-- Purges the pending domains now. -/
def sweep (m : Model) (d : Durable) : Except Error SweepStats × Model × Durable :=
  match m.sweeper.sweep d.store with
  | (.ok stats, sweeper, store) =>
    (.ok stats, { m with sweeper, metrics := m.metrics.recordSweep stats.keysRemoved }, { d with store })
  | (.error e, sweeper, store) => (.error e, { m with sweeper }, { d with store })

/-- What the background task does when its time has come. -/
def sweepInBackground (m : Model) (d : Durable) : Model × Durable :=
  match m.sweeper.sweepInBackground d.store with
  | (.ok stats, sweeper, store) =>
    ({ m with sweeper, metrics := m.metrics.recordSweep stats.keysRemoved }, { d with store })
  | (.error _, sweeper, store) => ({ m with sweeper }, { d with store })

/-! ## Asking -/

/-- Occurrences of a phrase in the postings of all domains. -/
def sourceCount (m : Model) (s : Store) (phrase : Phrase) : Except Error Nat :=
  let cursor : Cursor := { prefixLength := m.config.prefixLength, domain := none }
  ((cursor.seek s phrase).countRemaining s).1

/-- Occurrences of a phrase in the targets; a negative count is none. -/
def targetCount (s : Store) (phrase : Phrase) : Except Error Nat :=
  match s.get? (Key.target phrase).encode with
  | some value => (fun count => count.toInt.toNat) <$> Count.decode value
  | none => .ok 0

/-- Occurrences of a phrase on one side, and never less than one. A phrase that is empty or longer than the prefix
length counts as one. -/
def count (m : Model) (s : Store) (side : Side) (phrase : Phrase) : Except Error Nat :=
  if phrase.isEmpty || m.config.prefixLength.toNat < phrase.length then .ok 1
  else max 1 <$> match side with
    | .source => m.sourceCount s phrase
    | .target => targetCount s phrase

/-- Counts the query itself. -/
def recordCount (m : Model) (side : Side) : Model := { m with metrics := m.metrics.recordCount side }

/-- A scan over every phrase record. -/
def scan (m : Model) (s : Store) : Scan := Scan.create s m.config.prefixLength

/-- A sampler over this index. -/
def sampler (m : Model) (s : Store) (context : Context) (background : Bool) : Except Error Sampler :=
  Sampler.create s m.config.prefixLength context background

/-- Up to `limit` sentence pairs that hold the phrase. -/
def samples (m : Model) (d : Durable) (shuffle : Shuffle) (context : Context) (phrase : Phrase) (limit : Nat)
    (background : Bool) : Except Error (List Sample) := do
  let sampler ← m.sampler d.store context background
  (sampler.extend d.store m.corpus d.disk shuffle phrase limit).1

def stats (m : Model) (s : Store) : IndexStats where
  prefixLength := m.config.prefixLength
  indexBytes := s.byteSize
  indexKeys := s.index.size
  storageBytes := m.corpus.size
  storageFiles := m.corpus.fileCount
  streams := m.streams.size
  pendingDeletions := m.sweeper.pending.size

/-- Enters the sizes into the metrics. -/
def recordSizes (m : Model) (s : Store) : Model :=
  { m with metrics := m.metrics.setSizes s.byteSize m.corpus.size }

end Model

end PhraseIndex
