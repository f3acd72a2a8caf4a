import PhraseIndex.Proofs.Growth
import PhraseIndex.Proofs.Sweeping

/-!
# What the operations of an index come to

One lemma an operation says everything that it can do: open an index (`Model.openAt_cases`), store a batch
(`Model.commitBatch_cases`, `Model.put_cases`), leave it when the system refuses a write (`Model.breakOff_cases`), make
a bulk load durable (`Model.compact_cases`), purge the pending domains (`Model.sweep_eq`). The sweeper of an index that
was opened waits for exactly the domains that have markers (`Store.Reflects.resume`).
-/

namespace PhraseIndex

/-! ## Opening -/

theorem Store.pin_eq_ok_iff {s s' : Store} {limit : PrefixLength} : s.pin limit = .ok s' ↔
    s' = { s with prefixLength := some limit } ∧ (s.prefixLength = none ∨ s.prefixLength = some limit) := by
  unfold pin
  cases hl : s.prefixLength with
  | none => simp [eq_comm]
  | some stored =>
    by_cases he : stored = limit
    · have hs : s = { s with prefixLength := some limit } := by rw [← he, ← hl]
      simp [he, ← hs, eq_comm]
    · simp [he]

namespace Model

variable {m m' : Model} {d d' : Durable} {batch : UpdateBatch}

theorem prepare_eq_ok_iff {path : Path} {config : Config} : prepare d path config = .ok d' ↔
    config.validate = .ok () ∧ d.disk.isDirectory path.place ∧
      d.disk.makeDirectories (indexPlace path.place) = .ok d'.disk ∧
      d.store.pin config.prefixLength = .ok d'.store := by
  obtain ⟨store', disk'⟩ := d'
  unfold prepare
  cases hv : config.validate with
  | error e => simp [bind, Except.bind]
  | ok u =>
    cases hp : d.disk.isDirectory path.place with
    | false => simp [require, bind, Except.bind]
    | true =>
      cases hm : d.disk.makeDirectories (indexPlace path.place) with
      | error e => simp [require, bind, Except.bind, Except.mapError]
      | ok disk =>
        cases hs : d.store.pin config.prefixLength with
        | error e => simp [require, bind, Except.bind, Except.mapError]
        | ok store => simp [require, bind, Except.bind, Except.mapError, pure, Except.pure, and_comm]

/-- Opening fails before anything happens, or with the keyspace ready, or with the corpus handled as well; or the index
is open, with the committed streams and manifest and with a sweeper that takes up the markers. -/
theorem openAt_cases (d : Durable) (path : Path) (config : Config) :
    (∃ e, openAt d path config = (.error e, d)) ∨
      ∃ d₁, prepare d path config = .ok d₁ ∧
        ((∃ e, openAt d path config = (.error e, d₁)) ∨
          ∃ streams manifest corpus disk, storedStreams d₁.store = .ok streams ∧
          storedManifest d₁.store = .ok manifest ∧
            Corpus.openAt d₁.disk (storagePath path) manifest config.maxFileSize.toNat = (corpus, disk) ∧
            ((∃ e, openAt d path config = (.error e, { d₁ with disk })) ∨
              ∃ c sweeper, corpus = .ok c ∧
                Sweeper.resume d₁.store config.prefixLength config.sweepBatch.toNat = .ok sweeper ∧
                openAt d path config = (.ok { path, config, corpus := c, streams, sweeper }, { d₁ with disk }))) := by
  unfold openAt
  cases hp : prepare d path config with
  | error e => exact .inl ⟨e, rfl⟩
  | ok d₁ =>
    refine .inr ⟨d₁, rfl, ?_⟩
    cases hs : storedStreams d₁.store with
    | error e => exact .inl ⟨e, by simp only [hs]⟩
    | ok streams =>
      cases hm : storedManifest d₁.store with
      | error e => exact .inl ⟨e, by simp only [hs, hm]⟩
      | ok manifest =>
        cases hc : Corpus.openAt d₁.disk (storagePath path) manifest config.maxFileSize.toNat with
        | mk corpus disk =>
          refine .inr ⟨streams, manifest, corpus, disk, rfl, rfl, hc, ?_⟩
          cases corpus with
          | error e => exact .inl ⟨e, by simp only [hs, hm, hc]⟩
          | ok c =>
            simp only [hs, hm, hc]
            by_cases ht : config.sweepTimeout?.isSome
            · cases hw : Sweeper.resume d₁.store config.prefixLength config.sweepBatch.toNat with
              | error e => exact .inl ⟨e, by simp [require, ht, bind, Except.bind]⟩
              | ok sweeper =>
                refine .inr ⟨c, sweeper, rfl, rfl, ?_⟩
                simp [require, ht, bind, Except.bind, pure, Except.pure]
            · exact .inl ⟨.timeoutOverflow, by simp [require, ht, bind, Except.bind]⟩

/-- An index that is opened has the corpus as it was opened. -/
theorem exists_openAt_corpus {path : Path} {config : Config} (h : (openAt d path config).1 = .ok m) : ∃ disk manifest,
    Corpus.openAt disk (storagePath path) manifest config.maxFileSize.toNat =
      (.ok m.corpus, (openAt d path config).2.disk) := by
  rcases openAt_cases d path config with
    ⟨e, he⟩ | ⟨d₁, -, ⟨e, he⟩ | ⟨streams, manifest, corpus, disk, -, -, ho, ⟨e, he⟩ | ⟨c, sweeper, rfl, -, he⟩⟩⟩
  · rw [he] at h
    cases h
  · rw [he] at h
    cases h
  · rw [he] at h
    cases h
  · rw [he] at h ⊢
    cases h
    exact ⟨d₁.disk, manifest, ho⟩

end Model

/-- The domains that have markers are read from the keys of the markers. -/
theorem Store.Sound.markedDomains {s : Store} {limit : PrefixLength} (h : s.Sound limit) :
    ∃ deleted, Sweeper.markedDomains limit s = .ok deleted ∧
      ∀ domain, domain ∈ deleted ↔ (s.get? (Sweeper.marker domain)).isSome := by
  obtain ⟨deleted, hd⟩ := Sweeper.exists_markedDomains limit fun key hkey => by
    obtain ⟨domain, -, he⟩ := h.mem_keysOf_deletion.1 hkey
    exact ⟨domain, he⟩
  exact ⟨deleted, hd, fun domain => Sweeper.mem_markedDomains hd⟩

theorem Store.Reflects.markedDomains {s : Store} {limit : PrefixLength} {live all : List Placement}
    {deleted : DomainSet} (h : s.Reflects limit live all deleted) : Sweeper.markedDomains limit s = .ok deleted := by
  obtain ⟨domains, hd, hmem⟩ := h.sound.markedDomains
  have hset : domains = deleted := Std.ExtTreeSet.ext_mem fun domain => (hmem domain).trans (h.marked domain)
  rw [hd, hset]

/-- A sweeper that is resumed waits for the domains that have markers. -/
theorem Store.Reflects.resume {s : Store} {limit : PrefixLength} {live all : List Placement} {deleted : DomainSet}
    (h : s.Reflects limit live all deleted) (batchSize : Nat) :
    Sweeper.resume s limit batchSize =
      .ok { prefixLength := limit, batchSize := max batchSize 1, pending := deleted } := by
  rw [Sweeper.resume, h.markedDomains]
  rfl

/-! ## Writing -/

namespace Model

variable {m m' : Model} {d d' : Durable} {batch : UpdateBatch}

/-- An offset for each sentence pair. -/
theorem length_appendAll {c c' : Corpus} {disk disk' : Disk} {pairs : List SentencePair} {offsets : List Offset}
    (h : appendAll c disk pairs = (.ok offsets, c', disk')) : offsets.length = pairs.length := by
  induction pairs generalizing c disk offsets with
  | nil =>
    cases h
    rfl
  | cons pair pairs ih =>
    unfold appendAll at h
    split at h
    · cases h
    · next offset c₁ disk₁ _ =>
      cases hr : appendAll c₁ disk₁ pairs with
      | mk rest r =>
        obtain ⟨c₂, disk₂⟩ := r
        simp only [hr, Prod.mk.injEq] at h
        obtain ⟨hrest, rfl, rfl⟩ := h
        obtain ⟨tail, rfl, rfl⟩ := map_eq_ok_iff.1 hrest
        rw [List.length_cons, List.length_cons, ih hr]

/-- Sentence pairs are appended like their parts one after the other. -/
theorem appendAll_append {c c₁ c₂ : Corpus} {disk disk₁ disk₂ : Disk} {ps qs : List SentencePair} {os os' : List Offset}
    (h₁ : appendAll c disk ps = (.ok os, c₁, disk₁)) (h₂ : appendAll c₁ disk₁ qs = (.ok os', c₂, disk₂)) :
    appendAll c disk (ps ++ qs) = (.ok (os ++ os'), c₂, disk₂) := by
  induction ps generalizing c disk os with
  | nil =>
    cases h₁
    exact h₂
  | cons pair ps ih =>
    unfold appendAll at h₁
    rw [List.cons_append, appendAll]
    split at h₁
    · cases h₁
    · next offset c' disk' ha =>
      cases hr : appendAll c' disk' ps with
      | mk rest r =>
        obtain ⟨c'', disk''⟩ := r
        simp only [hr, Prod.mk.injEq] at h₁
        obtain ⟨hrest, rfl, rfl⟩ := h₁
        obtain ⟨tail, rfl, rfl⟩ := map_eq_ok_iff.1 hrest
        simp only [ih hr]
        rfl

/-- The commit that a batch comes to once its sentences have these offsets. -/
def commitFor (m : Model) (batch : UpdateBatch) (offsets : List Offset) (corpus : Corpus) : WriteBatch :=
  commitOf (Fragments.ofPairs m.config.prefixLength (batch.entries.zip offsets)) batch.deletions
    (m.streams.merge batch.streams) (if m.config.bulkLoad then none else some corpus.manifest)

/-- A batch is refused for a sentence that is too long, or its sentences are appended; then one of them or the commit
fails, or all of them are committed. -/
theorem commitBatch_cases (m : Model) (d : Durable) (batch : UpdateBatch) :
    (∃ pair ∈ batch.entries, sentenceLimit < pair.source.length ∧
      m.commitBatch d batch = (.error (.sentenceTooLong pair.source.length), m, d)) ∨
      (∀ pair ∈ batch.entries, pair.source.length ≤ sentenceLimit) ∧ ∃ offsets corpus disk,
        appendAll m.corpus d.disk batch.entries = (offsets, corpus, disk) ∧
        ((∃ e, (offsets = .error e ∨ ∃ placed, offsets = .ok placed ∧
            d.store.commit (m.commitFor batch placed corpus) = .error e) ∧
            m.commitBatch d batch = (.error e, { m with corpus }, { d with disk })) ∨
          ∃ placed stats store size, offsets = .ok placed ∧
            d.store.commit (m.commitFor batch placed corpus) = .ok (stats, store) ∧
            m.commitBatch d batch =
              (.ok size, { m with corpus, streams := m.streams.merge batch.streams }, { store, disk })) := by
  unfold commitBatch
  cases hf : batch.entries.find? fun pair => sentenceLimit < pair.source.length with
  | some pair => exact .inl ⟨pair, List.mem_of_find?_eq_some hf, by simpa using List.find?_some hf, rfl⟩
  | none =>
    refine .inr ⟨?_, ?_⟩
    · intro pair hp
      have := List.find?_eq_none.1 hf pair hp
      simpa using this
    · cases ha : appendAll m.corpus d.disk batch.entries with
      | mk offsets rest =>
        obtain ⟨corpus, disk⟩ := rest
        refine ⟨offsets, corpus, disk, rfl, ?_⟩
        cases offsets with
        | error e => exact .inl ⟨e, .inl rfl, rfl⟩
        | ok placed =>
          dsimp only
          cases hc : d.store.commit (m.commitFor batch placed corpus) with
          | error e =>
            refine .inl ⟨e, .inr ⟨placed, rfl, hc⟩, ?_⟩
            unfold commitFor at hc
            rw [hc]
          | ok r =>
            obtain ⟨stats, store⟩ := r
            refine .inr ⟨placed, stats, store,
              (Fragments.ofPairs m.config.prefixLength (batch.entries.zip placed)).size, rfl, hc, ?_⟩
            unfold commitFor at hc
            rw [hc]

/-- A batch that fails leaves all but the corpus, and the corpus too if a sentence is too long. A batch that is put is
in the corpus and committed, with its stream positions, and the sweeper knows its deletions. -/
theorem put_cases (m : Model) (d : Durable) (batch : UpdateBatch) (seconds : Float) :
    (∃ e m' disk, m.put d batch seconds = (.error e, m', { d with disk }) ∧ m'.config = m.config ∧
      m'.streams = m.streams ∧ m'.sweeper = m.sweeper ∧
        ((∃ pair ∈ batch.entries, sentenceLimit < pair.source.length ∧ e = .sentenceTooLong pair.source.length) ∧
            m'.corpus = m.corpus ∧ disk = d.disk ∨
          ∃ offsets, appendAll m.corpus d.disk batch.entries = (offsets, m'.corpus, disk) ∧
            (offsets = .error e ∨ ∃ placed, offsets = .ok placed ∧
              d.store.commit (m.commitFor batch placed m'.corpus) = .error e))) ∨
      ∃ m' placed disk stats store, (∀ pair ∈ batch.entries, pair.source.length ≤ sentenceLimit) ∧
        appendAll m.corpus d.disk batch.entries = (.ok placed, m'.corpus, disk) ∧
        d.store.commit (m.commitFor batch placed m'.corpus) = .ok (stats, store) ∧ m'.config = m.config ∧
        m'.streams = m.streams.merge batch.streams ∧ m'.sweeper = m.sweeper.mark batch.deletions ∧
        m.put d batch seconds = (.ok (), m', ⟨store, disk⟩) := by
  unfold put writeBatch
  rcases m.commitBatch_cases d batch with
    ⟨pair, hp, hlong, he⟩ | ⟨hlengths, offsets, corpus, disk, ha,
      ⟨e, hcause, he⟩ | ⟨placed, stats, store, size, rfl, hc, he⟩⟩
  · let m' : Model := { m with metrics := m.metrics.recordBatchError }
    rw [he]
    exact .inl ⟨_, m', d.disk, rfl, rfl, rfl, rfl, .inl ⟨⟨pair, hp, hlong, rfl⟩, rfl, rfl⟩⟩
  · let m' : Model := { m with corpus, metrics := m.metrics.recordBatchError }
    rw [he]
    exact .inl ⟨e, m', disk, rfl, rfl, rfl, rfl, .inr ⟨offsets, ha, hcause⟩⟩
  · let m' : Model :=
      { m with
        corpus
        streams := m.streams.merge batch.streams
        sweeper := m.sweeper.mark batch.deletions
        metrics := m.metrics.recordBatch batch.size size batch.deletions.size seconds }
    rw [he]
    exact .inr ⟨m', placed, disk, stats, store, hlengths, ha, hc, rfl, rfl, rfl, rfl⟩

/-- Leaves a batch when the system refuses a write: so many of its sentences are in the corpus, and of the record of the
next one so many bytes, if its write had begun. -/
def breakOff (m : Model) (d : Durable) (batch : UpdateBatch) (sentences : Nat) (torn : Option Nat) : Model × Durable :=
  match appendAll m.corpus d.disk (batch.entries.take sentences) with
  | (.error _, corpus, disk) => ({ m with corpus }, { d with disk })
  | (.ok _, corpus, disk) =>
    match torn, batch.entries[sentences]? with
    | some bytes, some pair =>
      let (corpus, disk) := corpus.tear disk pair bytes
      ({ m with corpus }, { d with disk })
    | _, _ => ({ m with corpus }, { d with disk })

/-- A batch is broken off behind some of its sentences, or within the record of the next one. -/
theorem breakOff_cases (m : Model) (d : Durable) (batch : UpdateBatch) (sentences : Nat) (torn : Option Nat) :
    ∃ r corpus disk, appendAll m.corpus d.disk (batch.entries.take sentences) = (r, corpus, disk) ∧
      (m.breakOff d batch sentences torn = ({ m with corpus }, { d with disk }) ∨
        ∃ bytes pair, torn = some bytes ∧ m.breakOff d batch sentences torn =
          ({ m with corpus := (corpus.tear disk pair bytes).1 },
            { d with disk := (corpus.tear disk pair bytes).2 })) := by
  unfold breakOff
  cases appendAll m.corpus d.disk (batch.entries.take sentences) with
  | mk r rest =>
    obtain ⟨corpus, disk⟩ := rest
    refine ⟨r, corpus, disk, rfl, ?_⟩
    cases r with
    | error e => exact .inl rfl
    | ok placed =>
      dsimp only
      split
      · exact .inr ⟨_, _, rfl, rfl⟩
      · exact .inl rfl

/-- A batch that is broken off changes nothing but the corpus, which grows. -/
theorem breakOff_eq (m : Model) (d : Durable) (batch : UpdateBatch) (sentences : Nat) (torn : Option Nat) :
    ∃ corpus disk, m.breakOff d batch sentences torn = ({ m with corpus }, { d with disk }) ∧
      m.corpus.Grows d.disk corpus disk := by
  obtain ⟨r, corpus, disk, ha, hb | ⟨bytes, pair, -, hb⟩⟩ := m.breakOff_cases d batch sentences torn
  · exact ⟨corpus, disk, hb, Corpus.grows_appendAll ha⟩
  · exact ⟨_, _, hb, (Corpus.grows_appendAll ha).trans (Corpus.grows_tear corpus disk pair bytes)⟩

/-- What a compaction writes is a batch without sentences. -/
theorem commitOf_nil (limit : PrefixLength) (streams : Streams) (manifest : Manifest) :
    commitOf (Fragments.ofPairs limit []) ∅ streams (some manifest) =
      { puts := [streamsRecord streams, manifestRecord manifest] } := by
  simp [commitOf, Fragments.ofPairs, Fragments.merges]

/-- A compaction puts the streams and the manifest, if the index is loaded in bulk. -/
theorem compact_cases (m : Model) (d : Durable) :
    (∃ e, m.compact d = (.error e, m, d)) ∨
      ∃ metrics, m.compact d = (.ok (), { m with metrics }, d) ∨
        ∃ stats store, m.config.bulkLoad = true ∧
          d.store.commit (commitOf (Fragments.ofPairs m.config.prefixLength []) ∅ m.streams
            (some m.corpus.manifest)) = .ok (stats, store) ∧
          m.compact d = (.ok (), { m with metrics }, { d with store }) := by
  unfold compact
  by_cases hb : m.config.bulkLoad
  · rw [commitOf_nil]
    cases hc : d.store.commit { puts := [streamsRecord m.streams, manifestRecord m.corpus.manifest] } with
    | error e => exact .inl ⟨e, by simp [hb, Functor.map, Except.map]⟩
    | ok r =>
      obtain ⟨stats, store⟩ := r
      exact .inr ⟨_, .inr ⟨stats, store, hb, rfl, by simp [hb, Functor.map, Except.map]; rfl⟩⟩
  · exact .inr ⟨_, .inl (by simp [hb]; rfl)⟩

/-- A sweep touches the sweeper, the metrics and the index keyspace only. -/
theorem sweep_eq (m : Model) (d : Durable) : ∃ metrics, (m.sweep d).2 =
    ({ m with sweeper := (m.sweeper.sweep d.store).2.1, metrics },
      { d with store := (m.sweeper.sweep d.store).2.2 }) := by
  unfold sweep
  rcases m.sweeper.sweep d.store with ⟨e | stats, sweeper, store⟩
  · exact ⟨m.metrics, rfl⟩
  · exact ⟨_, rfl⟩

theorem sweepInBackground_eq (m : Model) (d : Durable) : ∃ metrics, m.sweepInBackground d =
    ({ m with sweeper := (m.sweeper.sweepInBackground d.store).2.1, metrics },
      { d with store := (m.sweeper.sweepInBackground d.store).2.2 }) := by
  unfold sweepInBackground
  rcases m.sweeper.sweepInBackground d.store with ⟨e | stats, sweeper, store⟩
  · exact ⟨m.metrics, rfl⟩
  · exact ⟨_, rfl⟩

end Model

end PhraseIndex
