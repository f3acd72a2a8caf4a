import PhraseIndex.Proofs.Merging
import PhraseIndex.Proofs.Positions

/-!
# Cutting updates into batches

`Model.Puts` is the storing of a batch that leaves open in which order the keys of its commit come; `Model.put` is one
such (`Model.puts_of_put`), and all of them end in the same state (`Model.Puts.unique`). Two batches one after the other
end where the batch of all their sentences and deletions ends, if its positions are the greater ones
(`Model.put_append`).
-/

namespace PhraseIndex

/-- Positions that are merged one after the other can be merged at once. -/
theorem Streams.merge_merge {s first second whole : Streams}
    (h : ∀ stream, whole.get? stream = greater (first.get? stream) (second.get? stream)) :
    (s.merge first).merge second = s.merge whole := by
  apply ext_covers
  intro x
  rw [covers_merge, covers_merge, covers_merge, covers_of_greater h, or_assoc]

/-- Domains that are marked one after the other can be marked at once. -/
theorem Sweeper.mark_mark (w : Sweeper) (domains domains' : DomainSet) :
    (w.mark domains).mark domains' = w.mark (domains ∪ domains') := by
  have hpending : w.pending ∪ domains ∪ domains' = w.pending ∪ (domains ∪ domains') :=
    Std.ExtTreeSet.ext_mem fun domain => by simp only [Std.ExtTreeSet.mem_union_iff, or_assoc]
  rw [mark, mark, mark, hpending]

namespace Model

variable {m m₁ m₂ m' : Model} {d d₁ d₂ d' : Durable} {batch first second whole : UpdateBatch}

/-- A batch is stored, its writes being committed in some order. -/
structure Puts (m : Model) (d : Durable) (batch : UpdateBatch) (m' : Model) (d' : Durable) : Prop where
  admitted : ∀ pair ∈ batch.entries, pair.source.length ≤ sentenceLimit
  stored : ∃ offsets writes stats, appendAll m.corpus d.disk batch.entries = (.ok offsets, m'.corpus, d'.disk) ∧
    (m.commitFor batch offsets m'.corpus).Shuffled writes ∧ d.store.commit writes = .ok (stats, d'.store)
  config : m'.config = m.config
  streams : m'.streams = m.streams.merge batch.streams
  sweeper : m'.sweeper = m.sweeper.mark batch.deletions

/-- Putting a batch stores it. -/
theorem puts_of_put {seconds : Float} (h : m.put d batch seconds = (.ok (), m', d')) : m.Puts d batch m' d' := by
  rcases m.put_cases d batch seconds with
    ⟨e, m'', disk, hput, -⟩ | ⟨m'', placed, disk, stats, store, hadmitted, happend, hcommit, hconfig, hstreams,
      hsweeper, hput⟩
  · rw [hput] at h
    cases h
  · rw [hput] at h
    cases h
    exact ⟨hadmitted, ⟨placed, _, stats, happend, ⟨.refl _, .refl _, .refl _⟩, hcommit⟩, hconfig, hstreams, hsweeper⟩

namespace Puts

/-- The writes could as well have been committed in their own order. -/
theorem ordered (h : m.Puts d batch m' d') : ∃ offsets stats,
    appendAll m.corpus d.disk batch.entries = (.ok offsets, m'.corpus, d'.disk) ∧
      d.store.commit (m.commitFor batch offsets m'.corpus) = .ok (stats, d'.store) := by
  obtain ⟨offsets, writes, stats, happend, hshuffled, hcommit⟩ := h.stored
  obtain ⟨stats', hcommit'⟩ :=
    Store.commit_of_shuffled hshuffled (nodup_puts_commitOf ..) nodup_merges_ofPairs hcommit
  exact ⟨offsets, stats', happend, hcommit'⟩

/-- The order of the writes cannot be seen afterwards. -/
theorem unique (h₁ : m.Puts d batch m₁ d₁) (h₂ : m.Puts d batch m₂ d₂) :
    d₁ = d₂ ∧ m₁.corpus = m₂.corpus ∧ m₁.streams = m₂.streams ∧ m₁.sweeper = m₂.sweeper := by
  obtain ⟨offsets₁, stats₁, happend₁, hcommit₁⟩ := h₁.ordered
  obtain ⟨offsets₂, stats₂, happend₂, hcommit₂⟩ := h₂.ordered
  rw [happend₁] at happend₂
  obtain ⟨hoffsets, hcorpus, hdisk⟩ : offsets₁ = offsets₂ ∧ m₁.corpus = m₂.corpus ∧ d₁.disk = d₂.disk := by
    simpa using happend₂
  rw [hoffsets, hcorpus, hcommit₂] at hcommit₁
  obtain ⟨-, hstore⟩ : stats₂ = stats₁ ∧ d₂.store = d₁.store := by simpa using hcommit₁
  refine ⟨?_, hcorpus, h₁.streams.trans h₂.streams.symm, h₁.sweeper.trans h₂.sweeper.symm⟩
  obtain ⟨store₁, disk₁⟩ := d₁
  obtain ⟨store₂, disk₂⟩ := d₂
  cases hstore
  cases hdisk
  rfl

/-- A batch that can be stored is put. -/
theorem exists_put (h : m.Puts d batch m' d') (seconds : Float) : ∃ m'', m.put d batch seconds = (.ok (), m'', d') := by
  obtain ⟨offsets, stats, happend, hcommit⟩ := h.ordered
  rcases m.put_cases d batch seconds with
    ⟨e, m'', disk, hput, -, -, -, ⟨⟨pair, hp, hlong, -⟩, -⟩ | ⟨placed, happend', hcause⟩⟩ |
    ⟨m'', placed, disk, stats', store, hadmitted, happend', hcommit', hconfig, hstreams, hsweeper, hput⟩
  · exact absurd (h.admitted pair hp) (Nat.not_le.2 hlong)
  · rw [happend] at happend'
    obtain ⟨hoffsets, hcorpus, -⟩ : .ok offsets = placed ∧ m'.corpus = m''.corpus ∧ d'.disk = disk := by
      simpa using happend'
    rcases hcause with hcause | ⟨offsets', hcause, hfailed⟩
    · rw [hcause] at hoffsets
      cases hoffsets
    · rw [hcause] at hoffsets
      cases hoffsets
      rw [← hcorpus, hcommit] at hfailed
      cases hfailed
  · rw [hput]
    exact ⟨m'', by rw [((puts_of_put hput).unique h).1]⟩

/-- Two batches are stored like the batch of both. -/
theorem append (h₁ : m.Puts d first m₁ d₁) (h₂ : m₁.Puts d₁ second m₂ d₂)
    (hentries : whole.entries = first.entries ++ second.entries)
    (hdeletions : whole.deletions = first.deletions ∪ second.deletions)
    (hstreams : ∀ stream, whole.streams.get? stream =
      Streams.greater (first.streams.get? stream) (second.streams.get? stream)) : m.Puts d whole m₂ d₂ := by
  obtain ⟨offsets₁, stats₁, happend₁, hcommit₁⟩ := h₁.ordered
  obtain ⟨offsets₂, stats₂, happend₂, hcommit₂⟩ := h₂.ordered
  have hmoved : m₁.streams.merge second.streams = m.streams.merge whole.streams := by
    rw [h₁.streams, Streams.merge_merge hstreams]
  have hmarked : ∀ domain, domain ∈ whole.deletions ↔ domain ∈ first.deletions ∨ domain ∈ second.deletions := by
    intro domain
    rw [hdeletions, Std.ExtTreeSet.mem_union_iff]
  have hzip : whole.entries.zip (offsets₁ ++ offsets₂) = first.entries.zip offsets₁ ++ second.entries.zip offsets₂ := by
    rw [hentries, List.zip_append (length_appendAll happend₁).symm]
  rw [commitFor, h₁.config, hmoved] at hcommit₂
  obtain ⟨stats, hcommit⟩ := Store.commit_append hcommit₁ hcommit₂ hmarked (by split <;> simp)
  refine ⟨?_, ⟨offsets₁ ++ offsets₂, _, stats, ?_, ⟨.refl _, .refl _, .refl _⟩, ?_⟩, h₂.config.trans h₁.config,
    h₂.streams.trans hmoved, ?_⟩
  · intro pair hp
    rw [hentries] at hp
    exact (List.mem_append.1 hp).elim (h₁.admitted pair) (h₂.admitted pair)
  · rw [hentries]
    exact appendAll_append happend₁ happend₂
  · rw [commitFor, hzip]
    exact hcommit
  · rw [h₂.sweeper, h₁.sweeper, Sweeper.mark_mark, hdeletions]

end Puts

/-- Batches can be cut as one likes. If the sentences of a batch are those of two batches in a row, its deletions those
of both, and its positions the greater ones, then putting the two one after the other ends in the index, the corpus
files, the positions and the pending domains of the whole batch, in whatever order any of the commits has its keys. -/
theorem put_append (m m₁ m₂ : Model) (d d₁ d₂ : Durable) (whole first second : UpdateBatch)
    (hentries : whole.entries = first.entries ++ second.entries)
    (hdeletions : whole.deletions = first.deletions ∪ second.deletions)
    (hstreams : ∀ stream, whole.streams.get? stream =
      Streams.greater (first.streams.get? stream) (second.streams.get? stream))
    (h₁ : m.Puts d first m₁ d₁) (h₂ : m₁.Puts d₁ second m₂ d₂) :
    (∀ seconds, ∃ m', m.put d whole seconds = (.ok (), m', d₂)) ∧
      ∀ m' d', m.Puts d whole m' d' →
        d' = d₂ ∧ m'.corpus = m₂.corpus ∧ m'.streams = m₂.streams ∧ m'.sweeper = m₂.sweeper := by
  have hwhole : m.Puts d whole m₂ d₂ := h₁.append h₂ hentries hdeletions hstreams
  exact ⟨hwhole.exists_put, fun m' d' h => h.unique hwhole⟩

/-! ### Two batches -/

/-- The first batch is ahead on the stream that both of them name. -/
def earlier : UpdateBatch where
  capacity := 0
  streams := .ofList [(1, 5)]
  entries := [⟨1, [7, 7, 7], [9], []⟩]
  deletions := {2}

def later : UpdateBatch where
  capacity := 0
  streams := .ofList [(1, 3), (2, 4)]
  entries := [⟨1, [7], [7, 9], []⟩, ⟨3, [7], [9], []⟩]
  deletions := {1}

def together : UpdateBatch where
  capacity := 0
  streams := .ofList [(1, 5), (2, 4)]
  entries := earlier.entries ++ later.entries
  deletions := earlier.deletions ∪ later.deletions

theorem exists_of_isOk {seconds : Float} (h : (m.put d batch seconds).1.isOk = true) :
    ∃ m' d', m.put d batch seconds = (.ok (), m', d') := by
  rcases hput : m.put d batch seconds with ⟨⟨e⟩ | ⟨⟨⟩⟩, m', d'⟩
  · rw [hput] at h
    cases h
  · exact ⟨m', d', rfl⟩

theorem put_append_together :
    let d := (Run.after Run.emptyDisk Run.modelPath [.openAt {}]).session.durable
    ∃ m m₁ m₂ m' d₁ d₂, (Run.after Run.emptyDisk Run.modelPath [.openAt {}]).session.model = some m ∧
      m.put d earlier 0 = (.ok (), m₁, d₁) ∧ m₁.put d₁ later 0 = (.ok (), m₂, d₂) ∧
      m.put d together 0 = (.ok (), m', d₂) ∧
      m'.corpus = m₂.corpus ∧ m'.streams = m₂.streams ∧ m'.sweeper = m₂.sweeper := by
  intro d
  obtain ⟨m, hm⟩ : ∃ m, (Run.after Run.emptyDisk Run.modelPath [.openAt {}]).session.model = some m :=
    Option.isSome_iff_exists.1 (by decide +kernel)
  have hruns : (Run.after Run.emptyDisk Run.modelPath [.openAt {}]).session.model.map (fun m =>
      let r := m.put d earlier 0
      r.1.isOk && (r.2.1.put r.2.2 later 0).1.isOk) = some true := by decide +kernel
  rw [hm] at hruns
  obtain ⟨hearlier, hlater⟩ := (Bool.and_eq_true _ _).mp (Option.some.inj hruns)
  obtain ⟨m₁, d₁, h₁⟩ := exists_of_isOk hearlier
  rw [h₁] at hlater
  obtain ⟨m₂, d₂, h₂⟩ := exists_of_isOk hlater
  have hstreams : ∀ stream, together.streams.get? stream =
      Streams.greater (earlier.streams.get? stream) (later.streams.get? stream) := by
    intro stream
    by_cases hone : stream = 1
    · rw [hone]
      decide +kernel
    · by_cases htwo : stream = 2
      · rw [htwo]
        decide +kernel
      · simp [together, earlier, later, Streams.ofList, Streams.get?, Streams.greater,
          Ne.symm hone, Ne.symm htwo]
  obtain ⟨hwhole, hsame⟩ := put_append m m₁ m₂ d d₁ d₂ together earlier later rfl rfl hstreams
    (puts_of_put h₁) (puts_of_put h₂)
  obtain ⟨m', h'⟩ := hwhole 0
  exact ⟨m, m₁, m₂, m', d₁, d₂, hm, h₁, h₂, h', (hsame m' d₂ (puts_of_put h')).2⟩

end Model

end PhraseIndex
