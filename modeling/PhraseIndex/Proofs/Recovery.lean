import PhraseIndex.Proofs.History

/-!
# Recovery from a crash

However far a batch has come when the program stops, the index is opened again as it was committed, and nothing that was
handed out before is handed out again (`History.recovered_after`). The batches before may have failed in any way, but
nothing is committed behind a part of a record: with a manifest that tells of a full file without that part the index
cannot be opened again (`History.lockedOut_leftBehind`).
-/

namespace PhraseIndex

namespace History

variable {path : Path} {h : History} {m : Model}

/-- The keyspace of an open index keeps its prefix length when the program stops. -/
theorem pinned_stop (hc : Coherent path h) (hm : h.run.session.model = some m) (batch : UpdateBatch) (point : Stop) :
    (h.step path (.stop batch point)).run.session.durable.store.prefixLength = some m.config.prefixLength := by
  show (h.run.step path (point.operation batch)).session.durable.store.prefixLength = _
  cases point with
  | writing sentences torn =>
    obtain ⟨corpus, disk, -, -, hstep⟩ := Run.step_refuse path hm batch sentences torn
    rw [Stop.operation, hstep]
    exact (hc.accounts.opened m hm).pinned
  | ended =>
    have haccounts : (h.run.step path (.put batch 0)).Accounts := Run.accounts_step hc.accounts _
    rw [Stop.operation]
    rcases Run.step_put_cases path hm batch 0 with
      ⟨m', disk, hstep, hconfig, -⟩ | ⟨m', placed, disk, stats, store, -, -, -, -, hconfig, -, hstep⟩
    · rw [hstep] at haccounts ⊢
      rw [← hconfig]
      exact (haccounts.opened m' rfl).pinned
    · rw [hstep] at haccounts ⊢
      rw [← hconfig]
      exact (haccounts.opened m' rfl).pinned

/-- The index is as it was committed: it has the positions of the last batch, it waits for the domains that have
markers, and the corpus gives back for every posting the live sentence in which its phrase stands. -/
structure Recovered (h : History) (m : Model) : Prop where
  streams : m.streams = h.positions
  pending : ∀ domain, domain ∈ m.sweeper.pending ↔
    (h.run.session.durable.store.get? (Sweeper.marker domain)).isSome
  postings : ∀ key value, h.run.session.durable.store.get? key = some value → Key.kindOf? key = some .source →
    ∃ phrase domain postings, (Key.source phrase domain).encode = key ∧ PostingList.decode value = .ok postings ∧
      ∀ p ∈ postings, ∃ pair, (pair, p.offset) ∈ h.run.ledger.live ∧ m.corpus.retrieve h.disk p.offset = .ok pair ∧
        pair.domain = domain ∧ pair.source.slice? p.start.toNat phrase.length = some phrase

/-- A coherent history whose directories are there is opened again as it was committed, and the disk does not change. -/
theorem exists_openAt (hc : Coherent path h) (hfit : h.disk.Fits) {config : Config}
    (hvalid : config.validate = .ok ()) (htimeout : config.sweepTimeout?.isSome)
    (hpinned : h.run.session.durable.store.prefixLength = some config.prefixLength)
    (hinstalled : Model.Installed path h.disk)
    (hfile : (h.disk.node? (Corpus.filePath (Model.storagePath path) 0).place).isSome) :
    ∃ m', Model.openAt h.run.session.durable path config = (.ok m', h.run.session.durable) ∧ h.Recovered m' := by
  obtain ⟨files, manifest, hmanifest, hkept, -⟩ := hc.kept.corpus
  have hr := hc.accounts.indexed config.prefixLength (by rw [hpinned]; rfl)
  have hne : files ≠ [] := by
    rintro rfl
    have hfree := hkept.filed.fresh 0 nofun
    rw [disk, hfree] at hfile
    cases hfile
  have hplace : (Model.storagePath path).place ≠ [] := by simp [Model.storagePath, Path.join]
  obtain ⟨c, hopen, rfl, hdir⟩ := Corpus.openAt_of_clean hc.clean hkept.filed hkept.grown
    (hkept.filed.laid.fits hfit).1 hinstalled.storage hplace hne config.maxFileSize.toNat
  refine ⟨_, Model.openAt_of_installed hinstalled hvalid htimeout hpinned hc.positioned.stored hmanifest hopen
    (hr.resume _), rfl, fun domain => (hr.marked domain).symm, ?_⟩
  intro key value hv hk
  obtain ⟨phrase, domain, -, hkey, hdecode⟩ := hr.postings_of_source hv hk
  refine ⟨phrase, domain, _, hkey, hdecode, fun p hp => ?_⟩
  obtain ⟨pair, start, hlive, hdomain, hstart, -, hposition⟩ := mem_postingsOf.1 hp
  obtain ⟨hle, hslice⟩ := Sentence.slice?_of_mem_occurrences hstart
  have hall := hc.kept.live.subset hlive
  have hlaid : Corpus.Laid h.disk c.dir 0 0 c.files := by
    rw [hdir]
    exact hkept.filed.laid
  have hpair := Corpus.retrieve_of_stored hlaid (hkept.stored _ hall)
  refine ⟨pair, hlive, hpair, hdomain, ?_⟩
  rw [hposition, toNat_position (hle.trans (hc.kept.lengths _ hall)), hslice]

/-- An open index has its first corpus file. -/
theorem exists_file (hc : Coherent path h) (hm : h.run.session.model = some m) :
    (h.disk.node? (Corpus.filePath (Model.storagePath path) 0).place).isSome := by
  obtain ⟨hdir, manifest, -, hretains⟩ := hc.kept.opened hm
  have hlaid := hretains.kept.filed.laid
  rw [hdir] at hlaid
  obtain ⟨f, rest, hfiles⟩ := List.exists_cons_of_ne_nil (List.ne_nil_of_mem (m.corpus.measured h.disk).active_mem)
  rw [disk] at hfiles ⊢
  rw [hfiles] at hlaid
  obtain ⟨-, hid, -, hnode, -⟩ := hlaid
  rw [hid] at hnode
  exact Option.isSome_iff_exists.2 ⟨_, hnode⟩

/-- Wherever a batch stops, the index is opened again with the same prefix length, as it was committed, if the history
is mended. The offsets that were handed out lie before the end of the bytes that are in the corpus then, and later ones
behind it. -/
theorem recovered_after (disk : Disk) (path : Path) (events : List Event) (batch : UpdateBatch) (point : Stop)
    (m : Model) (config : Config) (hfresh : Corpus.Unused disk (Model.storagePath path))
    (hfit : ∀ before, before <+: events ++ [.stop batch point] → (after disk path before).disk.Fits)
    (hmended : Mended disk path (events ++ [.stop batch point]))
    (hm : (after disk path events).run.session.model = some m) (hlimit : config.prefixLength = m.config.prefixLength)
    (hvalid : config.validate = .ok ()) (htimeout : config.sweepTimeout?.isSome) :
    let h := after disk path (events ++ [.stop batch point])
    let total := Corpus.bytesIn h.disk (Model.storagePath path)
    (∃ m', Model.openAt h.run.session.durable path config = (.ok m', h.run.session.durable) ∧ h.Recovered m') ∧
      (∀ o ∈ h.handed, o.toInt < total) ∧
      ∀ later, (∀ before, before <+: events ++ [.stop batch point] ++ later → (after disk path before).disk.Fits) →
        Mended disk path (events ++ [.stop batch point] ++ later) →
        ∃ new, (after disk path (events ++ [.stop batch point] ++ later)).handed = h.handed ++ new ∧
          ∀ o ∈ new, (total : Int) ≤ o.toInt := by
  intro h total
  have hc₀ := coherent_after hfresh events (fun before hb => hfit before (hb.trans (List.prefix_append _ _)))
    (mended_concat.1 hmended).1
  have hc : Coherent path h := coherent_after hfresh _ hfit hmended
  have hkeeps : (after disk path events).disk.Keeps h.disk :=
    (advances_after hfresh events [.stop batch point] hfit hmended).keeps
  have hpinned := pinned_stop hc₀ hm batch point
  rw [← after_concat, ← hlimit] at hpinned
  have hfile : (h.disk.node? (Corpus.filePath (Model.storagePath path) 0).place).isSome := by
    obtain ⟨node, hnode⟩ := Option.isSome_iff_exists.1 (exists_file hc₀ hm)
    rw [hkeeps.nodes hnode]
    rfl
  -- The index is closed, so all bytes are reserved.
  have hclosed : h.run.session.model = none := congrArg (·.run.session.model) (after_concat disk path events _)
  have hreserved : h.reserved path = total := reserved_of_closed path hclosed
  have hhanded := hc.handed
  rw [hreserved] at hhanded
  refine ⟨exists_openAt hc (hfit _ List.prefix_rfl) hvalid htimeout hpinned ((hc₀.opened m hm).2.of_keeps hkeeps) hfile,
    hhanded, fun later hlater hmended' => ?_⟩
  rw [← hreserved]
  exact (advances_after hfresh (events ++ [.stop batch point]) later hlater hmended').handed

/-! ### Crashes -/

/-- A bulk load, of which no manifest is committed, into files of one record each. A batch is refused within a record of
the next file. -/
def bulkLoad : List Event :=
  [.operation (.openAt { bulkLoad := true, maxFileSize := 1024 }),
    .operation (.put { Run.bulky 1 with streams := Streams.empty.advance ⟨1, 5⟩ } 0),
    .operation (.refuse (Run.bulky 2) 0 (some 5))]

/-- The next batch stops with its first sentence behind that part of a record and five bytes of the second in another
file. -/
def crash : Event :=
  .stop { Run.bulky 1 with
    streams := Streams.empty.advance ⟨1, 7⟩
    entries := (Run.bulky 1).entries ++ (Run.bulky 2).entries } (.writing 1 (some 5))

theorem recovered_after_crash : ∃ m',
    Model.openAt (after Run.emptyDisk Run.modelPath (bulkLoad ++ [crash])).run.session.durable Run.modelPath {} =
      (.ok m', (after Run.emptyDisk Run.modelPath (bulkLoad ++ [crash])).run.session.durable) ∧
      (after Run.emptyDisk Run.modelPath (bulkLoad ++ [crash])).Recovered m' ∧ m'.streams.get? 1 = some 5 ∧
      Corpus.bytesIn (after Run.emptyDisk Run.modelPath (bulkLoad ++ [crash])).disk (Model.storagePath Run.modelPath) =
        560 + (5 + 560) + 5 := by
  obtain ⟨m, hm⟩ : ∃ m, (after Run.emptyDisk Run.modelPath bulkLoad).run.session.model = some m :=
    Option.isSome_iff_exists.1 (by decide +kernel)
  have hfit : ∀ before ∈ (bulkLoad ++ [crash]).inits, (after Run.emptyDisk Run.modelPath before).disk.Fits := by
    decide +kernel
  have hlimit : ({} : Config).prefixLength = m.config.prefixLength := by
    have h : (after Run.emptyDisk Run.modelPath bulkLoad).run.session.model.map (·.config.prefixLength) = some 4 := by
      decide +kernel
    rw [hm] at h
    exact (Option.some.inj h).symm
  have hpositions : (after Run.emptyDisk Run.modelPath (bulkLoad ++ [crash])).positions.get? 1 = some 5 := by
    decide +kernel
  obtain ⟨⟨m', hopen, hrecovered⟩, -⟩ := recovered_after Run.emptyDisk Run.modelPath bulkLoad _ _ m {} unused_emptyDisk
    (fun before hb => hfit before ((List.mem_inits _ _).2 hb)) (by decide +kernel) hm hlimit (by decide +kernel)
    (by decide +kernel)
  refine ⟨m', hopen, hrecovered, ?_, by decide +kernel⟩
  rw [hrecovered.streams]
  exact hpositions

/-- A sentence is refused within its record, while the corpus stays open. -/
def leftBehind : List Event :=
  [.operation (.openAt { maxFileSize := 1024 }), .operation (.put (Run.bulky 1) 0),
    .operation (.refuse (Run.sevens 3 ∅) 0 (some 5))]

/-- The next batch begins another file and commits a manifest that does not tell of those five bytes. -/
theorem lockedOut_leftBehind : ∃ m e, (after Run.emptyDisk Run.modelPath leftBehind).run.session.model = some m ∧
    (Model.openAt (after Run.emptyDisk Run.modelPath
      (leftBehind ++ [.stop (Run.bulky 2) .ended])).run.session.durable Run.modelPath m.config).1 = .error e := by
  have hopen : (after Run.emptyDisk Run.modelPath leftBehind).run.session.model.map (fun m =>
      (Model.openAt (after Run.emptyDisk Run.modelPath
        (leftBehind ++ [.stop (Run.bulky 2) .ended])).run.session.durable Run.modelPath m.config).1.isOk) =
      some false := by
    decide +kernel
  obtain ⟨m, hm, hrefused⟩ := Option.map_eq_some_iff.1 hopen
  obtain ⟨e, he⟩ := exists_error_of_isOk hrefused
  exact ⟨m, e, hm, he⟩

end History

end PhraseIndex
