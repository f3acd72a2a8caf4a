import Mathlib.Data.List.Infix
import PhraseIndex.Proofs.Positions
import PhraseIndex.Proofs.Reading

/-!
# An index that can always be read

An index is `Store.Legible` for a prefix length when each of its keys is well formed and its value is one that the
readers of this kind of key take. An operation pins a prefix length, takes records away or commits a batch
(`Store.Becomes`), and all of these keep the index legible (`Store.Becomes.legible`), also when the operation fails. So
no reader ever meets a record of the index that it cannot decode (`Run.legible_after`). In the corpus a sampler may meet
one, where sentences are committed behind a part of a record (`Run.garbled_refusedHeader`).
-/

namespace PhraseIndex

/-! ## Legible records -/

/-- What the value of a key may be. -/
def Key.Admits : Key → Bytes → Prop
  | streams, value => ∃ streams, Streams.decode value = .ok streams
  | manifest, value => ∃ manifest, Manifest.decode value = .ok manifest
  | source .., value => value ≠ [] ∧ value.length % Posting.width = 0
  | target _, value => value.length = 8
  | deletion _, value => value = []

/-- Every key is well formed and has a value that it admits. -/
def Store.Legible (s : Store) (limit : PrefixLength) : Prop :=
  ∀ key value, s.get? key = some value → ∃ k : Key, k.WellFormed limit ∧ k.encode = key ∧ k.Admits value

section Admitted

variable {s s' : Store} {limit : PrefixLength} {k : Key} {phrase : Phrase} {domain : Domain} {value : Bytes}
  {placed : List Placement} {deletions : DomainSet} {streams : Streams} {manifest : Option Manifest}
  {stats : CommitStats}

theorem Store.Legible.admits (h : s.Legible limit) (hk : k.WellFormed limit) (hv : s.get? k.encode = some value) :
    k.Admits value := by
  obtain ⟨k', hk', hencode, hadmits⟩ := h _ _ hv
  rwa [← Key.encode_inj hk' hk hencode]

/-- A manifest with more files than can be counted is read back too, if not as it was. -/
theorem Manifest.exists_decode_encode (m : Manifest) : ∃ m', decode m.encode = .ok m' := by
  have hempty : m.encode.isEmpty = false := by
    rw [Bool.eq_false_iff, ne_eq, List.isEmpty_iff, ← List.length_eq_zero_iff]
    simp only [encode, Binary.sequence, List.length_append, Bytes.length_le, Binary.u32]
    omega
  -- The count is taken modulo its width, so that many files are read and the others are left over.
  let n := m.files.length % Nat.pow 256 8
  have hsplit : m.files.flatMap encodeFile =
      (m.files.take n).flatMap encodeFile ++ (m.files.drop n).flatMap encodeFile := by
    rw [← List.flatMap_append, List.take_append_drop]
  have hlen : (m.files.take n).length = n := by
    rw [List.length_take, Nat.min_eq_left (Nat.mod_le _ _)]
  have hmany := Binary.readMany_flatMap (fun f rest => readFile_append f rest) (m.files.take n)
    ((m.files.drop n).flatMap encodeFile)
  rw [hlen, ← hsplit] at hmany
  have hfiles : Binary.readSequence readFile (Binary.sequence encodeFile m.files) =
      some (m.files.take n, (m.files.drop n).flatMap encodeFile) := by
    rw [Binary.readSequence, Binary.sequence, Binary.bind_of_some (Binary.readNat_le 8 m.files.length _)]
    exact hmany
  have hread : readManifest m.encode = some (⟨m.version, m.files.take n⟩, (m.files.drop n).flatMap encodeFile) := by
    rw [readManifest, encode, Binary.bind_of_some (Binary.readU32_append _ _), Binary.bind_of_some hfiles]
    rfl
  rw [decode, hempty, Binary.decode?_of_some hread]
  exact ⟨_, rfl⟩

theorem Store.Sound.admits_source (h : s.Sound limit) (hk : (Key.source phrase domain).WellFormed limit)
    (hv : s.get? (Key.source phrase domain).encode = some value) : (Key.source phrase domain).Admits value := by
  obtain ⟨ps, hps⟩ := h.postings hk
  rw [hv, PostingList.record] at hps
  split at hps
  · cases hps
  · next hne =>
    cases hps
    have hpos : 0 < ps.length * Posting.width := Nat.mul_pos (List.length_pos_iff.2 hne) (by decide)
    rw [← PostingList.length_bytes_ofList] at hpos
    exact ⟨List.ne_nil_of_length_pos hpos, by rw [PostingList.length_bytes_ofList, Nat.mul_mod_left]⟩

theorem Store.Sound.admits_target (h : s.Sound limit) (hk : (Key.target phrase).WellFormed limit)
    (hv : s.get? (Key.target phrase).encode = some value) : (Key.target phrase).Admits value := by
  obtain ⟨n, hn⟩ := h.counts hk
  rw [hv, Count.record] at hn
  split at hn
  · cases hn
  · cases hn
    exact Bytes.length_be 8 _

/-- Whatever a batch puts is admitted. -/
theorem admits_of_mem_puts {fragments : Fragments}
    (hp : (k.encode, value) ∈ (Model.commitOf fragments deletions streams manifest).puts) : k.Admits value := by
  rcases mem_puts_commitOf.1 hp with ⟨d, -, he⟩ | he | ⟨m, -, he⟩
  · obtain ⟨hkey, rfl⟩ := Prod.mk.inj he
    have hkind := Key.kind_eq_of_encode_eq (l := .deletion d) hkey
    cases k with
    | deletion => rfl
    | streams | manifest | source | target => cases hkind
  · obtain ⟨hkey, rfl⟩ := Prod.mk.inj he
    have hkind := Key.kind_eq_of_encode_eq (l := .streams) hkey
    cases k with
    | streams => exact ⟨streams, streams.decode_encode⟩
    | manifest | source | target | deletion => cases hkind
  · obtain ⟨hkey, rfl⟩ := Prod.mk.inj he
    have hkind := Key.kind_eq_of_encode_eq (l := .manifest) hkey
    cases k with
    | manifest => exact m.exists_decode_encode
    | streams | source | target | deletion => cases hkind

/-- The commit of a batch leaves the index legible. -/
theorem Store.Legible.commit (h : s.Legible limit) (hs : s.Sound limit)
    (hc : s.commit (Model.commitOf (Fragments.ofPairs limit placed) deletions streams manifest) = .ok (stats, s')) :
    s'.Legible limit := by
  intro key value hv
  have hs' := hs.commit hc
  obtain ⟨k, hk, rfl⟩ := hs'.wellFormed hv
  refine ⟨k, hk, rfl, ?_⟩
  have hplain : k.kind ≠ .source → k.kind ≠ .target → k.Admits value := by
    intro hsource htarget
    have hnil : (Model.commitOf (Fragments.ofPairs limit placed) deletions streams manifest).operandsOf k.encode =
        [] := by
      by_contra hops
      obtain ⟨l, -, hl, hkind⟩ := Fragments.wellFormed_of_merges hops
      rw [Key.kind_eq_of_encode_eq hl] at hkind
      exact hkind.elim hsource htarget
    rw [get?_commitOf hc, mergedAt, if_pos hnil, Option.or_eq_some_iff] at hv
    rcases hv with hput | ⟨-, hold⟩
    · exact admits_of_mem_puts (mem_valuesOf.1 (List.mem_of_getLast? hput))
    · exact h.admits hk hold
  cases k with
  | source phrase domain => exact hs'.admits_source hk hv
  | target phrase => exact hs'.admits_target hk hv
  | streams | manifest | deletion => exact hplain (fun h => by cases h) (fun h => by cases h)

end Admitted

/-! ## What becomes of an index -/

/-- What an operation comes to in the index. -/
inductive Store.Becomes (s s' : Store) : Prop
  /-- The prefix length is pinned, or it was before. -/
  | pinned {limit : PrefixLength} (hp : s.pin limit = .ok s')
  | removed (hl : s'.prefixLength = s.prefixLength) (hr : ∀ key, s'.get? key = none ∨ s'.get? key = s.get? key)
  | committed {limit : PrefixLength} {placed : List Placement} {deletions : DomainSet} {streams : Streams}
      {manifest : Option Manifest} {stats : CommitStats} (hl : s.prefixLength = some limit)
      (hc : s.commit (Model.commitOf (Fragments.ofPairs limit placed) deletions streams manifest) = .ok (stats, s'))

namespace Store

variable {s s' : Store}

theorem Becomes.refl (s : Store) : s.Becomes s := .removed rfl fun _ => .inr rfl

/-- A sound and legible index stays legible, for the prefix length that it is pinned to or for any while there is
none. -/
theorem Becomes.legible (h : s.Becomes s') (hs : ∀ limit, s.prefixLength.getD limit = limit → s.Sound limit)
    (hlegible : ∀ limit, s.prefixLength.getD limit = limit → s.Legible limit) :
    ∀ limit, s'.prefixLength.getD limit = limit → s'.Legible limit := by
  intro limit hlimit
  cases h with
  | pinned hp =>
    obtain ⟨rfl, hl⟩ := pin_eq_ok_iff.1 hp
    rw [Option.getD_some] at hlimit
    subst hlimit
    exact hlegible _ (by rcases hl with hl | hl <;> rw [hl] <;> rfl)
  | removed hl hr =>
    intro key value hv
    rcases hr key with hn | he
    · rw [hn] at hv
      cases hv
    · rw [he] at hv
      exact hlegible limit (by rwa [hl] at hlimit) key value hv
  | @committed pinned placed deletions streams manifest stats hl hc =>
    have hpinned : s.prefixLength.getD pinned = pinned := by rw [hl, Option.getD_some]
    rw [prefixLength_commit hc, hl, Option.getD_some] at hlimit
    subst hlimit
    exact (hlegible _ hpinned).commit (hs _ hpinned) hc

end Store

namespace Run

variable {store : Store} {l : Ledger} {m : Model} {r : Run} {path : Path}

/-- A sweep only removes records. -/
theorem Opened.becomes (ho : Opened store l m) (hi : Indexed store l) :
    ∃ stats s', m.sweeper.sweep store = (.ok stats, { m.sweeper with pending := ∅ }, s') ∧ store.Becomes s' := by
  have hreadable : Sweeper.Readable m.sweeper.prefixLength (store.keysOf .source) := by
    rw [ho.sweeps]
    exact Sweeper.readable_of_sound (ho.reflects hi).sound
  obtain ⟨s', hs, hl, hgone, hrest⟩ := Sweeper.sweep_of_readable hreadable ho.batchSize
  refine ⟨_, s', hs, .removed hl fun key => ?_⟩
  by_cases hp : Sweeper.Purged m.sweeper.prefixLength m.sweeper.pending key
  · exact .inl (hgone key hp)
  · exact .inr (hrest key hp)

/-- An opening that is refused for its prefix length leaves the index, any other pins it. -/
theorem becomes_openAt (r : Run) (path : Path) (config : Config) :
    r.session.durable.store.Becomes (r.step path (.openAt config)).session.durable.store := by
  rw [step_openAt]
  rcases Model.openAt_cases r.session.durable path config with ⟨e, he⟩ | ⟨d₁, hp, hd⟩
  · rw [he]
    exact .refl _
  · obtain ⟨-, -, -, hpin⟩ := Model.prepare_eq_ok_iff.1 hp
    rcases hd with ⟨e, he⟩ | ⟨streams, manifest, corpus, disk, -, -, -, ⟨e, he⟩ | ⟨c, sweeper, -, -, he⟩⟩
    · rw [he]
      exact .pinned hpin
    · rw [he]
      exact .pinned hpin
    · rw [he]
      exact .pinned hpin

/-- Every operation pins, removes or commits, or leaves the index. -/
theorem becomes_step (h : r.Accounts) (path : Path) (op : Operation) :
    r.session.durable.store.Becomes (r.step path op).session.durable.store := by
  cases hm : r.session.model with
  | none =>
    cases op with
    | openAt config => exact becomes_openAt r path config
    | put | refuse | compact | sweep | sweepInBackground | close =>
      rw [step_of_closed path hm fun _ h => by cases h]
      exact .refl _
  | some m =>
    have ho := h.opened m hm
    cases op with
    | openAt config => exact becomes_openAt r path config
    | put batch seconds =>
      rcases step_put_cases path hm batch seconds with
        ⟨m', disk, hstep, -⟩ | ⟨m', placed, disk, stats, store, -, -, -, hcommit, -, -, hstep⟩
      · rw [hstep]
        exact .refl _
      · rw [hstep]
        exact .committed ho.pinned hcommit
    | refuse batch sentences torn =>
      obtain ⟨corpus, disk, -, -, hstep⟩ := step_refuse path hm batch sentences torn
      rw [hstep]
      exact .refl _
    | compact =>
      obtain ⟨m', store, hstep, -, -, -, rfl | ⟨-, stats, hc⟩⟩ := step_compact_cases path hm
      · rw [hstep]
        exact .refl _
      · rw [hstep]
        exact .committed ho.pinned hc
    | sweep =>
      obtain ⟨stats, s', hs, hbecomes⟩ := ho.becomes h.indexed
      obtain ⟨metrics, hstep⟩ := step_sweep path hm hs
      rwa [hstep]
    | sweepInBackground =>
      obtain ⟨stats, s', hs, hbecomes⟩ := ho.becomes h.indexed
      obtain ⟨metrics, hstep | hstep⟩ := step_sweepInBackground_cases path hm ho.pending hs
      · rw [hstep]
        exact .refl _
      · rwa [hstep]
    | close =>
      rw [step_close]
      exact .refl _

/-- The index of every run is legible. -/
theorem legible_store (disk : Disk) (path : Path) (ops : List Operation) :
    let s := (after disk path ops).session.durable.store
    ∀ limit, s.prefixLength.getD limit = limit → s.Legible limit := by
  induction ops using List.reverseRecOn with
  | nil =>
    intro s limit _ key value hv
    simp [s, after, start, Store.get?] at hv
  | append_singleton ops op ih =>
    have h := accounts_after disk path ops
    rw [after_append]
    exact (becomes_step h path op).legible (fun limit hl => (h.indexed limit hl).sound) ih

end Run

/-! ## Opening it -/

/-- What was stored cannot be read. -/
def Error.Garbled (e : Error) : Prop := e.kind = .corruption ∨ e.kind = .serialization

theorem Error.not_garbled {e : Error}
    (h : e.kind = .storage ∨ e.kind = .invalidArgument ∨ e.kind = .io ∨ e.kind = .abort) :
    ¬e.Garbled := by
  rintro (he | he) <;> rw [he] at h <;> simp at h

namespace Corpus

variable {disk disk' : Disk} {dir : Path} {e : Error}

theorem kind_of_openListed {base : Nat} {last : Bool} {entry : ManifestFile}
    (h : openListed disk dir base last entry = .error e) : e.kind = .storage := by
  unfold openListed at h
  rcases bind_eq_error_iff.1 h with hbase | ⟨-, -, h⟩
  · exact kind_of_require hbase
  rcases bind_eq_error_iff.1 h with hmissing | ⟨-, -, h⟩
  · exact kind_of_require hmissing
  rcases bind_eq_error_iff.1 h with hfind | ⟨handle, -, h⟩
  · obtain ⟨cause, rfl⟩ := exists_of_mapError hfind
    rfl
  rcases bind_eq_error_iff.1 h with hsize | ⟨-, -, h⟩
  · exact kind_of_require hsize
  · cases h

theorem kind_of_listedFiles {base : Nat} {entries : List ManifestFile}
    (h : listedFiles disk dir base entries = .error e) : e.kind = .storage := by
  induction entries generalizing base with
  | nil => cases h
  | cons entry entries ih =>
    rcases bind_eq_error_iff.1 h with hone | ⟨file, -, h⟩
    · exact kind_of_openListed hone
    · rcases bind_eq_error_iff.1 h with hrest | ⟨files, -, h⟩
      · exact ih hrest
      · cases h

theorem kind_of_adoptedFiles {base : Nat} {ids : List UInt32} (h : adoptedFiles disk dir base ids = .error e) :
    e.kind = .storage := by
  induction ids generalizing base with
  | nil => cases h
  | cons id ids ih =>
    rcases bind_eq_error_iff.1 h with hfind | ⟨handle, -, h⟩
    · obtain ⟨cause, rfl⟩ := exists_of_mapError hfind
      rfl
    · rcases bind_eq_error_iff.1 h with hrest | ⟨files, -, h⟩
      · exact ih hrest
      · cases h

theorem kind_of_removeStrays {places : List Place} (h : removeStrays disk places = (.error e, disk')) :
    e.kind = .storage := by
  induction places generalizing disk with
  | nil => cases h
  | cons place places ih =>
    unfold removeStrays at h
    split at h
    · exact ih h
    · cases h
      rfl

/-- A corpus that cannot be opened is a failure of the storage. -/
theorem kind_of_openAt {manifest : Manifest} {maxFileSize : Nat}
    (h : Corpus.openAt disk dir manifest maxFileSize = (.error e, disk')) : e.kind = .storage := by
  unfold Corpus.openAt openClearing at h
  split at h
  · cases h
    rfl
  · split at h
    · next hrun =>
      cases h
      rcases bind_eq_error_iff.1 hrun with hlisted | ⟨listed, -, hrun⟩
      · exact kind_of_listedFiles hlisted
      · rcases bind_eq_error_iff.1 hrun with hadopted | ⟨adopted, -, hrun⟩
        · exact kind_of_adoptedFiles hadopted
        · cases hrun
    · split at h
      · next hstrays =>
        cases h
        exact kind_of_removeStrays hstrays
      · unfold ofRun at h
        split at h
        · cases h
        · split at h
          · cases h
          · cases h
            rfl

end Corpus

namespace Model

variable {d d' : Durable} {path : Path} {config : Config} {e : Error}

theorem kind_of_validate (h : config.validate = .error e) : e.kind = .invalidArgument := by
  unfold Config.validate at h
  rcases bind_eq_error_iff.1 h with hlength | ⟨-, -, h⟩
  · exact kind_of_require hlength
  rcases bind_eq_error_iff.1 h with hbatch | ⟨-, -, h⟩
  · exact kind_of_require hbatch
  rcases bind_eq_error_iff.1 h with hseconds | ⟨-, -, hsize⟩
  · exact kind_of_require hseconds
  · exact kind_of_require hsize

/-- Preparation fails for what is asked, or the system refuses. -/
theorem kind_of_prepare (h : prepare d path config = .error e) : e.kind = .invalidArgument ∨ e.kind = .io := by
  unfold prepare at h
  rcases bind_eq_error_iff.1 h with hvalid | ⟨-, -, h⟩
  · exact .inl (kind_of_validate hvalid)
  rcases bind_eq_error_iff.1 h with hplace | ⟨-, -, h⟩
  · exact .inl (kind_of_require hplace)
  rcases bind_eq_error_iff.1 h with hmake | ⟨disk, -, h⟩
  · obtain ⟨cause, rfl⟩ := exists_of_mapError hmake
    exact .inr rfl
  rcases bind_eq_error_iff.1 h with hpin | ⟨store, -, h⟩
  · unfold Store.pin at hpin
    split at hpin
    · cases hpin
    · split at hpin
      · cases hpin
      · cases hpin
        exact .inl rfl
  · cases h

/-- The stream positions of a legible index can be read. -/
theorem exists_storedStreams {s : Store} {limit : PrefixLength} (h : s.Legible limit) :
    ∃ streams, storedStreams s = .ok streams := by
  unfold storedStreams
  cases hv : s.get? Key.streams.encode with
  | none => exact ⟨_, rfl⟩
  | some value => exact h.admits (k := .streams) trivial hv

/-- The manifest of a legible index can be read. -/
theorem exists_storedManifest {s : Store} {limit : PrefixLength} (h : s.Legible limit) :
    ∃ manifest, storedManifest s = .ok manifest := by
  unfold storedManifest
  cases hv : s.get? Key.manifest.encode with
  | none => exact ⟨_, rfl⟩
  | some value => exact h.admits (k := .manifest) trivial hv

/-- What keeps an index from being opened. -/
theorem cause_of_openAt (h : (openAt d path config).1 = .error e) :
    prepare d path config = .error e ∨ ∃ d₁, prepare d path config = .ok d₁ ∧
      (storedStreams d₁.store = .error e ∨ storedManifest d₁.store = .error e ∨
        (∃ manifest disk,
          Corpus.openAt d₁.disk (storagePath path) manifest config.maxFileSize.toNat = (.error e, disk)) ∨
        (config.sweepTimeout?.isSome = false ∧ e = .timeoutOverflow) ∨
        Sweeper.resume d₁.store config.prefixLength config.sweepBatch.toNat = .error e) := by
  unfold openAt at h
  split at h
  · next hp =>
    cases h
    exact .inl hp
  · next d₁ hp =>
    refine .inr ⟨d₁, hp, ?_⟩
    split at h
    · next hs =>
      cases h
      exact .inl hs
    · next hm _ =>
      cases h
      exact .inr (.inl hm)
    · next manifest _ _ =>
      split at h
      · next disk hc =>
        cases h
        exact .inr (.inr (.inl ⟨manifest, disk, hc⟩))
      · rcases bind_eq_error_iff.1 h with ht | ⟨_, -, h⟩
        · obtain ⟨hnone, he⟩ := require_eq_error_iff.1 ht
          exact .inr (.inr (.inr (.inl ⟨hnone, he.symm⟩)))
        rcases bind_eq_error_iff.1 h with hw | ⟨sweeper, -, h⟩
        · exact .inr (.inr (.inr (.inr hw)))
        · cases h

/-- Whatever keeps an index from being opened, it is not what the index holds. -/
theorem not_garbled_openAt (hs : ∀ limit, d.store.prefixLength.getD limit = limit → d.store.Sound limit)
    (hl : ∀ limit, d.store.prefixLength.getD limit = limit → d.store.Legible limit)
    (h : (openAt d path config).1 = .error e) : ¬e.Garbled := by
  rcases cause_of_openAt h with hp | ⟨d₁, hp, hcause⟩
  · exact Error.not_garbled (.inr ((kind_of_prepare hp).imp_right .inl))
  obtain ⟨-, -, -, hpin⟩ := prepare_eq_ok_iff.1 hp
  have hlegible : d₁.store.Legible config.prefixLength := by
    refine (Store.Becomes.pinned hpin).legible hs hl _ ?_
    rw [(Store.pin_eq_ok_iff.1 hpin).1, Option.getD_some]
  have hsound : d₁.store.Sound config.prefixLength := by
    obtain ⟨hstore, hpinned⟩ := Store.pin_eq_ok_iff.1 hpin
    have h : d.store.Sound config.prefixLength :=
      hs _ (by rcases hpinned with hpinned | hpinned <;> rw [hpinned] <;> rfl)
    rw [hstore]
    exact ⟨h.wellFormed, h.postings, h.counts⟩
  rcases hcause with hstreams | hmanifest | ⟨manifest, disk, hc⟩ | ⟨-, rfl⟩ | hw
  · obtain ⟨streams, hok⟩ := exists_storedStreams hlegible
    cases hstreams.symm.trans hok
  · obtain ⟨manifest, hok⟩ := exists_storedManifest hlegible
    cases hmanifest.symm.trans hok
  · exact Error.not_garbled (.inl (Corpus.kind_of_openAt hc))
  · exact Error.not_garbled (.inr (.inr (.inr rfl)))
  · obtain ⟨deleted, hdeleted, -⟩ := hsound.markedDomains
    rw [Sweeper.resume, hdeleted] at hw
    cases hw

end Model

/-! ## Asking it -/

/-- Whatever an open index is asked is answered. -/
structure Model.Answers (m : Model) (d : Durable) : Prop where
  count : ∀ side phrase, ∃ n, m.count d.store side phrase = .ok n
  scan : ∀ entry ∈ (m.scan d.store).entries, ∃ e, entry = .ok e
  sampler : ∀ context background, ∃ w, m.sampler d.store context background = .ok w
  sweep : ∃ stats, (m.sweep d).1 = .ok stats
  sweepInBackground : ∃ stats, (m.sweeper.sweepInBackground d.store).1 = .ok stats

namespace Run

variable {l : Ledger} {m : Model} {d : Durable} {r : Run} {path : Path}

theorem Opened.answers (ho : Opened d.store l m) (hi : Indexed d.store l) : m.Answers d where
  count side phrase := (ho.reflects hi).sound.exists_count side phrase
  scan _ he := (ho.reflects hi).sound.ok_of_mem_entries he
  sampler context background := by
    obtain ⟨w, hw, -⟩ := (ho.reflects hi).sound.exists_create context background
    exact ⟨w, hw⟩
  sweep := by
    obtain ⟨stats, s', hs, -⟩ := ho.sweep hi
    exact ⟨stats, by rw [Model.sweep, hs]⟩
  sweepInBackground := by
    obtain ⟨stats, s', hs, -⟩ := ho.sweep hi
    unfold Sweeper.sweepInBackground
    split
    · exact ⟨{}, rfl⟩
    · exact ⟨stats, by rw [hs]⟩

/-- The corpus has a sentence pair for each posting that an open index lists, so every sampler is served. -/
theorem Kept.serves (h : r.Kept path) (ha : r.Accounts) (hm : r.session.model = some m) {w : Sampler}
    (hw : w.prefixLength = m.config.prefixLength) :
    w.Serves ⟨r.session.durable.store, m.corpus, r.session.durable.disk⟩ := by
  have hr := (ha.opened m hm).reflects ha.indexed
  obtain ⟨-, manifest, -, hretains⟩ := h.opened hm
  refine ⟨by rw [hw]; exact hr.sound, ?_⟩
  rintro domain p ⟨-, words, ps, hps, hp⟩
  rw [hw] at hps
  rw [hr.eq_of_lists hps] at hp
  obtain ⟨pair, start, hlive, hdomain, -⟩ := mem_postingsOf.1 hp
  have hpair := hretains.retrieved _ (h.live.subset hlive)
  exact ⟨pair, hdomain, hpair⟩

/-- After every run the index is legible for the prefix length that it is pinned to, or for any while there is none.
While it is open it answers whatever it is asked, and so does any sampler of its prefix length if the run is mended, it
began without corpus files and the disk could hold what was written. It may fail to be opened, but not for what it
holds. -/
theorem legible_after (disk : Disk) (path : Path) (ops : List Operation) :
    let d := (after disk path ops).session.durable
    (∀ limit, d.store.prefixLength.getD limit = limit → d.store.Legible limit) ∧
      (∀ m ∈ (after disk path ops).session.model, m.Answers d ∧
        ((∀ id, disk.node? (Corpus.filePath (Model.storagePath path) id).place = none) →
          (∀ before, before <+: ops → (after disk path before).session.durable.disk.Fits) → Mended disk path ops →
          ∀ (w : Sampler) (shuffle : Shuffle) (phrase : Phrase) (limit : Nat), w.prefixLength = m.config.prefixLength →
            ∃ samples, (w.extend d.store m.corpus d.disk shuffle phrase limit).1 = .ok samples)) ∧
      ∀ config e, (Model.openAt d path config).1 = .error e → ¬e.Garbled := by
  intro d
  have h := accounts_after disk path ops
  have hlegible := legible_store disk path ops
  refine ⟨hlegible, fun m hm => ⟨(h.opened m hm).answers h.indexed, ?_⟩, fun config e he => ?_⟩
  · intro hfresh hfit hmended w shuffle phrase limit hw
    obtain ⟨samples, -, hsamples, -⟩ := Sampler.extendThrough_spec
      (fun _ : Nat => (kept_after hfresh ops hfit hmended).serves h hm hw) shuffle phrase limit
    rw [Sampler.extendThrough_const] at hsamples
    exact ⟨samples, hsamples⟩
  · exact Model.not_garbled_openAt (fun limit hl => (h.indexed limit hl).sound) hlegible he

/-! ### Runs -/

/-- A batch is refused within a record, an opening with another prefix length is rejected; then a bulk load deletes the
domain of the first batch, and its state is made durable. -/
def reloading : List Operation :=
  [.openAt {}, .put (sevens 1 ∅) 0, .refuse (sevens 3 ∅) 0 (some 8), .openAt { prefixLength := 3 },
    .openAt { bulkLoad := true }, .put (sevens 2 {1}) 0, .compact]

theorem legible_after_reloading : ∃ m, (after emptyDisk modelPath reloading).session.model = some m ∧
    (after emptyDisk modelPath reloading).session.durable.store.Legible 4 ∧
    m.Answers (after emptyDisk modelPath reloading).session.durable ∧
    ∃ samples, (Sampler.extend ⟨4, [], false, true, ∅, []⟩ (after emptyDisk modelPath reloading).session.durable.store
      m.corpus (after emptyDisk modelPath reloading).session.durable.disk .none [7, 7] 0).1 = .ok samples := by
  obtain ⟨m, hm⟩ : ∃ m, (after emptyDisk modelPath reloading).session.model = some m :=
    Option.isSome_iff_exists.1 (by decide +kernel)
  have hfit : ∀ before ∈ reloading.inits, (after emptyDisk modelPath before).session.durable.disk.Fits := by
    decide +kernel
  have hlimit : m.config.prefixLength = 4 := by
    have h : (after emptyDisk modelPath reloading).session.model.map (·.config.prefixLength) = some 4 := by
      decide +kernel
    rw [hm] at h
    exact Option.some.inj h
  have hpinned : (after emptyDisk modelPath reloading).session.durable.store.prefixLength = some 4 := by
    decide +kernel
  obtain ⟨hlegible, hopen, -⟩ := legible_after emptyDisk modelPath reloading
  obtain ⟨hanswers, hextend⟩ := hopen m hm
  refine ⟨m, hm, hlegible 4 (by rw [hpinned]; rfl), hanswers, ?_⟩
  exact hextend node?_emptyDisk (fun before hb => hfit before ((List.mem_inits _ _).2 hb)) (by decide +kernel) _ _ _ _
    hlimit.symm

/-- A batch is refused after the header of its record, and two others go to the corpus that is still open. -/
def refusedHeader : List Operation :=
  [.openAt {}, .refuse (sevens 3 ∅) 0 (some 8), .put (sevens 1 ∅) 0, .put (sevens 2 ∅) 0]

/-- The second of them is looked for where the alignment of the first one ends. The zeros that are there have the
checksum of an empty record. -/
theorem garbled_refusedHeader : ∃ m w e, (after emptyDisk modelPath refusedHeader).session.model = some m ∧
    m.sampler (after emptyDisk modelPath refusedHeader).session.durable.store [⟨2, ⟨0⟩⟩] false = .ok w ∧
    (w.extend (after emptyDisk modelPath refusedHeader).session.durable.store m.corpus
      (after emptyDisk modelPath refusedHeader).session.durable.disk .none [7, 7] 0).1 = .error e ∧ e.Garbled := by
  have hextend : (after emptyDisk modelPath refusedHeader).session.model.map (fun m =>
      (m.sampler (after emptyDisk modelPath refusedHeader).session.durable.store [⟨2, ⟨0⟩⟩] false).toOption.map fun w =>
        (fun _ => ()) <$> (w.extend (after emptyDisk modelPath refusedHeader).session.durable.store m.corpus
          (after emptyDisk modelPath refusedHeader).session.durable.disk .none [7, 7] 0).1) =
        some (some (.error .unexpectedEnd)) := by
    decide +kernel
  obtain ⟨m, hm, hextend⟩ := Option.map_eq_some_iff.1 hextend
  obtain ⟨w, hw, hextend⟩ := Option.map_eq_some_iff.1 hextend
  exact ⟨m, w, _, hm, toOption_eq_some_iff.1 hw, map_eq_error_iff.1 hextend, .inr rfl⟩

end Run

end PhraseIndex
