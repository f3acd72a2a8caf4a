import PhraseIndex.Proofs.Accounts
import PhraseIndex.Proofs.Tearing

/-!
# Every posting points at its sentence

The index and the corpus are not written at one moment: a batch that fails leaves sentences behind in the corpus, and
under a bulk load the committed manifest falls behind. Still, the sentences of the ledger are stored at their offsets
(`Run.kept_after`), as long as nothing is committed behind a part of a record before the corpus is opened again. So
whatever posting stands in the index, the corpus gives back the sentence that it was made for (`Run.retrieve_after`). A
sentence that is committed there may be read back wrong (`Run.misread_refusedWithin`).
-/

namespace PhraseIndex

/-! ## Postings of placed sentences -/

/-- The order of a posting list: by offset, then by position. -/
def Posting.Before (p q : Posting) : Prop := p.offset < q.offset ∨ p.offset = q.offset ∧ p.start < q.start

/-- A position that a posting can hold is read back from it. -/
theorem toNat_position {n : Nat} (h : n ≤ Model.sentenceLimit) : (UInt16.ofNat n).toNat = n :=
  UInt16.toNat_ofNat_of_lt (Nat.lt_succ_of_le h)

theorem mem_postingsOf {phrase : Phrase} {domain : Domain} {placed : List Placement} {p : Posting} :
    p ∈ postingsOf phrase domain placed ↔ ∃ pair start, (pair, p.offset) ∈ placed ∧ pair.domain = domain ∧
      start ∈ pair.source.occurrences phrase ∧ p.domain = domain ∧ p.start = UInt16.ofNat start := by
  simp only [postingsOf, List.mem_flatMap, List.mem_filter, beq_iff_eq, List.mem_map, Prod.exists]
  constructor
  · rintro ⟨pair, offset, ⟨hp, hd⟩, start, hs, rfl⟩
    exact ⟨pair, start, hp, hd, hs, rfl, rfl⟩
  · rintro ⟨pair, start, hp, hd, hs, rfl, hstart⟩
    exact ⟨pair, p.offset, ⟨hp, hd⟩, start, hs, by rw [← hstart]⟩

/-- Where a phrase occurs it can be cut out. -/
theorem Sentence.slice?_of_mem_occurrences {s : Sentence} {phrase : Phrase} {start : Nat}
    (h : start ∈ s.occurrences phrase) : start ≤ s.length ∧ s.slice? start phrase.length = some phrase := by
  obtain ⟨hle, hp⟩ := mem_occurrences.1 h
  have hlen := hp.length_le
  rw [List.length_drop] at hlen
  refine ⟨hle, ?_⟩
  rw [slice?, if_pos (by omega)]
  exact congrArg some (List.prefix_iff_eq_take.1 hp).symm

/-- Sentences with increasing offsets have increasing postings. -/
theorem postingsOf_pairwise {phrase : Phrase} {domain : Domain} {placed : List Placement}
    (hlengths : ∀ p ∈ placed, p.1.source.length ≤ Model.sentenceLimit) (ho : placed.Pairwise fun p q => p.2 < q.2) :
    (postingsOf phrase domain placed).Pairwise Posting.Before := by
  refine List.pairwise_flatMap.2 ⟨?_, (ho.filter _).imp fun {p q} hlt => ?_⟩
  · intro p hp
    obtain ⟨pair, offset⟩ := p
    have hlen := hlengths _ (List.mem_filter.1 hp).1
    refine List.pairwise_map.2 ((Sentence.occurrences_pairwise _ _).imp_of_mem fun {i j} hi hj hij => .inr ⟨rfl, ?_⟩)
    have hi' := (Sentence.slice?_of_mem_occurrences hi).1
    have hj' := (Sentence.slice?_of_mem_occurrences hj).1
    rw [UInt16.lt_iff_toNat_lt, toNat_position (hi'.trans hlen), toNat_position (hj'.trans hlen)]
    exact hij
  · intro x hx y hy
    obtain ⟨i, -, rfl⟩ := List.mem_map.1 hx
    obtain ⟨j, -, rfl⟩ := List.mem_map.1 hy
    exact .inl hlt

/-- A source record holds the postings of a phrase and a domain. -/
theorem Store.Reflects.postings_of_source {s : Store} {limit : PrefixLength} {live all : List Placement}
    {deleted : DomainSet} {key value : Bytes} (h : s.Reflects limit live all deleted) (hv : s.get? key = some value)
    (hk : Key.kindOf? key = some .source) : ∃ phrase domain, (Key.source phrase domain).WellFormed limit ∧
      (Key.source phrase domain).encode = key ∧ PostingList.decode value = .ok (postingsOf phrase domain live) := by
  obtain ⟨k, hwf, rfl⟩ := h.wellFormed hv
  rw [Key.kindOf?_encode] at hk
  cases k with
  | streams | manifest | target | deletion => simp [Key.kind] at hk
  | source phrase domain =>
    rw [h.postings hwf, PostingList.record] at hv
    split at hv
    · cases hv
    · cases hv
      exact ⟨phrase, domain, hwf, rfl, PostingList.decode_ofList _⟩

/-! ## The committed manifest -/

namespace Store

variable {s s' : Store} {limit : PrefixLength} {placed : List Placement} {deletions : DomainSet} {streams : Streams}
  {manifest : Option Manifest} {stats : CommitStats}

theorem get?_manifest_commit
    (hc : s.commit (Model.commitOf (Fragments.ofPairs limit placed) deletions streams manifest) = .ok (stats, s')) :
    s'.get? Key.manifest.encode = (manifest.map Manifest.encode).or (s.get? Key.manifest.encode) := by
  have hnil : (Model.commitOf (Fragments.ofPairs limit placed) deletions streams manifest).operandsOf
      Key.manifest.encode = [] := by
    by_contra hops
    obtain ⟨k, -, he, hkind⟩ := Fragments.wellFormed_of_merges hops
    rw [Key.kind_eq_of_encode_eq (l := .manifest) he] at hkind
    simp [Key.kind] at hkind
  rw [get?_commitOf hc, valuesOf_puts_manifest, mergedAt, if_pos hnil]
  cases manifest <;> rfl

/-- A batch without a manifest leaves the committed one. -/
theorem storedManifest_commit_none
    (hc : s.commit (Model.commitOf (Fragments.ofPairs limit placed) deletions streams none) = .ok (stats, s')) :
    Model.storedManifest s' = Model.storedManifest s := by
  rw [Model.storedManifest, get?_manifest_commit hc]
  rfl

/-- A batch with a manifest commits it. -/
theorem storedManifest_commit_some {m : Manifest} (hlen : m.files.length < 2 ^ 64)
    (hc : s.commit (Model.commitOf (Fragments.ofPairs limit placed) deletions streams (some m)) = .ok (stats, s')) :
    Model.storedManifest s' = .ok m := by
  rw [Model.storedManifest, get?_manifest_commit hc]
  exact Manifest.decode_encode hlen

end Store

/-! ## The corpus keeps to the ledger -/

namespace Run

/-- The committed manifest is one of an earlier time, and the sentences of the ledger are stored. -/
structure Kept (path : Path) (r : Run) : Prop where
  corpus : ∃ files manifest, Model.storedManifest r.session.durable.store = .ok manifest ∧
    Corpus.Kept r.session.durable.disk (Model.storagePath path) files manifest.files r.ledger.all ∧
    ∀ m ∈ r.session.model, m.corpus.dir = Model.storagePath path ∧
      m.corpus.Retains r.session.durable.disk manifest.files r.ledger.all
  lengths : ∀ p ∈ r.ledger.all, p.1.source.length ≤ Model.sentenceLimit
  live : r.ledger.live.Sublist r.ledger.all

variable {r : Run} {path : Path} {model : Model}

/-- No corpus file is there before the index is first opened. -/
theorem kept_start {disk : Disk}
    (hfresh : ∀ id, disk.node? (Corpus.filePath (Model.storagePath path) id).place = none) :
    (start disk).Kept path where
  corpus := ⟨[], .empty, rfl, Corpus.Filed.kept ⟨trivial, fun id _ => hfresh id⟩, Session.of_closed⟩
  lengths := nofun
  live := .refl _

/-- The files lie deeper than the directory of the keyspace. -/
theorem length_indexPlace_lt (path : Path) (id : UInt32) :
    (Model.indexPlace path.place).length < (Corpus.filePath (Model.storagePath path) id).place.length := by
  simp [Model.indexPlace, Corpus.filePath_place, Model.storagePath, Path.join]

theorem kept_openAt (h : r.Kept path) (hfit : r.session.durable.disk.Fits) (config : Config) :
    (r.step path (.openAt config)).Kept path := by
  obtain ⟨files, manifest, hmanifest, hkept, -⟩ := h.corpus
  have hlen := (hkept.filed.laid.fits hfit).1
  rw [step_openAt]
  refine ⟨?_, h.lengths, h.live⟩
  rcases Model.openAt_cases r.session.durable path config with ⟨e, he⟩ | ⟨d₁, hp, hd⟩
  · rw [he]
    exact ⟨files, manifest, hmanifest, hkept, Session.of_closed⟩
  · obtain ⟨-, -, hmake, hpin⟩ := Model.prepare_eq_ok_iff.1 hp
    obtain ⟨hnode, hbytes⟩ := Disk.makeDirectories_eq hmake
    have hkept₁ := hkept.congr (fun id => hnode _ (length_indexPlace_lt path id)) hbytes
    have hmanifest₁ : Model.storedManifest d₁.store = .ok manifest := by
      rw [(Store.pin_eq_ok_iff.1 hpin).1]
      exact hmanifest
    rcases hd with ⟨e, he⟩ | ⟨streams, manifest', corpus, disk, -, hstored, hopen, hd⟩
    · rw [he]
      exact ⟨files, manifest, hmanifest₁, hkept₁, Session.of_closed⟩
    · rw [hmanifest₁] at hstored
      cases hstored
      obtain ⟨opened, hopened, hc⟩ := hkept₁.openAt hlen hopen
      rcases hd with ⟨e, he⟩ | ⟨c, sweeper, rfl, -, he⟩
      · rw [he]
        exact ⟨opened, manifest, hmanifest₁, hopened, Session.of_closed⟩
      · rw [he]
        refine ⟨opened, manifest, hmanifest₁, hopened, ?_⟩
        intro m hm
        cases hm
        obtain ⟨rfl, hdir⟩ := hc c rfl
        rw [← hdir] at hopened
        exact ⟨hdir, hopened.retains⟩

/-- The corpus of an open index is the one that the run keeps. -/
theorem Kept.opened (h : r.Kept path) (hm : r.session.model = some model) : model.corpus.dir = Model.storagePath path ∧
    ∃ manifest, Model.storedManifest r.session.durable.store = .ok manifest ∧
      model.corpus.Retains r.session.durable.disk manifest.files r.ledger.all := by
  obtain ⟨files, manifest, hmanifest, hkept, hopen⟩ := h.corpus
  obtain ⟨hdir, hretains⟩ := hopen model hm
  exact ⟨hdir, manifest, hmanifest, hretains⟩

theorem Kept.of_open {store : Store} {disk : Disk} {manifest : Manifest} {l : Ledger}
    (hdir : model.corpus.dir = Model.storagePath path) (hs : Model.storedManifest store = .ok manifest)
    (hr : model.corpus.Retains disk manifest.files l.all)
    (hlengths : ∀ p ∈ l.all, p.1.source.length ≤ Model.sentenceLimit) (hlive : l.live.Sublist l.all) :
    Kept path ⟨⟨⟨store, disk⟩, some model⟩, l⟩ where
  corpus := by
    have hkept := hr.kept
    rw [hdir] at hkept
    refine ⟨_, manifest, hs, hkept, ?_⟩
    intro m hm
    cases hm
    exact ⟨hdir, hr⟩
  lengths := hlengths
  live := hlive

section Open

variable (hm : r.session.model = some model)

include hm

/-- A batch that fails leaves what was stored, a committed one adds to it. -/
theorem kept_put (h : r.Kept path) (batch : UpdateBatch) (seconds : Float)
    (hready : model.Ready r.session.durable (.put batch seconds))
    (hfit : (r.step path (.put batch seconds)).session.durable.disk.Fits) :
    (r.step path (.put batch seconds)).Kept path := by
  obtain ⟨hdir, manifest, hmanifest, hretains⟩ := h.opened hm
  rcases step_put_cases path hm batch seconds with
    ⟨m', disk, hstep, -, -, ⟨hcorpus, rfl⟩ | ⟨offsets, ha⟩⟩ |
      ⟨m', placed, disk, stats, store, hok, hlengths, ha, hcommit, -, -, hstep⟩
  · rw [hstep]
    rw [← hcorpus] at hdir hretains
    exact .of_open hdir hmanifest hretains h.lengths h.live
  · rw [hstep] at hfit ⊢
    exact .of_open ((Corpus.grows_appendAll ha).dir.trans hdir) hmanifest (hretains.appendAll hfit ha) h.lengths h.live
  · rw [hstep] at hfit ⊢
    obtain ⟨hwhole, hsealed⟩ := hready hok
    obtain ⟨hplaced, hkeeps⟩ := hretains.place hwhole hfit ha
    have hdir' := (Corpus.grows_appendAll ha).dir.trans hdir
    have hsources : ∀ p ∈ r.ledger.all ++ batch.entries.zip placed, p.1.source.length ≤ Model.sentenceLimit := by
      intro p hp
      rcases List.mem_append.1 hp with hp | hp
      · exact h.lengths p hp
      · exact hlengths p.1 (List.of_mem_zip hp).1
    have hlive := h.live.append (.refl (batch.entries.zip placed))
    cases hb : model.config.bulkLoad with
    | true =>
      rw [Model.commitFor, if_pos hb] at hcommit
      exact .of_open hdir' ((Store.storedManifest_commit_none hcommit).trans hmanifest) hplaced hsources hlive
    | false =>
      rw [Model.commitFor, if_neg (Bool.eq_false_iff.1 hb)] at hcommit
      have hs := Store.storedManifest_commit_some (hplaced.length_manifest_lt hfit) hcommit
      exact .of_open hdir' hs (hplaced.present (hkeeps (hsealed hb)) hfit) hsources hlive

/-- A batch that the system refuses leaves what was stored. -/
theorem kept_refuse (h : r.Kept path) (batch : UpdateBatch) (sentences : Nat) (torn : Option Nat)
    (hfit : (r.step path (.refuse batch sentences torn)).session.durable.disk.Fits) :
    (r.step path (.refuse batch sentences torn)).Kept path := by
  obtain ⟨hdir, manifest, hmanifest, hretains⟩ := h.opened hm
  obtain ⟨corpus, disk, hb, hgrows, hstep⟩ := step_refuse path hm batch sentences torn
  rw [hstep] at hfit ⊢
  exact .of_open (hgrows.dir.trans hdir) hmanifest (hretains.breakOff hfit hb) h.lengths h.live

/-- A compaction commits the present manifest. -/
theorem kept_compact (h : r.Kept path) (hready : model.Ready r.session.durable .compact)
    (hfit : r.session.durable.disk.Fits) : (r.step path .compact).Kept path := by
  obtain ⟨hdir, manifest, hmanifest, hretains⟩ := h.opened hm
  obtain ⟨m', store, hstep, -, -, hcorpus, rfl | ⟨hb, stats, hc⟩⟩ := step_compact_cases path hm
  · rw [hstep]
    rw [← hcorpus] at hdir hretains
    exact .of_open hdir hmanifest hretains h.lengths h.live
  · have hsealed := hready hb
    rw [hstep]
    rw [← hcorpus] at hdir hretains hc hsealed
    have hs := Store.storedManifest_commit_some (hretains.length_manifest_lt hfit) hc
    exact .of_open hdir hs (hretains.present hsealed hfit) h.lengths h.live

/-- A sweep takes sentences out of the live ones and lets the manifest stand. -/
theorem kept_swept {store : Store} {sweeper : Sweeper} {metrics : Metrics} (h : r.Kept path)
    (hs : ∀ k : Key, k.kind ≠ .source → k.kind ≠ .deletion →
      store.get? k.encode = r.session.durable.store.get? k.encode) :
    Kept path ⟨⟨{ r.session.durable with store }, some { model with sweeper, metrics }⟩, r.ledger.sweep⟩ := by
  obtain ⟨hdir, manifest, hmanifest, hretains⟩ := h.opened hm
  have hsame : Model.storedManifest store = .ok manifest := by
    rw [Model.storedManifest, hs .manifest nofun nofun]
    exact hmanifest
  exact .of_open hdir hsame hretains h.lengths (List.filter_sublist.trans h.live)

theorem kept_sweep (h : r.Kept path) (ha : r.Accounts) : (r.step path .sweep).Kept path := by
  obtain ⟨stats, store, hs, -, -, hstays⟩ := (ha.opened model hm).sweep ha.indexed
  obtain ⟨metrics, hstep⟩ := step_sweep path hm hs
  rw [hstep]
  exact kept_swept hm h hstays

theorem kept_sweepInBackground (h : r.Kept path) (ha : r.Accounts) : (r.step path .sweepInBackground).Kept path := by
  have ho := ha.opened model hm
  obtain ⟨stats, store, hs, -, -, hstays⟩ := ho.sweep ha.indexed
  obtain ⟨metrics, hstep | hstep⟩ := step_sweepInBackground_cases path hm ho.pending hs
  · obtain ⟨hdir, manifest, hmanifest, hretains⟩ := h.opened hm
    rw [hstep]
    exact .of_open hdir hmanifest hretains h.lengths h.live
  · rw [hstep]
    exact kept_swept hm h hstays

end Open

/-- Every operation keeps the corpus to the ledger, as long as the disk holds what is written and what it commits is
right. -/
theorem kept_step (h : r.Kept path) (ha : r.Accounts) (op : Operation) (hready : r.session.Ready op)
    (hfit : r.session.durable.disk.Fits) (hfit' : (r.step path op).session.durable.disk.Fits) :
    (r.step path op).Kept path := by
  cases hm : r.session.model with
  | none =>
    cases op with
    | openAt config => exact kept_openAt h hfit config
    | put | refuse | compact | sweep | sweepInBackground | close =>
      rwa [step_of_closed path hm fun _ h => by cases h]
  | some model =>
    cases op with
    | openAt config => exact kept_openAt h hfit config
    | put batch seconds => exact kept_put hm h batch seconds (hready model hm) hfit'
    | refuse batch sentences torn => exact kept_refuse hm h batch sentences torn hfit'
    | compact => exact kept_compact hm h (hready model hm) hfit
    | sweep => exact kept_sweep hm h ha
    | sweepInBackground => exact kept_sweepInBackground hm h ha
    | close =>
      obtain ⟨files, manifest, hmanifest, hkept, -⟩ := h.corpus
      rw [step_close]
      exact ⟨⟨files, manifest, hmanifest, hkept, Session.of_closed⟩, h.lengths, h.live⟩

theorem after_append (disk : Disk) (path : Path) (ops : List Operation) (op : Operation) :
    after disk path (ops ++ [op]) = (after disk path ops).step path op := by
  rw [after, List.foldl_append]
  rfl

/-- The corpus keeps to the ledger through every run that is mended. -/
theorem kept_after {disk : Disk} (hfresh : ∀ id, disk.node? (Corpus.filePath (Model.storagePath path) id).place = none)
    (ops : List Operation) (hfit : ∀ before, before <+: ops → (after disk path before).session.durable.disk.Fits)
    (hmended : Mended disk path ops) : (after disk path ops).Kept path := by
  induction ops using List.reverseRecOn with
  | nil => exact kept_start hfresh
  | append_singleton ops op ih =>
    obtain ⟨hmended', hready⟩ := mended_concat.1 hmended
    have hbefore := ih (fun before hb => hfit before (hb.trans (List.prefix_append _ _))) hmended'
    have hlast := hfit _ List.prefix_rfl
    rw [after_append] at hlast ⊢
    exact kept_step hbefore (accounts_after disk path ops) op hready (hfit ops (List.prefix_append _ _)) hlast

/-- An index that counts all bytes of its corpus goes on to do so unless a write is refused within a record. -/
theorem whole_step (h : r.Kept path) (hw : r.session.Whole) {op : Operation} (ho : ¬op.Tears)
    (hfit : (r.step path op).session.durable.disk.Fits) : (r.step path op).session.Whole := by
  cases hm : r.session.model with
  | none =>
    cases op with
    | openAt config => exact Session.whole_openAt r.session path config
    | put | refuse | compact | sweep | sweepInBackground | close => rwa [step_of_closed path hm fun _ h => by cases h]
  | some m =>
    obtain ⟨-, manifest, -, hretains⟩ := h.opened hm
    have hexact : m.corpus.Exact r.session.durable.disk := fun _ => (hretains.kept_of_whole (hw m hm)).filed
    have htear : ∀ {c disk bytes} (pair : SentencePair), (0 < bytes → op.Tears) → Corpus.Exact c disk →
        (c.tear disk pair bytes).1.Exact (c.tear disk pair bytes).2 := by
      intro c disk bytes pair hb hc
      obtain rfl : bytes = 0 := Nat.eq_zero_of_not_pos fun hpos => ho (hb hpos)
      exact hc.tear_zero pair
    rcases Session.step_cases path hm op hexact.appendAll htear with ⟨config, rfl⟩ | rfl | ⟨m', hm', -, hexact'⟩
    · exact Session.whole_openAt r.session path config
    · exact Session.of_closed
    · intro m₁ hm₁
      cases hm'.symm.trans hm₁
      exact (hexact' hfit).whole

/-- A run in which the system refuses no write within a record is mended, and its corpus is whole. -/
theorem mended_of_untorn {disk : Disk}
    (hfresh : ∀ id, disk.node? (Corpus.filePath (Model.storagePath path) id).place = none) {ops : List Operation}
    (hfit : ∀ before, before <+: ops → (after disk path before).session.durable.disk.Fits)
    (hu : ∀ op ∈ ops, ¬op.Tears) : Mended disk path ops ∧ (after disk path ops).session.Whole := by
  induction ops using List.reverseRecOn with
  | nil => exact ⟨trivial, Session.of_closed⟩
  | append_singleton ops op ih =>
    have hbefore : ∀ before, before <+: ops → (after disk path before).session.durable.disk.Fits :=
      fun before hb => hfit before (hb.trans (List.prefix_append _ _))
    obtain ⟨hmended, hwhole⟩ := ih hbefore fun op ho => hu op (List.mem_append_left _ ho)
    have hlast := hfit _ List.prefix_rfl
    rw [after_append] at hlast ⊢
    have hkept := kept_after hfresh ops hbefore hmended
    refine ⟨mended_concat.2 ⟨hmended, hwhole.ready op⟩, ?_⟩
    exact whole_step hkept hwhole (hu op (List.mem_append_right _ List.mem_cons_self)) hlast

/-- The postings of a record are in strict order and in the domain, and the corpus gives back for each of them a live
sentence of the domain in which the phrase stands at the position. -/
def Resolves (m : Model) (disk : Disk) (live : List Placement) (phrase : Phrase) (domain : Domain) (value : Bytes) :
    Prop :=
  ∃ postings, PostingList.decode value = .ok postings ∧ postings ≠ [] ∧ postings.Pairwise Posting.Before ∧
    ∀ p ∈ postings, p.domain = domain ∧ ∃ pair, (pair, p.offset) ∈ live ∧ m.corpus.retrieve disk p.offset = .ok pair ∧
      pair.domain = domain ∧ pair.source.slice? p.start.toNat phrase.length = some phrase

/-- After every run that is mended each source record of an open index is that of a phrase of an admissible length and a
domain, and its postings resolve. -/
theorem retrieve_after (disk : Disk) (path : Path) (ops : List Operation) (m : Model) (key value : Bytes)
    (hfresh : ∀ id, disk.node? (Corpus.filePath (Model.storagePath path) id).place = none)
    (hfit : ∀ before, before <+: ops → (after disk path before).session.durable.disk.Fits)
    (hmended : Mended disk path ops) (hm : (after disk path ops).session.model = some m)
    (hv : (after disk path ops).session.durable.store.get? key = some value) (hk : Key.kindOf? key = some .source) :
    ∃ phrase domain, (Key.source phrase domain).WellFormed m.config.prefixLength ∧
      (Key.source phrase domain).encode = key ∧
      Resolves m (after disk path ops).session.durable.disk (after disk path ops).ledger.live phrase domain value := by
  have ha := accounts_after disk path ops
  have hr := (ha.opened m hm).reflects ha.indexed
  have hkept := kept_after hfresh ops hfit hmended
  obtain ⟨-, manifest, -, hretains⟩ := hkept.opened hm
  obtain ⟨k, hwf, rfl⟩ := hr.wellFormed hv
  rw [Key.kindOf?_encode] at hk
  cases k with
  | streams | manifest | target | deletion => simp [Key.kind] at hk
  | source phrase domain =>
    rw [hr.postings hwf, PostingList.record] at hv
    split at hv
    · cases hv
    · next hne =>
      cases hv
      have hlengths := fun p hp => hkept.lengths p (hkept.live.subset hp)
      refine ⟨phrase, domain, hwf, rfl, _, PostingList.decode_ofList _, hne,
        postingsOf_pairwise hlengths (hretains.kept.ordered.sublist hkept.live), fun p hp => ?_⟩
      obtain ⟨pair, start, hlive, hdomain, hstart, hp, hposition⟩ := mem_postingsOf.1 hp
      obtain ⟨hle, hslice⟩ := Sentence.slice?_of_mem_occurrences hstart
      have hpair := hretains.retrieved _ (hkept.live.subset hlive)
      refine ⟨hp, pair, hlive, hpair, hdomain, ?_⟩
      rw [hposition, toNat_position (hle.trans (hlengths _ hlive)), hslice]

/-! ### Runs -/

/-- A batch of one sentence pair with a record of 560 bytes. -/
def bulky (domain : Domain) : UpdateBatch where
  capacity := 0
  streams := .empty
  entries := [⟨domain, [7, 7], [9], List.replicate 128 ⟨0, 0⟩⟩]

/-- A bulk load into files of one record each, of which no manifest tells, ends with two batches that the system
refuses: one five bytes into the next file, the other behind its record. The index is opened again for files of the
usual size, and a batch deletes the domain of the first sentence, which is swept. -/
def continuation : List Operation :=
  [.openAt { bulkLoad := true, maxFileSize := 1024 }, .put (bulky 1) 0, .put (bulky 2) 0, .refuse (bulky 3) 0 (some 5),
    .refuse (bulky 4) 1 none, .openAt {}, .put (sevens 2 {1}) 0, .sweep]

/-- In an empty model directory no name is taken in the storage directory. -/
theorem free_emptyDisk (name : String) : emptyDisk.node? ((Model.storagePath modelPath).place ++ [name]) = none := by
  have hplace : (Model.storagePath modelPath).place ++ [name] = ["", "model", "storage", name] := rfl
  have hfree : (Disk.empty [""]).pathExists ["", "model"] = false := by decide +kernel
  rw [hplace, emptyDisk, Disk.addDirectory, hfree, Disk.empty, Disk.node?]
  simp

theorem node?_emptyDisk (id : UInt32) :
    emptyDisk.node? (Corpus.filePath (Model.storagePath modelPath) id).place = none :=
  free_emptyDisk (FileName.ofId id)

theorem retrieve_after_continuation : ∃ m value,
    (after emptyDisk modelPath continuation).session.model = some m ∧ m.corpus.files.map (·.size) = [560, 560, 621] ∧
      (after emptyDisk modelPath continuation).ledger.live.map (·.2) = [560, 1685] ∧
      (after emptyDisk modelPath continuation).session.durable.store.get? (Key.source [7, 7] 2).encode = some value ∧
      Resolves m (after emptyDisk modelPath continuation).session.durable.disk
        (after emptyDisk modelPath continuation).ledger.live [7, 7] 2 value := by
  have hopen : (after emptyDisk modelPath continuation).session.model.map
      (fun m => (m.config.prefixLength, m.corpus.files.map (·.size))) = some (4, [560, 560, 621]) := by
    decide +kernel
  obtain ⟨m, hm, hopen⟩ := Option.map_eq_some_iff.1 hopen
  obtain ⟨hlimit, hsizes⟩ := Prod.mk.inj hopen
  obtain ⟨value, hv⟩ : ∃ value,
      (after emptyDisk modelPath continuation).session.durable.store.get? (Key.source [7, 7] 2).encode = some value :=
    Option.isSome_iff_exists.1 (by decide +kernel)
  have hfit : ∀ before ∈ continuation.inits, (after emptyDisk modelPath before).session.durable.disk.Fits := by
    decide +kernel
  obtain ⟨phrase, domain, hwf, hkey, hr⟩ := retrieve_after emptyDisk modelPath continuation m _ value node?_emptyDisk
    (fun before hb => hfit before ((List.mem_inits _ _).2 hb)) (by decide +kernel) hm hv (Key.kindOf?_encode _)
  have hsevens : (Key.source [7, 7] 2).WellFormed m.config.prefixLength := by
    rw [hlimit]
    exact ⟨by decide, by decide⟩
  cases Key.encode_inj hwf hsevens hkey
  exact ⟨m, value, hm, hsizes, by decide +kernel, hv, hr⟩

/-- The system refuses a sentence after one byte, and the next batch goes to the corpus that is still open. -/
def refusedWithin : List Operation :=
  [.openAt {}, .put (sevens 1 ∅) 0, .refuse (sevens 3 ∅) 0 (some 1), .put (sevens 2 ∅) 0]

/-- Its posting points at that byte. -/
theorem misread_refusedWithin : ∃ m value, (after emptyDisk modelPath refusedWithin).session.model = some m ∧
    (after emptyDisk modelPath refusedWithin).session.durable.store.get? (Key.source [7, 7] 2).encode = some value ∧
    ¬Resolves m (after emptyDisk modelPath refusedWithin).session.durable.disk
      (after emptyDisk modelPath refusedWithin).ledger.live [7, 7] 2 value := by
  have hopen : (after emptyDisk modelPath refusedWithin).session.model.map
      (fun m => (m.corpus.retrieve (after emptyDisk modelPath refusedWithin).session.durable.disk 56).toOption) =
        some none := by
    decide +kernel
  have hstored : ((after emptyDisk modelPath refusedWithin).session.durable.store.get? (Key.source [7, 7] 2).encode).map
      (fun value => (PostingList.decode value).toOption) = some (some [⟨2, 56, 0⟩, ⟨2, 56, 1⟩]) := by
    decide +kernel
  obtain ⟨m, hm, hmisread⟩ := Option.map_eq_some_iff.1 hopen
  obtain ⟨value, hv, hpostings⟩ := Option.map_eq_some_iff.1 hstored
  refine ⟨m, value, hm, hv, ?_⟩
  rintro ⟨postings, hdecode, -, -, hall⟩
  rw [hdecode] at hpostings
  cases hpostings
  obtain ⟨-, pair, -, hretrieve, -⟩ := hall _ List.mem_cons_self
  rw [hretrieve] at hmisread
  cases hmisread

end Run

end PhraseIndex
