import PhraseIndex.Proofs.Adoption
import PhraseIndex.Proofs.Session

/-!
# Parts of records behind the corpus

When the system refuses a write within a record, a part of the record stays behind the bytes that the open corpus
counts, and what is appended later comes behind that part. An open corpus is `Whole` if it counts all bytes of its
files, and `Sealed` if it counts those of the full ones. Whole or not, it `Retains` what was placed before, however many
batches fail (`Corpus.Retains.appendAll`, `Corpus.Retains.tear`). What is committed is another matter. The offsets of
sentences are right if the corpus is whole, and the manifest is right if the corpus is sealed
(`Corpus.Retains.present`). Runs that commit nothing else are `Run.Mended`.
-/

namespace PhraseIndex

namespace Corpus

variable {disk disk' : Disk} {dir : Path} {base : Nat} {c c' : Corpus} {files more : List CorpusFile}
  {entries : List ManifestFile} {placed some : List Placement} {p : Placement} {pair : SentencePair}
  {pairs : List SentencePair}

/-! ## What an open corpus counts -/

/-- The corpus counts all bytes of its files. -/
def Whole (c : Corpus) (disk : Disk) : Prop := ∀ f ∈ c.files, f.size = (disk.bytes f.handle).length

/-- The corpus counts all bytes of the files that are full. -/
def Sealed (c : Corpus) (disk : Disk) : Prop := ∀ f ∈ c.full, f.size = (disk.bytes f.handle).length

instance (c : Corpus) (disk : Disk) : Decidable (c.Whole disk) := inferInstanceAs (Decidable (∀ f ∈ c.files, _ = _))

instance (c : Corpus) (disk : Disk) : Decidable (c.Sealed disk) := inferInstanceAs (Decidable (∀ f ∈ c.full, _ = _))

theorem Whole.sealed (h : c.Whole disk) : c.Sealed disk := fun f hf => h f (List.mem_append_left _ hf)

theorem Filed.whole (h : Filed disk dir c.files) : c.Whole disk := fun _ hf => h.laid.size hf

/-- The files as they stand on the disk, the first of them starting at `base`. -/
def measure (disk : Disk) : Nat → List CorpusFile → List CorpusFile
  | _, [] => []
  | base, f :: files => .ofDisk disk f.id base f.handle :: measure disk (base + (disk.bytes f.handle).length) files

theorem measure_append : measure disk base (files ++ more) =
    measure disk base files ++ measure disk (base + extent (measure disk base files)) more := by
  induction files generalizing base with
  | nil => rfl
  | cons f files ih =>
    rw [List.cons_append, measure, measure, ih, List.cons_append, extent_cons, Nat.add_assoc]
    rfl

theorem measure_congr (h : ∀ f ∈ files, disk'.bytes f.handle = disk.bytes f.handle) :
    measure disk' base files = measure disk base files := by
  induction files generalizing base with
  | nil => rfl
  | cons f files ih =>
    rw [measure, measure, ih fun g hg => h g (List.mem_cons_of_mem _ hg), CorpusFile.ofDisk, CorpusFile.ofDisk,
      h f List.mem_cons_self]

/-- Files whose bytes are all counted stand as they are. -/
theorem measure_of_contiguous (h : Contiguous base files)
    (hs : ∀ f ∈ files, f.size = (disk.bytes f.handle).length) : measure disk base files = files := by
  induction files generalizing base with
  | nil => rfl
  | cons f files ih =>
    obtain ⟨rfl, hrest⟩ := h
    have hsize := hs f List.mem_cons_self
    rw [hsize] at hrest
    rw [measure, ih hrest fun g hg => hs g (List.mem_cons_of_mem _ hg), CorpusFile.ofDisk, ← hsize]

theorem handles_measure (disk : Disk) (base : Nat) (files : List CorpusFile) :
    (measure disk base files).map (·.handle) = files.map (·.handle) := by
  induction files generalizing base with
  | nil => rfl
  | cons f files ih =>
    rw [measure, List.map_cons, List.map_cons, ih]
    rfl

theorem extent_le_measure (h : ∀ f ∈ files, f.size ≤ (disk.bytes f.handle).length) :
    extent files ≤ extent (measure disk base files) := by
  induction files generalizing base with
  | nil => exact Nat.le_refl _
  | cons f files ih =>
    have hsize := h f List.mem_cons_self
    rw [measure, extent_cons, extent_cons]
    exact Nat.add_le_add hsize (ih fun g hg => h g (List.mem_cons_of_mem _ hg))

theorem exists_measure {f : CorpusFile} (hf : f ∈ files) (disk : Disk) (base : Nat) :
    ∃ g ∈ measure disk base files, g.handle = f.handle := by
  have hmem := List.mem_map_of_mem (f := (·.handle)) hf
  rw [← handles_measure disk base] at hmem
  exact List.mem_map.1 hmem

/-- The corpus over its files as they stand on the disk. -/
def measured (c : Corpus) (disk : Disk) : Corpus :=
  { c with
    full := measure disk 0 c.full
    active := .ofDisk disk c.active.id (extent (measure disk 0 c.full)) c.active.handle }

theorem files_measured (c : Corpus) (disk : Disk) : (c.measured disk).files = measure disk 0 c.files := by
  rw [Corpus.files, Corpus.files, measure_append, Nat.zero_add]
  rfl

theorem length_measured (c : Corpus) (disk : Disk) : (c.measured disk).files.length = c.files.length := by
  have h := congrArg List.length (handles_measure disk 0 c.files)
  rwa [List.length_map, List.length_map, ← files_measured] at h

/-- As long as the disk holds what is written, its files are those that the corpus counts. -/
def Exact (c : Corpus) (disk : Disk) : Prop := disk.Fits → Filed disk c.dir c.files

theorem Exact.append {r : Except Error Offset} (h : c.Exact disk) (ha : c.append disk pair = (r, c', disk')) :
    c'.Exact disk' := by
  intro hfit
  obtain ⟨-, ⟨-, hkept⟩ | ⟨offset, -, hkept⟩⟩ := (h (hfit.of_le (le_append ha))).kept.append hfit ha
  · exact hkept.filed
  · exact hkept.filed

theorem Exact.appendAll {r : Except Error (List Offset)} (h : c.Exact disk)
    (ha : Model.appendAll c disk pairs = (r, c', disk')) : c'.Exact disk' :=
  appendAll_induct Exact.append h ha

/-- A write that is refused before its first byte leaves nothing behind. -/
theorem Exact.tear_zero (h : c.Exact disk) (pair : SentencePair) :
    (c.tear disk pair 0).1.Exact (c.tear disk pair 0).2 := by
  intro hfit
  have hfit₀ : disk.Fits := hfit.of_le (grows_tear c disk pair 0).le
  have hfiled := h hfit₀
  unfold Corpus.tear
  split
  · exact hfiled
  · next hp =>
    obtain ⟨hkept, -⟩ := hfiled.kept.prepare (hfiled.laid.fits hfit₀).1 hp
    rw [List.take_zero]
    exact (hkept.extend []).filed

/-- What is placed is kept on the disk, and the open corpus gives it back. It may count fewer bytes than there are. -/
structure Retains (c : Corpus) (disk : Disk) (entries : List ManifestFile) (placed : List Placement) : Prop where
  kept : Kept disk c.dir (c.measured disk).files entries placed
  contiguous : Contiguous 0 c.files
  counted : ∀ f ∈ c.files, f.size ≤ (disk.bytes f.handle).length
  retrieved : ∀ p ∈ placed, c.retrieve disk p.2 = .ok p.1

/-- A corpus that counts all bytes retains what is kept on the disk. -/
theorem Kept.retains (h : Kept disk c.dir c.files entries placed) : c.Retains disk entries placed where
  kept := by
    rwa [files_measured, measure_of_contiguous h.filed.laid.contiguous h.filed.whole]
  contiguous := h.filed.laid.contiguous
  counted _ hf := (h.filed.whole _ hf).le
  retrieved p hp := retrieve_of_stored h.filed.laid (h.stored p hp)

namespace Retains

theorem kept_of_whole (h : c.Retains disk entries placed) (hw : c.Whole disk) :
    Kept disk c.dir c.files entries placed := by
  have hkept := h.kept
  rwa [files_measured, measure_of_contiguous h.contiguous hw] at hkept

theorem sublist (h : c.Retains disk entries placed) (hs : some.Sublist placed) : c.Retains disk entries some where
  kept := h.kept.sublist hs
  contiguous := h.contiguous
  counted := h.counted
  retrieved p hp := h.retrieved p (hs.subset hp)

theorem held (h : c.Retains disk entries placed) : c.Held disk := by
  intro f hf
  obtain ⟨g, hg, hhandle⟩ := exists_measure hf disk 0
  rw [← files_measured] at hg
  rw [← hhandle]
  exact disk.id_lt_fresh (h.kept.filed.laid.node hg)

theorem extent_le (h : c.Retains disk entries placed) : extent c.files ≤ extent (c.measured disk).files := by
  rw [files_measured]
  exact extent_le_measure h.counted

/-- The corpus of a disk that fits has fewer than `2 ^ 32` files and `2 ^ 63` bytes. -/
theorem fits (h : c.Retains disk entries placed) (hfit : disk.Fits) :
    c.files.length < 2 ^ 32 ∧ extent c.files < 2 ^ 63 := by
  obtain ⟨hlen, hext⟩ := h.kept.filed.laid.fits hfit
  rw [length_measured] at hlen
  exact ⟨hlen, Nat.lt_of_le_of_lt h.extent_le hext⟩

/-! ## What is written -/

/-- A new file of the corpus is the next one on the disk. -/
theorem roll_measured (h : c.Retains disk entries placed) (hlen : c.files.length < 2 ^ 32)
    (hr : c.roll disk = .ok (c', disk')) : (c.measured disk).roll disk = .ok (c'.measured disk', disk') := by
  obtain ⟨handle, hcreate, rfl⟩ := roll_eq_ok hr
  have hnext := Laid.active (c := c.measured disk) h.kept.filed.laid
  have hbytes : ∀ f ∈ c.files, disk'.bytes f.handle = disk.bytes f.handle := by
    intro f hf
    obtain ⟨g, hg, hhandle⟩ := exists_measure hf disk 0
    rw [← files_measured] at hg
    have hmeasured := hcreate
    rw [show c.active.id + 1 = _ from hnext] at hmeasured
    rw [← hhandle]
    exact (h.kept.filed.create (by rwa [length_measured]) hmeasured).2 g hg
  have hend := Contiguous.endOffset_active (c := c.measured disk) h.kept.filed.laid.contiguous
  have hcreate' : disk.openOrCreate (filePath (c.measured disk).dir ((c.measured disk).active.id + 1)).place =
      .ok (handle, disk') := hcreate
  rw [roll]
  dsimp only
  rw [hcreate', hend, files_measured, ← measure_congr hbytes]
  rfl

theorem roll (h : c.Retains disk entries placed) (hlen : c.files.length < 2 ^ 32)
    (hr : c.roll disk = .ok (c', disk')) : c'.Retains disk' entries placed := by
  have hgrows := grows_roll hr
  obtain ⟨hkept, -⟩ := Kept.roll (c := c.measured disk) h.kept (by rwa [length_measured]) (h.roll_measured hlen hr)
  refine ⟨hkept, ?_, ?_, fun p hp => hgrows.retrieve h.held (h.retrieved p hp)⟩
  · obtain ⟨handle, -, rfl⟩ := roll_eq_ok hr
    refine contiguous_append.2 ⟨h.contiguous, ?_, trivial⟩
    rw [Nat.zero_add, ← h.contiguous.endOffset_active]
    rfl
  · obtain ⟨handle, -, rfl⟩ := roll_eq_ok hr
    intro f hf
    rcases List.mem_append.1 hf with hf | hf
    · exact (h.counted f hf).trans (hgrows.bytes f.handle (h.held f hf)).length_le
    · rw [List.mem_singleton.1 hf]
      exact Nat.le_refl _

/-- Bytes go to the end of the last file, and some of them are counted. -/
theorem write {n : Nat} {bs : Bytes} (h : c.Retains disk entries placed) (hn : n ≤ bs.length) :
    Retains { c with active := { c.active with size := c.active.size + n } } (disk.append c.active.handle bs) entries
      placed := by
  have hgrows := grows_active c disk bs n
  have hwritten : (disk.append c.active.handle bs).bytes c.active.handle = disk.bytes c.active.handle ++ bs := by
    rw [Disk.append, Disk.bytes_setBytes, if_pos rfl]
  have hfull : measure (disk.append c.active.handle bs) 0 c.full = measure disk 0 c.full := by
    refine measure_congr fun f hf => ?_
    obtain ⟨g, hg, hhandle⟩ := exists_measure hf disk 0
    rw [← hhandle]
    exact (h.kept.filed.write bs).2.1 g hg
  refine ⟨?_, ?_, ?_, fun p hp => hgrows.retrieve h.held (h.retrieved p hp)⟩
  · have hkept := Kept.extend (c := c.measured disk) h.kept bs
    simp only [measured, CorpusFile.ofDisk] at hkept
    simp only [Corpus.files, measured, CorpusFile.ofDisk, hfull, hwritten, List.length_append]
    exact hkept
  · obtain ⟨hfull, hbase, -⟩ := contiguous_append.1 h.contiguous
    exact contiguous_append.2 ⟨hfull, hbase, trivial⟩
  · intro f hf
    rcases List.mem_append.1 hf with hf | hf
    · have hmem : f ∈ c.files := List.mem_append_left _ hf
      exact (h.counted f hmem).trans (hgrows.bytes f.handle (h.held f hmem)).length_le
    · rw [List.mem_singleton.1 hf]
      have hactive := h.counted c.active c.active_mem
      dsimp only
      rw [hwritten, List.length_append]
      omega

theorem prepare {n : Nat} (h : c.Retains disk entries placed) (hlen : c.files.length < 2 ^ 32)
    (hr : c.prepare disk n = .ok (c', disk')) : c'.Retains disk' entries placed := by
  unfold Corpus.prepare at hr
  split at hr
  · exact h.roll hlen hr
  · cases hr
    exact h

/-- What was placed before is retained when a sentence pair is appended, whether it can be or not. -/
theorem append {r : Except Error Offset} (h : c.Retains disk entries placed) (hfit : disk'.Fits)
    (ha : c.append disk pair = (r, c', disk')) : c'.Retains disk' entries placed := by
  have hfit₀ := hfit.of_le (le_append ha)
  rcases append_cases ha with ⟨e, -, rfl, rfl⟩ | ⟨-, c₁, disk₁, offset, hp, hw, -⟩
  · exact h
  · cases hw
    exact (h.prepare (h.fits hfit₀).1 hp).write (Nat.le_refl _)

/-- What was placed before is retained when a write is cut short. -/
theorem tear (h : c.Retains disk entries placed) (hfit : disk.Fits) (pair : SentencePair) (bytes : Nat) :
    (c.tear disk pair bytes).1.Retains (c.tear disk pair bytes).2 entries placed := by
  unfold Corpus.tear
  split
  · exact h
  · next hp => exact (h.prepare (h.fits hfit).1 hp).write (Nat.zero_le _)

/-- What was placed before is retained when sentence pairs are appended, however far they come. -/
theorem appendAll {r : Except Error (List Offset)} (h : c.Retains disk entries placed) (hfit : disk'.Fits)
    (ha : Model.appendAll c disk pairs = (r, c', disk')) : c'.Retains disk' entries placed :=
  appendAll_induct (P := fun c d => d.Fits → c.Retains d entries placed)
    (fun h hone hfit => (h (hfit.of_le (le_append hone))).append hfit hone) (fun _ => h) ha hfit

/-- What was placed before is retained when the system refuses a batch. -/
theorem breakOff {m m' : Model} {d d' : Durable} {batch : UpdateBatch} {sentences : Nat} {torn : Option Nat}
    (h : m.corpus.Retains d.disk entries placed) (hfit : d'.disk.Fits)
    (hb : m.breakOff d batch sentences torn = (m', d')) : m'.corpus.Retains d'.disk entries placed := by
  obtain ⟨r, c, disk, ha, heq | ⟨bytes, pair, -, heq⟩⟩ := m.breakOff_cases d batch sentences torn
  · cases heq.symm.trans hb
    exact h.appendAll hfit ha
  · cases heq.symm.trans hb
    have hfit₁ : disk.Fits := hfit.of_le (grows_tear c disk pair bytes).le
    exact (h.appendAll hfit₁ ha).tear hfit₁ pair bytes

/-- Sentence pairs that are appended to a whole corpus are placed in it. -/
theorem place {offsets : List Offset} (h : c.Retains disk entries placed) (hw : pairs ≠ [] → c.Whole disk)
    (hfit : disk'.Fits) (ha : Model.appendAll c disk pairs = (.ok offsets, c', disk')) :
    c'.Retains disk' entries (placed ++ pairs.zip offsets) ∧ (c.Sealed disk → c'.Sealed disk') := by
  by_cases hpairs : pairs = []
  · subst hpairs
    cases ha
    rw [List.zip_nil_left, List.append_nil]
    exact ⟨h, id⟩
  · obtain ⟨-, added, hadded, hzip⟩ := (h.kept_of_whole (hw hpairs)).appendAll hfit ha
    rw [hzip offsets rfl] at hadded
    exact ⟨hadded.retains, fun _ => hadded.filed.whole.sealed⟩

/-! ## The manifest -/

/-- The manifest of a corpus on a disk that fits can be written. -/
theorem length_manifest_lt (h : c.Retains disk entries placed) (hfit : disk.Fits) :
    c.manifest.files.length < 2 ^ 64 := by
  have hlen := (h.fits hfit).1
  rw [manifest, List.length_map]
  omega

/-- The files have grown from the manifest of a sealed corpus. -/
theorem present (h : c.Retains disk entries placed) (hs : c.Sealed disk) (hfit : disk.Fits) :
    c.Retains disk c.manifest.files placed where
  kept := by
    refine ⟨h.kept.filed, ?_, h.kept.stored, h.kept.ordered⟩
    obtain ⟨hfull, hbase, -⟩ := contiguous_append.1 h.contiguous
    have hmeasured : (c.measured disk).files =
        c.full ++ [{ c.active with size := (disk.bytes c.active.handle).length }] := by
      rw [Nat.zero_add] at hbase
      simp only [Corpus.files, measured, measure_of_contiguous hfull hs, CorpusFile.ofDisk, ← hbase]
    have hext := (h.fits hfit).2
    rw [hmeasured]
    exact (grown_present h.contiguous (by omega)).extend (h.counted c.active c.active_mem)
  contiguous := h.contiguous
  counted := h.counted
  retrieved := h.retrieved

end Retains

end Corpus

/-! ## What is committed -/

/-- Sentences are committed by a whole corpus only, and a manifest by a sealed one only. -/
def Model.Ready (m : Model) (d : Durable) : Operation → Prop
  | .put batch seconds => (m.put d batch seconds).1 = .ok () →
    (batch.entries ≠ [] → m.corpus.Whole d.disk) ∧ (m.config.bulkLoad = false → m.corpus.Sealed d.disk)
  | .compact => m.config.bulkLoad = true → m.corpus.Sealed d.disk
  | _ => True

instance (m : Model) (d : Durable) : ∀ op : Operation, Decidable (m.Ready d op)
  | .put .. => inferInstanceAs (Decidable (_ → _ ∧ _))
  | .compact => inferInstanceAs (Decidable (_ → _))
  | .openAt _ | .refuse .. | .sweep | .sweepInBackground | .close => .isTrue trivial

/-- The corpus counts all bytes, so whatever is committed is right. -/
theorem Model.ready_of_whole {m : Model} {d : Durable} (h : m.corpus.Whole d.disk) (op : Operation) : m.Ready d op := by
  cases op with
  | put batch seconds => exact fun _ => ⟨fun _ => h, fun _ => h.sealed⟩
  | compact => exact fun _ => h.sealed
  | openAt | refuse | sweep | sweepInBackground | close => trivial

namespace Session

variable {s : Session} {op : Operation}

/-- The corpus of an open index counts all bytes of its files. -/
def Whole (s : Session) : Prop := ∀ m ∈ s.model, m.corpus.Whole s.durable.disk

/-- What the operation commits is right. -/
def Ready (s : Session) (op : Operation) : Prop := ∀ m ∈ s.model, m.Ready s.durable op

instance (s : Session) (op : Operation) : Decidable (s.Ready op) := inferInstanceAs (Decidable (∀ m ∈ s.model, _))

theorem Whole.ready (h : s.Whole) (op : Operation) : s.Ready op := fun m hm => Model.ready_of_whole (h m hm) op

/-- Opening finds how long the files are. -/
theorem whole_openAt (s : Session) (path : Path) (config : Config) : (s.step path (.openAt config)).Whole := by
  intro m hm
  obtain ⟨disk, manifest, ho⟩ := Model.exists_openAt_corpus (toOption_eq_some_iff.1 hm)
  exact (Corpus.measured_openAt ho).2.2.1

end Session

namespace Run

/-- Sentences are committed by a whole corpus only, and a manifest by a sealed one only. So once a write was refused
within a record, batches with sentences fail until the index is opened again. -/
def Mended (disk : Disk) (path : Path) (ops : List Operation) : Prop :=
  Steps.Always (fun r op => some (step path r op)) (fun r op => r.session.Ready op) (start disk) ops

instance (disk : Disk) (path : Path) (ops : List Operation) : Decidable (Mended disk path ops) :=
  inferInstanceAs (Decidable (Steps.Always _ _ _ _))

theorem mended_concat {disk : Disk} {path : Path} {ops : List Operation} {op : Operation} :
    Mended disk path (ops ++ [op]) ↔ Mended disk path ops ∧ (after disk path ops).session.Ready op :=
  Steps.always_concat

end Run

end PhraseIndex
