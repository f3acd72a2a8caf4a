import PhraseIndex.Corpus.Log
import PhraseIndex.Proofs.Codec
import PhraseIndex.Proofs.Files

/-!
# How the corpus lies on the disk

Files are `Contiguous` when each starts where the one before it ends, so that an offset falls into one of them only
(`Contiguous.find?_holds`). A run of files is `Laid` on a disk when they moreover have consecutive numbers and names and
their sizes are those on the disk. `Grown` compares it with an older manifest: files were added, and the last one listed
may have become longer.
-/

namespace PhraseIndex

theorem CorpusFile.holds_iff {f : CorpusFile} {offset : Nat} :
    f.holds offset = true ↔ f.base ≤ offset ∧ offset < f.base + f.size := by
  rw [holds, endOffset, Bool.and_eq_true, decide_eq_true_eq, decide_eq_true_eq]

namespace Corpus

variable {disk disk' : Disk} {dir : Path} {n base : Nat} {f : CorpusFile} {files more : List CorpusFile}

theorem filePath_place (dir : Path) (id : UInt32) : (filePath dir id).place = dir.place ++ [FileName.ofId id] := rfl

theorem filePath_inj {i j : UInt32} (h : (filePath dir i).place = (filePath dir j).place) : i = j := by
  rw [filePath_place, filePath_place] at h
  exact FileName.ofId_inj (List.singleton_inj.1 (List.append_cancel_left h))

/-- Bytes of all files of a run. -/
def extent (files : List CorpusFile) : Nat := (files.map (·.size)).sum

@[simp] theorem extent_append (files more : List CorpusFile) : extent (files ++ more) = extent files + extent more := by
  simp [extent]

@[simp] theorem extent_cons (f : CorpusFile) (files : List CorpusFile) :
    extent (f :: files) = f.size + extent files := rfl

@[simp] theorem extent_nil : extent [] = 0 := rfl

theorem active_mem (c : Corpus) : c.active ∈ c.files := List.mem_append_right _ List.mem_cons_self

/-! ## Files without gaps -/

/-- Each file starts where the one before it ends, the first one at `base`. -/
def Contiguous : Nat → List CorpusFile → Prop
  | _, [] => True
  | base, f :: files => f.base = base ∧ Contiguous (base + f.size) files

theorem contiguous_append : Contiguous base (files ++ more) ↔
    Contiguous base files ∧ Contiguous (base + extent files) more := by
  induction files generalizing base with
  | nil => simp [Contiguous]
  | cons f files ih => simp only [List.cons_append, Contiguous, ih, extent_cons, Nat.add_assoc, and_assoc]

theorem Contiguous.base_le (h : Contiguous base files) (hf : f ∈ files) : base ≤ f.base := by
  induction files generalizing base with
  | nil => cases hf
  | cons g files ih =>
    obtain ⟨hbase, hrest⟩ := h
    rcases List.mem_cons.1 hf with rfl | hf
    · omega
    · have := ih hrest hf
      omega

theorem Contiguous.end_le (h : Contiguous base files) (hf : f ∈ files) : f.base + f.size ≤ base + extent files := by
  induction files generalizing base with
  | nil => cases hf
  | cons g files ih =>
    obtain ⟨hbase, hrest⟩ := h
    rw [extent_cons]
    rcases List.mem_cons.1 hf with rfl | hf
    · omega
    · have := ih hrest hf
      omega

/-- An offset falls into one file only. -/
theorem Contiguous.find?_holds (h : Contiguous base files) (hf : f ∈ files) {offset : Nat}
    (hoffset : f.holds offset = true) : files.find? (·.holds offset) = some f := by
  induction files generalizing base with
  | nil => cases hf
  | cons g files ih =>
    obtain ⟨hbase, hrest⟩ := h
    rcases List.mem_cons.1 hf with rfl | hf
    · exact List.find?_cons_of_pos hoffset
    · have hle := hrest.base_le hf
      rw [List.find?_cons_of_neg, ih hrest hf]
      rw [CorpusFile.holds_iff] at hoffset ⊢
      omega

theorem Contiguous.endOf (h : Contiguous base files) (hb : files = [] → base = 0) :
    endOf files = base + extent files := by
  induction files generalizing base with
  | nil => simp [Corpus.endOf, hb rfl]
  | cons f files ih =>
    obtain ⟨hbase, hrest⟩ := h
    cases files with
    | nil => simp [Corpus.endOf, CorpusFile.endOffset, hbase]
    | cons g files =>
      have hend := ih hrest fun hnil => absurd hnil (List.cons_ne_nil g files)
      rw [Corpus.endOf, List.getLast?_cons_cons, ← Corpus.endOf, hend, extent_cons f, Nat.add_assoc]

/-- The last file reaches to the end. -/
theorem Contiguous.endOffset_active {c : Corpus} (h : Contiguous 0 c.files) : c.active.endOffset = extent c.files := by
  obtain ⟨hbase, -⟩ := (contiguous_append.1 h).2
  rw [CorpusFile.endOffset, hbase, Corpus.files, extent_append, Nat.zero_add]
  rfl

/-! ## Runs of files -/

/-- The files lie on the disk one after the other, numbered from `n` and starting at `base`. -/
def Laid (disk : Disk) (dir : Path) : Nat → Nat → List CorpusFile → Prop
  | _, _, [] => True
  | n, base, f :: files =>
    n < 2 ^ 32 ∧ f.id = UInt32.ofNat n ∧ f.base = base ∧ disk.node? (filePath dir f.id).place = some (.file f.handle) ∧
      f.size = (disk.bytes f.handle).length ∧ Laid disk dir (n + 1) (base + f.size) files

theorem laid_append : Laid disk dir n base (files ++ more) ↔
    Laid disk dir n base files ∧ Laid disk dir (n + files.length) (base + extent files) more := by
  induction files generalizing n base with
  | nil => simp [Laid]
  | cons f files ih =>
    have hn : n + 1 + files.length = n + (f :: files).length := by simp; omega
    simp only [List.cons_append, Laid, ih, hn, extent_cons, Nat.add_assoc, and_assoc]

theorem Laid.contiguous (h : Laid disk dir n base files) : Contiguous base files := by
  induction files generalizing n base with
  | nil => trivial
  | cons f files ih =>
    obtain ⟨-, -, hbase, -, -, hrest⟩ := h
    exact ⟨hbase, ih hrest⟩

/-- A run lies on every disk that has its files. -/
theorem Laid.congr (h : Laid disk dir n base files)
    (hnode : ∀ f ∈ files, disk'.node? (filePath dir f.id).place = disk.node? (filePath dir f.id).place)
    (hbytes : ∀ f ∈ files, disk'.bytes f.handle = disk.bytes f.handle) : Laid disk' dir n base files := by
  induction files generalizing n base with
  | nil => trivial
  | cons f files ih =>
    obtain ⟨hn, hid, hbase, hfile, hsize, hrest⟩ := h
    refine ⟨hn, hid, hbase, ?_, ?_, ih hrest (fun g hg => hnode g (List.mem_cons_of_mem _ hg))
      fun g hg => hbytes g (List.mem_cons_of_mem _ hg)⟩
    · rw [hnode f List.mem_cons_self, hfile]
    · rw [hbytes f List.mem_cons_self, hsize]

theorem Laid.node (h : Laid disk dir n base files) (hf : f ∈ files) :
    disk.node? (filePath dir f.id).place = some (.file f.handle) := by
  induction files generalizing n base with
  | nil => cases hf
  | cons g files ih =>
    obtain ⟨-, -, -, hfile, -, hrest⟩ := h
    rcases List.mem_cons.1 hf with rfl | hf
    · exact hfile
    · exact ih hrest hf

theorem Laid.size (h : Laid disk dir n base files) (hf : f ∈ files) : f.size = (disk.bytes f.handle).length := by
  induction files generalizing n base with
  | nil => cases hf
  | cons g files ih =>
    obtain ⟨-, -, -, -, hsize, hrest⟩ := h
    rcases List.mem_cons.1 hf with rfl | hf
    · exact hsize
    · exact ih hrest hf

/-- The numbers of a run are consecutive. -/
theorem Laid.ids (h : Laid disk dir n base files) :
    files.map (·.id) = (List.range files.length).map fun i => UInt32.ofNat (n + i) := by
  induction files generalizing n base with
  | nil => rfl
  | cons f files ih =>
    obtain ⟨-, hid, -, -, -, hrest⟩ := h
    rw [List.map_cons, List.length_cons, List.range_succ_eq_map, List.map_cons, List.map_map, hid, ih hrest]
    refine List.cons_eq_cons.2 ⟨rfl, List.map_congr_left ?_⟩
    intro i _
    rw [Function.comp_apply, Nat.succ_eq_add_one, Nat.add_assoc, Nat.add_comm 1 i]

theorem ofNat_inj {i j : Nat} (hi : i < 2 ^ 32) (hj : j < 2 ^ 32) (h : UInt32.ofNat i = UInt32.ofNat j) : i = j := by
  have := congrArg UInt32.toNat h
  rwa [UInt32.toNat_ofNat', UInt32.toNat_ofNat', Nat.mod_eq_of_lt hi, Nat.mod_eq_of_lt hj] at this

/-- The files of a run are numbered without gaps. -/
theorem Laid.numbers (h : Laid disk dir n base files) : files.map (·.id.toNat) = List.range' n files.length := by
  induction files generalizing n base with
  | nil => rfl
  | cons f files ih =>
    obtain ⟨hn, hid, -, -, -, hrest⟩ := h
    rw [List.map_cons, List.length_cons, List.range'_succ, ih hrest, hid, UInt32.toNat_ofNat_of_lt' hn]

/-- A number beyond a run is none of its. -/
theorem Laid.id_ne (h : Laid disk dir n base files) {i : Nat} (hi : i < 2 ^ 32) (hout : i < n ∨ n + files.length ≤ i)
    (hf : f ∈ files) : f.id ≠ UInt32.ofNat i := by
  intro he
  have hmem : f.id.toNat ∈ files.map (·.id.toNat) := List.mem_map_of_mem hf
  rw [h.numbers, he, UInt32.toNat_ofNat_of_lt' hi, List.mem_range'_1] at hmem
  omega

/-- No two files of a run have the same number. -/
theorem Laid.nodup_ids (h : Laid disk dir n base files) : (files.map (·.id)).Nodup := by
  have hnumbers : ((files.map (·.id)).map UInt32.toNat).Nodup := by
    rw [List.map_map]
    exact h.numbers ▸ List.nodup_range'
  exact List.Pairwise.of_map UInt32.toNat (fun _ _ hne he => hne (congrArg UInt32.toNat he)) hnumbers

/-- No two files of a run share their bytes. -/
theorem Laid.nodup_handles (h : Laid disk dir n base files) : (files.map (·.handle)).Nodup := by
  have hids := List.pairwise_map.1 h.nodup_ids
  refine List.pairwise_map.2 (hids.imp_of_mem fun {f g} hf hg hne he => hne ?_)
  exact filePath_inj (disk.id_inj (h.node hf) (by rw [he]; exact h.node hg))

/-- A run on a disk that fits has fewer than `2 ^ 32` files and `2 ^ 63` bytes. -/
theorem Laid.fits (h : Laid disk dir n base files) (hfit : disk.Fits) :
    files.length < 2 ^ 32 ∧ extent files < 2 ^ 63 := by
  have hsub : files.map (·.handle) ⊆ disk.fileIds := by
    intro id hid
    obtain ⟨f, hf, rfl⟩ := List.mem_map.1 hid
    exact Disk.mem_fileIds.2 ⟨_, h.node hf⟩
  have hsizes : (files.map (·.handle)).map (fun id => (disk.bytes id).length) = files.map (·.size) := by
    rw [List.map_map]
    exact List.map_congr_left fun f hf => (h.size hf).symm
  obtain ⟨hlen, hbytes⟩ := hfit.of_subset h.nodup_handles hsub
  rw [List.length_map] at hlen
  rw [hsizes] at hbytes
  exact ⟨hlen, hbytes⟩

/-! ## Manifests of earlier times -/

/-- The entries list the first files, of which the last one listed may have grown since. -/
def Grown : List ManifestFile → List CorpusFile → Prop
  | [], _ => True
  | _ :: _, [] => False
  | entry :: entries, f :: files =>
    entry.id = f.id ∧ entry.base.toNat = f.base ∧ entry.size.toNat ≤ f.size ∧
    (entries = [] ∨ entry.size.toNat = f.size) ∧
      Grown entries files

variable {entries : List ManifestFile}

theorem Grown.append (h : Grown entries files) (more : List CorpusFile) : Grown entries (files ++ more) := by
  induction entries generalizing files with
  | nil => trivial
  | cons entry entries ih =>
    cases files with
    | nil => exact absurd h id
    | cons f files =>
      obtain ⟨hid, hbase, hsize, hlast, hrest⟩ := h
      exact ⟨hid, hbase, hsize, hlast, ih hrest⟩

/-- The last file may grow. -/
theorem Grown.extend {size : Nat} (h : Grown entries (files ++ [f])) (hs : f.size ≤ size) :
    Grown entries (files ++ [{ f with size }]) := by
  induction entries generalizing files with
  | nil => trivial
  | cons entry entries ih =>
    cases files with
    | nil =>
      obtain ⟨hid, hbase, hsize, -, hrest⟩ := h
      cases entries with
      | nil => exact ⟨hid, hbase, by simp only; omega, .inl rfl, trivial⟩
      | cons => exact absurd hrest id
    | cons g files =>
      obtain ⟨hid, hbase, hsize, hlast, hrest⟩ := h
      exact ⟨hid, hbase, hsize, hlast, ih hrest⟩

theorem Grown.length_le (h : Grown entries files) : entries.length ≤ files.length := by
  induction entries generalizing files with
  | nil => simp
  | cons entry entries ih =>
    cases files with
    | nil => exact absurd h id
    | cons f files =>
      have := ih h.2.2.2.2
      simp only [List.length_cons]
      omega

/-- The manifest of the present files lists them. -/
theorem grown_present (h : Contiguous base files) (hb : base + extent files < 2 ^ 64) :
    Grown (files.map fun f => ⟨f.id, UInt64.ofNat f.base, UInt64.ofNat f.size⟩) files := by
  induction files generalizing base with
  | nil => trivial
  | cons f files ih =>
    obtain ⟨hbase, hrest⟩ := h
    rw [extent_cons] at hb
    have hs : (UInt64.ofNat f.size).toNat = f.size := UInt64.toNat_ofNat_of_lt' (by show f.size < 2 ^ 64; omega)
    have hf : (UInt64.ofNat f.base).toNat = f.base := UInt64.toNat_ofNat_of_lt' (by show f.base < 2 ^ 64; omega)
    exact ⟨rfl, hf, hs.le, .inr hs, ih hrest (by omega)⟩

end Corpus

end PhraseIndex
