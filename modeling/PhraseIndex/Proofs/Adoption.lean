import Mathlib.Data.Nat.Find
import PhraseIndex.Proofs.Installation

/-!
# Opening a directory whatever it holds

Opening takes the files of the manifest and then every file that follows them without a gap, whatever else is in the
directory. `Corpus.openClearing` goes through the strays in any order, since a directory lists its names in none that is
known; `Corpus.openAt` goes through them by name. What it found it finds on the disk as it was (`Corpus.Chained`), and
`Disk.Spares` says which names an opening may take away or make (`Corpus.openClearing_spares`).
-/

namespace PhraseIndex

/-! ## What is spared -/

namespace Disk

variable {d d' d'' : Disk} {gone gone' made made' : Place → Prop} {p : Place} {id : FileId}

/-- Only names of the first kind may have been taken away and only names of the second kind are new. All files keep
their bytes. -/
structure Spares (gone made : Place → Prop) (d d' : Disk) : Prop where
  kept : ∀ {p node}, d.node? p = some node → ¬gone p → d'.node? p = some node
  free : ∀ {p}, d.node? p = none → ¬made p → d'.node? p = none
  bytes : ∀ id < d.fresh, d'.bytes id = d.bytes id
  fresh : d.fresh ≤ d'.fresh

theorem Spares.refl (gone made : Place → Prop) (d : Disk) : d.Spares gone made d :=
  ⟨fun h _ => h, fun h _ => h, fun _ _ => rfl, Nat.le_refl _⟩

theorem Spares.mono (h : d.Spares gone made d') (hg : ∀ p, gone p → gone' p) (hm : ∀ p, made p → made' p) :
    d.Spares gone' made' d' where
  kept hp hgone := h.kept hp fun hg' => hgone (hg _ hg')
  free hp hmade := h.free hp fun hm' => hmade (hm _ hm')
  bytes := h.bytes
  fresh := h.fresh

theorem Spares.trans (h : d.Spares gone made d') (h' : d'.Spares gone made d'') : d.Spares gone made d'' where
  kept hp hgone := h'.kept (h.kept hp hgone) hgone
  free hp hmade := h'.free (h.free hp hmade) hmade
  bytes id hid := (h'.bytes id (Nat.lt_of_lt_of_le hid h.fresh)).trans (h.bytes id hid)
  fresh := Nat.le_trans h.fresh h'.fresh

/-- A file keeps its bytes. -/
theorem Spares.bytes_file (h : d.Spares gone made d') (hp : d.node? p = some (.file id)) : d'.bytes id = d.bytes id :=
  h.bytes id (d.id_lt_fresh hp)

theorem fresh_foldl_addDirectory (places : List Place) (d : Disk) : (places.foldl addDirectory d).fresh = d.fresh := by
  induction places generalizing d with
  | nil => rfl
  | cons p places ih =>
    rw [List.foldl_cons, ih, addDirectory]
    split <;> rfl

theorem spares_makeDirectories (h : d.makeDirectories p = .ok d') : d.Spares (fun _ => False) (· ∈ p.upwards) d' := by
  have hbytes := (makeDirectories_eq h).2
  obtain ⟨-, -, rfl⟩ := makeDirectories_eq_ok_iff.1 h
  constructor
  case kept =>
    intro q node hq _
    rw [node?_foldl_addDirectory, hq, Option.some_or]
  case free =>
    intro q hq hmade
    rw [node?_foldl_addDirectory, hq, if_neg hmade, Option.or_none]
  case bytes => exact fun id _ => hbytes id
  case fresh => exact (fresh_foldl_addDirectory _ _).ge

theorem spares_dropName (d : Disk) (p : Place) : d.Spares (· = p) (fun _ => False) (d.dropName p) where
  kept hq hgone := by rw [node?_dropName, if_neg fun he => hgone he.symm, hq]
  free hq _ := by rw [node?_dropName, hq, ite_self]
  bytes _ _ := rfl
  fresh := Nat.le_refl _

theorem spares_addFile (hp : d.node? p = none) : d.Spares (fun _ => False) (· = p) (d.addFile p).2 where
  kept {q node} hq _ := by
    rw [node?_addFile, if_neg, hq]
    rintro rfl
    rw [hp] at hq
    cases hq
  free hq hmade := by rw [node?_addFile, if_neg fun he => hmade he.symm, hq]
  bytes id hid := by rw [bytes_addFile, if_neg (Nat.ne_of_gt hid)]
  fresh := Nat.le_succ _

theorem find_eq_ok_iff : d.find p = .ok id ↔ d.node? p = some (.file id) := by
  unfold find
  cases d.node? p with
  | none => simp
  | some node => cases node <;> simp

theorem removeFile_eq_ok_iff : d.removeFile p = .ok d' ↔ (∃ id, d.node? p = some (.file id)) ∧ d' = d.dropName p := by
  rw [removeFile, bind_eq_ok_iff]
  simp only [find_eq_ok_iff, pure, Except.pure, Except.ok.injEq, exists_and_right]
  rw [eq_comm (a := d')]

end Disk

namespace Corpus

variable {disk disk' : Disk} {dir : Path} {manifest : Manifest} {base count first maxFileSize : Nat} {f : CorpusFile}
  {files more : List CorpusFile} {entry : ManifestFile} {entries : List ManifestFile} {ids : List UInt32}
  {gone made : Place → Prop}

/-- Removing strays takes away no other names. If it comes to its end, all of them are gone. -/
theorem spares_removeStrays {places : List Place} {r : Except Error Unit} (h : removeStrays disk places = (r, disk')) :
    disk.Spares (· ∈ places) (fun _ => False) disk' ∧ (r = .ok () → ∀ p ∈ places, disk'.node? p = none) ∧
      ∀ e, r = .error e → ∃ cause, e = .removeStray cause := by
  induction places generalizing disk with
  | nil =>
    cases h
    exact ⟨.refl _ _ _, fun _ p hp => absurd hp List.not_mem_nil, by rintro _ ⟨⟩⟩
  | cons place places ih =>
    unfold removeStrays at h
    cases hd : disk.removeFile place with
    | error cause =>
      simp only [hd] at h
      cases h
      exact ⟨.refl _ _ _, by rintro ⟨⟩, fun e he => ⟨cause, (Except.error.inj he).symm⟩⟩
    | ok d =>
      simp only [hd] at h
      obtain ⟨-, rfl⟩ := Disk.removeFile_eq_ok_iff.1 hd
      obtain ⟨hspares, hgone, herror⟩ := ih h
      have hfirst : disk.Spares (· ∈ place :: places) (fun _ => False) (disk.dropName place) :=
        (disk.spares_dropName place).mono (fun p hp => hp ▸ List.mem_cons_self) fun _ => id
      have hrest : (disk.dropName place).Spares (· ∈ place :: places) (fun _ => False) disk' :=
        hspares.mono (fun p hp => List.mem_cons_of_mem _ hp) fun _ => id
      refine ⟨hfirst.trans hrest, ?_, herror⟩
      intro hr p hp
      rcases List.mem_cons.1 hp with rfl | hp
      · exact hspares.free (by rw [Disk.node?_dropName, if_pos rfl]) id
      · exact hgone hr p hp

/-! ## Files in a chain -/

/-- The files are on the disk with their sizes, and each starts where the one before it ends. -/
def Chained (disk : Disk) (dir : Path) : Nat → List CorpusFile → Prop
  | _, [] => True
  | base, f :: files =>
    f.base = base ∧ disk.node? (filePath dir f.id).place = some (.file f.handle) ∧
      f.size = (disk.bytes f.handle).length ∧ Chained disk dir (base + f.size) files

theorem chained_append : Chained disk dir base (files ++ more) ↔
    Chained disk dir base files ∧ Chained disk dir (base + extent files) more := by
  induction files generalizing base with
  | nil => simp [Chained]
  | cons f files ih => simp only [List.cons_append, Chained, ih, extent_cons, Nat.add_assoc, and_assoc]

/-- A chain lies on every disk that has its files. -/
theorem Chained.imp (h : Chained disk dir base files)
    (hfile : ∀ f ∈ files, disk.node? (filePath dir f.id).place = some (.file f.handle) →
      disk'.node? (filePath dir f.id).place = some (.file f.handle) ∧ disk'.bytes f.handle = disk.bytes f.handle) :
    Chained disk' dir base files := by
  induction files generalizing base with
  | nil => trivial
  | cons f files ih =>
    obtain ⟨hbase, hnode, hsize, hrest⟩ := h
    obtain ⟨hnode', hbytes⟩ := hfile f List.mem_cons_self hnode
    exact ⟨hbase, hnode', by rw [hbytes, hsize], ih hrest fun g hg => hfile g (List.mem_cons_of_mem _ hg)⟩

/-- A chain is spared as long as none of its names is taken away. -/
theorem Chained.of_spares (h : Chained disk dir base files) (hs : disk.Spares gone made disk')
    (hkept : ∀ f ∈ files, ¬gone (filePath dir f.id).place) : Chained disk' dir base files :=
  h.imp fun f hf hnode => ⟨hs.kept hnode (hkept f hf), hs.bytes_file hnode⟩

theorem Chained.file (h : Chained disk dir base files) (hf : f ∈ files) :
    disk.node? (filePath dir f.id).place = some (.file f.handle) ∧ f.size = (disk.bytes f.handle).length := by
  induction files generalizing base with
  | nil => cases hf
  | cons g files ih =>
    obtain ⟨-, hnode, hsize, hrest⟩ := h
    rcases List.mem_cons.1 hf with rfl | hf
    · exact ⟨hnode, hsize⟩
    · exact ih hrest hf

theorem Chained.contiguous (h : Chained disk dir base files) : Contiguous base files := by
  induction files generalizing base with
  | nil => trivial
  | cons f files ih =>
    obtain ⟨hbase, -, -, hrest⟩ := h
    exact ⟨hbase, ih hrest⟩

/-! ## The files of the manifest -/

/-- A listed file is on the disk where its entry says, with at least the bytes that it says; it may have more only if it
is the last one. -/
theorem openListed_eq_ok {last : Bool} (h : openListed disk dir base last entry = .ok f) :
    (entry.id = f.id ∧ entry.base.toNat = f.base ∧ entry.size.toNat ≤ f.size ∧
      (last = true ∨ entry.size.toNat = f.size)) ∧
    f.base = base ∧ disk.node? (filePath dir f.id).place = some (.file f.handle) ∧
      f.size = (disk.bytes f.handle).length := by
  unfold openListed at h
  obtain ⟨_, hbase, h⟩ := bind_eq_ok_iff.1 h
  obtain ⟨_, -, h⟩ := bind_eq_ok_iff.1 h
  obtain ⟨handle, hfind, h⟩ := bind_eq_ok_iff.1 h
  obtain ⟨_, hsize, h⟩ := bind_eq_ok_iff.1 h
  cases h
  rw [require_eq_ok_iff, beq_iff_eq] at hbase
  rw [mapError_eq_ok_iff, Disk.find_eq_ok_iff] at hfind
  rw [require_eq_ok_iff, Bool.and_eq_true, decide_eq_true_eq, Bool.or_eq_true, beq_iff_eq] at hsize
  exact ⟨⟨rfl, hbase, hsize.1, hsize.2.imp_right Eq.symm⟩, rfl, hfind, rfl⟩

theorem listedFiles_eq_ok (h : listedFiles disk dir base entries = .ok files) :
    Chained disk dir base files ∧ Grown entries files ∧ files.map (·.id) = entries.map (·.id) := by
  induction entries generalizing base files with
  | nil =>
    cases h
    exact ⟨trivial, trivial, rfl⟩
  | cons entry entries ih =>
    unfold listedFiles at h
    obtain ⟨f, hopen, h⟩ := bind_eq_ok_iff.1 h
    obtain ⟨rest, hrest, h⟩ := bind_eq_ok_iff.1 h
    cases h
    obtain ⟨⟨hid, hstart, hsize, hlast⟩, hbase, hnode, hbytes⟩ := openListed_eq_ok hopen
    rw [CorpusFile.endOffset, hbase] at hrest
    obtain ⟨hchain, hgrown, hids⟩ := ih hrest
    rw [List.isEmpty_iff] at hlast
    refine ⟨⟨hbase, hnode, hbytes, hchain⟩, ⟨hid, hstart, hsize, hlast, hgrown⟩, ?_⟩
    rw [List.map_cons, List.map_cons, hid, hids]

/-! ## The files that follow -/

theorem adoptedFiles_eq_ok (h : adoptedFiles disk dir base ids = .ok files) :
    Chained disk dir base files ∧ files.map (·.id) = ids := by
  induction ids generalizing base files with
  | nil =>
    cases h
    exact ⟨trivial, rfl⟩
  | cons id ids ih =>
    unfold adoptedFiles at h
    obtain ⟨handle, hfind, h⟩ := bind_eq_ok_iff.1 h
    obtain ⟨rest, hrest, h⟩ := bind_eq_ok_iff.1 h
    cases h
    rw [mapError_eq_ok_iff, Disk.find_eq_ok_iff] at hfind
    obtain ⟨hchain, hids⟩ := ih hrest
    exact ⟨⟨rfl, hfind, rfl, hchain⟩, by rw [List.map_cons, hids]; rfl⟩

/-- The number after the last one of a manifest. -/
def following (manifest : Manifest) : Nat := (manifest.files.getLast?.map (·.id.toNat + 1)).getD 0

/-- From a number on, as many names of corpus files are taken, and the next one is free. -/
structure IsRun (disk : Disk) (dir : Path) (first count : Nat) : Prop where
  bound : first + count < 2 ^ 32
  taken : ∀ i < count, disk.pathExists (filePath dir (.ofNat (first + i))).place = true
  gap : disk.pathExists (filePath dir (.ofNat (first + count))).place = false

/-- All numbers that a directory or a manifest speaks of are below the last one. -/
structure Numbered (disk : Disk) (dir : Path) (manifest : Manifest) : Prop where
  names : ∀ name id, (disk.node? (dir.place ++ [name])).isSome → FileName.id? name = some id → id.toNat < 2 ^ 32 - 1
  listed : ∀ entry ∈ manifest.files, entry.id.toNat < 2 ^ 32 - 1

/-- There is one gap that comes first. -/
theorem IsRun.unique {other : Nat} (h : IsRun disk dir first count) (h' : IsRun disk dir first other) :
    count = other := by
  rcases Nat.lt_trichotomy count other with hlt | heq | hgt
  · exact absurd (h'.taken count hlt) (by rw [h.gap]; exact Bool.false_ne_true)
  · exact heq
  · exact absurd (h.taken other hgt) (by rw [h'.gap]; exact Bool.false_ne_true)

theorem IsRun.congr (h : IsRun disk dir first count)
    (hnode : ∀ name, disk'.node? (dir.place ++ [name]) = disk.node? (dir.place ++ [name])) :
    IsRun disk' dir first count where
  bound := h.bound
  taken i hi := by rw [Disk.pathExists, filePath_place, hnode]; exact h.taken i hi
  gap := by rw [Disk.pathExists, filePath_place, hnode]; exact h.gap

theorem Numbered.congr (h : Numbered disk dir manifest)
    (hnode : ∀ name, disk'.node? (dir.place ++ [name]) = disk.node? (dir.place ++ [name])) :
    Numbered disk' dir manifest where
  names name id hname := h.names name id (by rwa [← hnode])
  listed := h.listed

theorem Numbered.following_lt (h : Numbered disk dir manifest) : following manifest < 2 ^ 32 := by
  cases hl : manifest.files.getLast? with
  | none => simp [following, hl]
  | some entry =>
    have := h.listed entry (List.mem_of_getLast? hl)
    simp only [following, hl, Option.map_some, Option.getD_some]
    omega

/-- Names that are taken one after the other stay below the last number. -/
theorem Numbered.bound (h : Numbered disk dir manifest) (hf : first < 2 ^ 32)
    (ht : ∀ i < count, disk.pathExists (filePath dir (.ofNat (first + i))).place = true) : first + count < 2 ^ 32 := by
  induction count with
  | zero => exact hf
  | succ count ih =>
    have hlt := ih fun i hi => ht i (by omega)
    have hid := h.names _ _ (ht count (by omega)) (FileName.id?_ofId _)
    rw [UInt32.toNat_ofNat', Nat.mod_eq_of_lt hlt] at hid
    omega

theorem Numbered.count_le (h : Numbered disk dir manifest) (hf : first < 2 ^ 32)
    (ht : ∀ i < count, disk.pathExists (filePath dir (.ofNat (first + i))).place = true) :
    count ≤ (disk.names dir.place).length := by
  have hbound := h.bound hf ht
  let ids := (List.range count).map fun i => UInt32.ofNat (first + i)
  have hnodup : ids.Nodup := by
    refine List.pairwise_map.2 (List.nodup_range.imp_of_mem fun {i j} hi hj hne he => hne ?_)
    rw [List.mem_range] at hi hj
    have := ofNat_inj (by omega) (by omega) he
    omega
  have htaken : ∀ id ∈ ids, (disk.node? (filePath dir id).place).isSome := by
    intro id hid
    obtain ⟨i, hi, rfl⟩ := List.mem_map.1 hid
    exact ht i (List.mem_range.1 hi)
  have hlength := length_le_names hnodup htaken
  rwa [List.length_map, List.length_range] at hlength

theorem nextId_eq (manifest : Manifest) : nextId manifest = UInt32.ofNat (following manifest) := by
  cases hl : manifest.files.getLast? with
  | none => simp [following, nextId, hl]
  | some entry => simp [following, nextId, hl, UInt32.ofNat_add]

/-- The numbers that are adopted are all up to the first gap, and there is one. -/
theorem runFrom_eq (h : Numbered disk dir manifest) : ∃ count, IsRun disk dir (following manifest) count ∧
    runFrom disk dir (nextId manifest) = (List.range count).map fun i => UInt32.ofNat (following manifest + i) := by
  have hf := h.following_lt
  have hgap : ∃ i, disk.pathExists (filePath dir (.ofNat (following manifest + i))).place = false := by
    by_contra! hall
    have hall' : ∀ i < (disk.names dir.place).length + 1,
        disk.pathExists (filePath dir (.ofNat (following manifest + i))).place = true :=
      fun i _ => Bool.eq_true_of_not_eq_false (hall i)
    have hcount := h.count_le hf hall'
    omega
  have htaken : ∀ i < Nat.find hgap, disk.pathExists (filePath dir (.ofNat (following manifest + i))).place = true :=
    fun i hi => Bool.eq_true_of_not_eq_false (Nat.find_min hgap hi)
  refine ⟨Nat.find hgap, ⟨h.bound hf htaken, htaken, Nat.find_spec hgap⟩, ?_⟩
  obtain ⟨k, hk⟩ := Nat.le.dest (h.count_le hf htaken)
  have hnumber : ∀ i, UInt32.ofNat (following manifest) + UInt32.ofNat i = UInt32.ofNat (following manifest + i) :=
    fun i => (UInt32.ofNat_add _ _).symm
  unfold runFrom
  rw [nextId_eq]
  simp only [hnumber]
  rw [← hk, takeWhile_range]
  · exact htaken
  · exact fun _ => Nat.find_spec hgap

/-! ## The opening -/

/-- The numbers of a manifest and of a run behind it. -/
def idsOf (manifest : Manifest) (count : Nat) : List UInt32 :=
  manifest.files.map (·.id) ++ (List.range count).map fun i => UInt32.ofNat (following manifest + i)

/-- A name that an opening may make: a directory on the way, or the first file if there is none. -/
def MayMake (dir : Path) (ids : List UInt32) (p : Place) : Prop :=
  p ∈ dir.place.upwards ∨ ids = [] ∧ p = (filePath dir 0).place

/-- What a corpus is and leaves on the disk that was opened with a manifest, when files with these numbers were
there. -/
structure Opened (disk disk' : Disk) (dir : Path) (manifest : Manifest) (ids : List UInt32) (c : Corpus) : Prop where
  place : c.dir = dir
  /-- The files that were there, or one new file. -/
  numbers : c.files.map (·.id) = if ids = [] then [0] else ids
  found : ids ≠ [] → Chained disk dir 0 c.files
  made : ids = [] → disk.node? (filePath dir 0).place = none ∧ extent c.files = 0
  chained : Chained disk' dir 0 c.files
  grown : Grown manifest.files c.files
  spares : disk.Spares (IsStray dir ids) (MayMake dir ids) disk'
  cleared : ∀ p node, disk.node? p = some node → IsStray dir ids p → disk'.node? p = none

/-- The files of a run are those of the manifest and those that follow. -/
theorem run_eq_ok (h : run disk dir manifest = .ok files) :
    Chained disk dir 0 files ∧ Grown manifest.files files ∧
      files.map (·.id) = manifest.files.map (·.id) ++ runFrom disk dir (nextId manifest) := by
  obtain ⟨listed, hlisted, h⟩ := bind_eq_ok_iff.1 h
  obtain ⟨adopted, hadopted, h⟩ := bind_eq_ok_iff.1 h
  cases h
  obtain ⟨hchain, hgrown, hids⟩ := listedFiles_eq_ok hlisted
  rw [hchain.contiguous.endOf fun _ => rfl] at hadopted
  obtain ⟨hmore, hmoreIds⟩ := adoptedFiles_eq_ok hadopted
  refine ⟨chained_append.2 ⟨hchain, hmore⟩, hgrown.append adopted, ?_⟩
  rw [List.map_append, hids, hmoreIds]

/-- However a corpus was opened, its files follow one another and are as long as it knows them, and the bytes that were
there are still there. -/
theorem measured_openAt {c : Corpus} (h : openAt disk dir manifest maxFileSize = (.ok c, disk')) :
    Contiguous 0 c.files ∧ c.Held disk' ∧ (∀ f ∈ c.files, f.size = (disk'.bytes f.handle).length) ∧
      ∀ id < disk.fresh, disk'.bytes id = disk.bytes id := by
  obtain ⟨made, cleared, files, hmake, hrun, hremove, hopen⟩ := openAt_eq_ok h
  obtain ⟨hchained, -, -⟩ := run_eq_ok hrun
  have hmade := Disk.spares_makeDirectories hmake
  have hspared := (spares_removeStrays hremove).1
  have hbytes : ∀ id < disk.fresh, cleared.bytes id = disk.bytes id :=
    fun id hid => (hspared.bytes id (Nat.lt_of_lt_of_le hid hmade.fresh)).trans (hmade.bytes id hid)
  obtain ⟨hfiles, rfl⟩ | ⟨-, handle, hcreate, hfiles⟩ := ofRun_eq_ok hopen
  · rw [Held, hfiles]
    refine ⟨hchained.contiguous, fun f hf => ?_, fun f hf => ?_, hbytes⟩
    · exact Nat.lt_of_lt_of_le (made.id_lt_fresh (hchained.file hf).1) hspared.fresh
    · rw [hspared.bytes_file (hchained.file hf).1]
      exact (hchained.file hf).2
  · obtain ⟨hlt, hdisk⟩ := Disk.openOrCreate_cases hcreate
    rw [Held, hfiles]
    refine ⟨⟨rfl, trivial⟩, List.forall_mem_singleton.2 hlt, List.forall_mem_singleton.2 rfl, fun id hid => ?_⟩
    rcases hdisk with rfl | ⟨-, rfl⟩
    · exact hbytes id hid
    · have hold : id < cleared.fresh := Nat.lt_of_lt_of_le hid (hmade.fresh.trans hspared.fresh)
      rw [Disk.bytes_addFile, if_neg (Nat.ne_of_gt hold), hbytes id hid]

/-- Names in a directory are none of the directories on the way to it. -/
theorem notMem_upwards (p : Place) (name : String) : p ++ [name] ∉ p.upwards := by
  intro h
  obtain ⟨i, -, hi⟩ := List.mem_map.1 h
  have hlength := congrArg List.length hi
  rw [List.length_take, List.length_append, List.length_singleton] at hlength
  omega

/-- If no file is there, the name of the first one is free. -/
theorem IsRun.first_free (h : IsRun disk dir (following manifest) count) (hnil : idsOf manifest count = []) :
    disk.node? (filePath dir 0).place = none := by
  obtain ⟨hlisted, hrange⟩ := List.append_eq_nil_iff.1 hnil
  rw [List.map_eq_nil_iff] at hlisted
  rw [List.map_eq_nil_iff, List.range_eq_nil] at hrange
  have hgap := h.gap
  rw [following, hlisted, hrange] at hgap
  rwa [Disk.pathExists, Option.isSome_eq_false_iff, Option.isNone_iff_eq_none] at hgap

theorem openOrCreate_of_free {p : Place} {handle : FileId} (hp : disk.node? p = none)
    (h : disk.openOrCreate p = .ok (handle, disk')) : handle = disk.fresh ∧ disk' = (disk.addFile p).2 := by
  unfold Disk.openOrCreate at h
  rw [hp] at h
  dsimp only at h
  split at h
  · cases h
    exact ⟨rfl, rfl⟩
  · cases h

/-- What is left when the strays are gone, once the files were found. -/
structure Cleared (disk disk' : Disk) (dir : Path) (manifest : Manifest) (files : List CorpusFile) : Prop where
  found : Chained disk dir 0 files
  grown : Grown manifest.files files
  free : files = [] → disk.node? (filePath dir 0).place = none
  spares : disk.Spares (IsStray dir (files.map (·.id))) (· ∈ dir.place.upwards) disk'
  cleared : ∀ p node, disk.node? p = some node → IsStray dir (files.map (·.id)) p → disk'.node? p = none

/-- Over a directory without strays a corpus is opened, or its first file cannot be made. -/
theorem Cleared.ofRun {disk'' : Disk} {r : Except Error Corpus} (h : Cleared disk disk' dir manifest files)
    (ho : Corpus.ofRun disk' dir maxFileSize files = (r, disk'')) :
    (∀ c, r = .ok c → Opened disk disk'' dir manifest (files.map (·.id)) c) ∧
    ∀ e, r = .error e → disk'' = disk' ∧ ∃ cause, e = .createCorpusFile cause := by
  have hspares := h.spares.mono (fun _ => id) fun p hp => (.inl hp : MayMake dir (files.map (·.id)) p)
  unfold Corpus.ofRun at ho
  cases hlast : files.getLast? with
  | some active =>
    rw [hlast] at ho
    cases ho
    refine ⟨?_, by rintro _ ⟨⟩⟩
    rintro c ⟨⟩
    have hfiles : files.dropLast ++ [active] = files := List.dropLast_append_getLast? active hlast
    have hne : files.map (·.id) ≠ [] := by
      rw [Ne, List.map_eq_nil_iff]
      rintro rfl
      cases hlast
    have hkept : ∀ f ∈ files, ¬IsStray dir (files.map (·.id)) (filePath dir f.id).place :=
      fun f hf => not_isStray (List.mem_map_of_mem hf)
    have hchained := h.found.of_spares h.spares hkept
    constructor
    case place => rfl
    case numbers => rw [if_neg hne, Corpus.files, hfiles]
    case found => exact fun _ => by rw [Corpus.files, hfiles]; exact h.found
    case made => exact fun hnil => absurd hnil hne
    case chained => rwa [Corpus.files, hfiles]
    case grown => rw [Corpus.files, hfiles]; exact h.grown
    case spares => exact hspares
    case cleared => exact h.cleared
  | none =>
    have hnil : files = [] := List.getLast?_eq_none_iff.1 hlast
    rw [hlast] at ho
    cases hc : disk'.openOrCreate (filePath dir 0).place with
    | error cause =>
      simp only [hc] at ho
      cases ho
      exact ⟨by rintro _ ⟨⟩, fun e he => ⟨rfl, cause, (Except.error.inj he).symm⟩⟩
    | ok created =>
      obtain ⟨handle, disk₃⟩ := created
      simp only [hc] at ho
      cases ho
      refine ⟨?_, by rintro _ ⟨⟩⟩
      rintro c ⟨⟩
      have hfree' : disk'.node? (filePath dir 0).place = none := h.spares.free (h.free hnil) (notMem_upwards _ _)
      obtain ⟨rfl, rfl⟩ := openOrCreate_of_free hfree' hc
      subst hnil
      have hnew : disk'.Spares (IsStray dir []) (MayMake dir []) (disk'.addFile (filePath dir 0).place).2 :=
        (Disk.spares_addFile hfree').mono (fun _ => False.elim) fun p hp => .inr ⟨rfl, hp⟩
      constructor
      case place => rfl
      case numbers => rfl
      case found => exact fun hne => absurd rfl hne
      case made =>
        refine fun _ => ⟨h.free rfl, ?_⟩
        simp [Corpus.files, CorpusFile.ofDisk]
      case chained => exact ⟨rfl, (Disk.node?_addFile _ _ _).trans (if_pos rfl), rfl, trivial⟩
      case grown =>
        have hgrown := h.grown
        cases hm : manifest.files with
        | nil => trivial
        | cons entry entries =>
          rw [hm] at hgrown
          exact absurd hgrown id
      case spares => exact hspares.trans hnew
      case cleared =>
        intro p node hp hstray
        rw [Disk.node?_addFile, if_neg]
        · exact h.cleared p node hp hstray
        · rintro rfl
          rw [h.free rfl] at hp
          cases hp

/-- An opening takes the files of the manifest in order and then all files whose numbers follow without a gap, or makes
the first file if there are none. Each file starts where the one before it ends, the listed ones are as long as the
manifest says or, the last one, longer, and none is touched. Away go only names that read as corpus files of other
numbers; with no file to take those are all that read as corpus files. An opening that fails before it clears the strays
leaves everything as it was, and one that fails later spares all but strays. -/
theorem openClearing_spares (order : List Place → List Place) (disk : Disk) (dir : Path) (manifest : Manifest)
    (maxFileSize : Nat) (horder : ∀ places, (order places).Perm places) (hnumbered : Numbered disk dir manifest) :
    ∃ count, IsRun disk dir (following manifest) count ∧
      (∀ c, (openClearing order disk dir manifest maxFileSize).1 = .ok c →
        Opened disk (openClearing order disk dir manifest maxFileSize).2 dir manifest (idsOf manifest count) c) ∧
      ∀ e, (openClearing order disk dir manifest maxFileSize).1 = .error e →
        disk.Spares (fun _ => False) (· ∈ dir.place.upwards) (openClearing order disk dir manifest maxFileSize).2 ∨
        (∃ cause, e = .removeStray cause ∨ e = .createCorpusFile cause) ∧
          disk.Spares (IsStray dir (idsOf manifest count)) (· ∈ dir.place.upwards)
            (openClearing order disk dir manifest maxFileSize).2 := by
  obtain ⟨count, hrun, -⟩ := runFrom_eq hnumbered
  refine ⟨count, hrun, ?_⟩
  unfold openClearing
  cases hmake : disk.makeDirectories dir.place with
  | error cause => exact ⟨nofun, fun e _ => .inl (.refl _ _ _)⟩
  | ok disk₁ =>
    dsimp only
    have hmade := Disk.spares_makeDirectories hmake
    cases hfiles : run disk₁ dir manifest with
    | error e => exact ⟨nofun, fun e _ => .inl hmade⟩
    | ok files =>
      dsimp only
      have hdeep : ∀ name, disk₁.node? (dir.place ++ [name]) = disk.node? (dir.place ++ [name]) := by
        intro name
        apply (Disk.makeDirectories_eq hmake).1
        rw [List.length_append, List.length_singleton]
        omega
      obtain ⟨hchained, hgrown, hids⟩ := run_eq_ok hfiles
      obtain ⟨count₁, hrun₁, hfrom⟩ := runFrom_eq (hnumbered.congr hdeep)
      obtain rfl := hrun.unique (hrun₁.congr fun name => (hdeep name).symm)
      rw [hfrom, ← idsOf] at hids
      rw [← hids]
      have hfound : Chained disk dir 0 files := by
        refine hchained.imp fun f _ hnode => ⟨?_, ((Disk.makeDirectories_eq hmake).2 _).symm⟩
        rwa [filePath_place, ← hdeep]
      have hstrays : ∀ p, p ∈ order (strays disk₁ dir files) ↔
          (disk₁.node? p).isSome ∧ IsStray dir (files.map (·.id)) p := by
        intro p
        rw [(horder _).mem_iff, mem_strays]
      cases hremove : removeStrays disk₁ (order (strays disk₁ dir files)) with
      | mk outcome disk₂ =>
        obtain ⟨hgone, hdone, hfailed⟩ := spares_removeStrays hremove
        have hspares : disk.Spares (IsStray dir (files.map (·.id))) (· ∈ dir.place.upwards) disk₂ :=
          (hmade.mono (fun _ => False.elim) fun _ => id).trans
            (hgone.mono (fun p hp => ((hstrays p).1 hp).2) fun _ => False.elim)
        cases outcome with
        | error e =>
          dsimp only
          refine ⟨nofun, ?_⟩
          rintro e' ⟨⟩
          obtain ⟨cause, hcause⟩ := hfailed e rfl
          exact .inr ⟨⟨cause, .inl hcause⟩, hspares⟩
        | ok u =>
          dsimp only
          have hcleared : Cleared disk disk₂ dir manifest files := by
            refine ⟨hfound, hgrown, fun hnil => hrun.first_free (by rw [← hids, hnil]; rfl), hspares, ?_⟩
            intro p node hp hstray
            refine hdone rfl p ((hstrays p).2 ⟨?_, hstray⟩)
            rw [hmade.kept hp id]
            rfl
          cases hopen : ofRun disk₂ dir maxFileSize files with
          | mk r disk₃ =>
            obtain ⟨hopened, hrefused⟩ := hcleared.ofRun hopen
            refine ⟨hopened, fun e he => ?_⟩
            obtain ⟨rfl, cause, hcause⟩ := hrefused e he
            exact .inr ⟨⟨cause, .inr hcause⟩, hspares⟩

/-! ### A mixed directory -/

def mixed : Path := ⟨["", "s"], "/s"⟩

/-- A disk whose directory has files with these names and bytes. -/
def holding (files : List (String × Bytes)) : Disk :=
  files.foldl (fun d (name, bs) => (d.addFile (mixed.place ++ [name])).2.setBytes d.fresh bs)
    ((Disk.empty [""]).addDirectory mixed.place)

/-- Two listed files, of which the last one has grown, one that follows, two strays and a foreign name. -/
def mixture : Disk :=
  holding [("corpus.000003.dat", [1, 2, 3]), ("corpus.+9.dat", [4]), ("corpus.000001.dat", [5, 6]), ("notes", [7]),
    ("corpus.000004.dat", [8]), ("corpus.000006.dat", [9])]

def listing : Manifest where
  files := [⟨1, 0, 2⟩, ⟨3, 2, 1⟩]

theorem numbered_mixture : Numbered mixture mixed listing where
  names name id hname hid := by
    have hall : ∀ name ∈ mixture.names mixed.place, (FileName.id? name).all (·.toNat < 2 ^ 32 - 1) := by decide +kernel
    have hlt := hall name (Disk.mem_names.2 hname)
    rwa [hid, Option.all_some, decide_eq_true_iff] at hlt
  listed := by decide

theorem openClearing_spares_mixture : ∃ c, (openClearing List.reverse mixture mixed listing 10).1 = .ok c ∧
    Opened mixture (openClearing List.reverse mixture mixed listing 10).2 mixed listing [1, 3, 4] c := by
  obtain ⟨count, hrun, hopened, -⟩ :=
    openClearing_spares List.reverse mixture mixed listing 10 List.reverse_perm numbered_mixture
  have hone : IsRun mixture mixed (following listing) 1 := ⟨by decide, by decide +kernel, by decide +kernel⟩
  obtain rfl := hrun.unique hone
  have hok : (openClearing List.reverse mixture mixed listing 10).1.isOk = true := by decide +kernel
  cases hc : (openClearing List.reverse mixture mixed listing 10).1 with
  | error e =>
    rw [hc] at hok
    cases hok
  | ok c => exact ⟨c, rfl, hopened c hc⟩

/-- A name that reads as the number of the first file goes all the same if that file has to be made. -/
theorem openAt_clears_first : ∃ c, (openAt (holding [("corpus.0.dat", [1])]) mixed .empty 10).1 = .ok c ∧
    c.files.map (·.id) = [0] ∧ FileName.id? "corpus.0.dat" = some 0 ∧
    (holding [("corpus.0.dat", [1])]).node? ["", "s", "corpus.0.dat"] = some (.file 0) ∧
    (openAt (holding [("corpus.0.dat", [1])]) mixed .empty 10).2.node? ["", "s", "corpus.0.dat"] = none := by
  have hids : ((openAt (holding [("corpus.0.dat", [1])]) mixed .empty 10).1.toOption.map fun c => c.files.map (·.id)) =
      some [0] := by decide +kernel
  obtain ⟨c, hc, hfiles⟩ := Option.map_eq_some_iff.1 hids
  exact ⟨c, toOption_eq_some_iff.1 hc, hfiles, by decide +kernel, by decide +kernel, by decide +kernel⟩

end Corpus

end PhraseIndex
