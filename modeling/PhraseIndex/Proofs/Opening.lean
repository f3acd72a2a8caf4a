import PhraseIndex.Proofs.Layout

/-!
# Opening a corpus

A run of files is `Filed` when it lies on the disk and no file follows it. Opening with the manifest of any earlier time
finds the files as they are and does not touch them (`run_of_grown`, `Filed.openAt`). A run stays filed when the next
file is made and when bytes go to the end of its last one (`Filed.create`, `Filed.write`).
-/

namespace PhraseIndex

namespace Corpus

variable {disk disk' : Disk} {dir : Path} {n base : Nat} {f : CorpusFile} {files more : List CorpusFile}
  {entries : List ManifestFile}

/-! ## Finding the files -/

/-- The listed files are found as they are. -/
theorem listedFiles_of_grown (h : Laid disk dir n base files) (hg : Grown entries files) :
    listedFiles disk dir base entries = .ok (files.take entries.length) := by
  induction entries generalizing n base files with
  | nil => rfl
  | cons entry entries ih =>
    cases files with
    | nil => exact absurd hg id
    | cons f files =>
      obtain ⟨hid, hbase, hsize, hlast, hgrown⟩ := hg
      obtain ⟨-, -, hfbase, hnode, hfsize, hrest⟩ := h
      have hfile : CorpusFile.ofDisk disk entry.id base f.handle = f := by
        rw [CorpusFile.ofDisk, hid, ← hfbase, ← hfsize]
      have hexists : disk.pathExists (filePath dir entry.id).place = true := by
        rw [Disk.pathExists, hid, hnode]
        rfl
      have hfind : disk.find (filePath dir entry.id).place = .ok f.handle := by rw [Disk.find, hid, hnode]
      have hstart : (entry.base.toNat == base) = true := by rw [hbase, hfbase, beq_self_eq_true]
      have hsizes : (decide (entry.size.toNat ≤ f.size) && (entries.isEmpty || f.size == entry.size.toNat)) = true := by
        rw [Bool.and_eq_true, Bool.or_eq_true, decide_eq_true_eq, List.isEmpty_iff, beq_iff_eq]
        exact ⟨hsize, hlast.imp_right Eq.symm⟩
      have hopen : openListed disk dir base entries.isEmpty entry = .ok f := by
        simp only [openListed, hstart, hexists, hfind, require, ↓reduceIte, bind, Except.bind, Except.mapError, hfile,
          hsizes]
        rfl
      have hend : f.endOffset = base + f.size := by rw [CorpusFile.endOffset, hfbase]
      rw [listedFiles, hopen]
      simp only [bind, Except.bind]
      rw [hend, ih hrest hgrown]
      rfl

/-- The files of consecutive numbers are found as they are. -/
theorem adoptedFiles_of_laid (h : Laid disk dir n base files) :
    adoptedFiles disk dir base (files.map (·.id)) = .ok files := by
  induction files generalizing n base with
  | nil => rfl
  | cons f files ih =>
    obtain ⟨-, -, hbase, hnode, hsize, hrest⟩ := h
    have hfile : CorpusFile.ofDisk disk f.id base f.handle = f := by rw [CorpusFile.ofDisk, ← hbase, ← hsize]
    have hfind : disk.find (filePath dir f.id).place = .ok f.handle := by rw [Disk.find, hnode]
    have hend : f.endOffset = base + f.size := by rw [CorpusFile.endOffset, hbase]
    rw [List.map_cons, adoptedFiles, hfind]
    simp only [Except.mapError, bind, Except.bind, hfile]
    rw [hend, ih hrest]
    rfl

/-- The files lie on the disk from number nought on, and no other number has a file. -/
structure Filed (disk : Disk) (dir : Path) (files : List CorpusFile) : Prop where
  laid : Laid disk dir 0 0 files
  fresh : ∀ id : UInt32, (∀ f ∈ files, f.id ≠ id) → disk.node? (filePath dir id).place = none

theorem Filed.congr (h : Filed disk dir files)
    (hnode : ∀ id, disk'.node? (filePath dir id).place = disk.node? (filePath dir id).place)
    (hbytes : ∀ id, disk'.bytes id = disk.bytes id) : Filed disk' dir files where
  laid := h.laid.congr (fun f _ => hnode f.id) fun f _ => hbytes f.handle
  fresh id hid := by rw [hnode, h.fresh id hid]

/-- The number after the listed files. -/
theorem nextId_of_grown (h : Laid disk dir n base files) (hg : Grown entries files) :
    (entries.getLast?.map (·.id + 1)).getD (UInt32.ofNat n) = UInt32.ofNat (n + entries.length) := by
  induction entries generalizing n base files with
  | nil => rfl
  | cons entry entries ih =>
    cases files with
    | nil => exact absurd hg id
    | cons f files =>
      obtain ⟨hid, -, -, -, hgrown⟩ := hg
      obtain ⟨-, hfid, -, -, -, hrest⟩ := h
      have hnext := ih hrest hgrown
      cases entries with
      | nil =>
        show entry.id + 1 = UInt32.ofNat (n + 1)
        rw [hid, hfid, UInt32.ofNat_add]
        rfl
      | cons e entries =>
        rw [List.getLast?_cons_cons, List.length_cons, Nat.add_comm _ 1, ← Nat.add_assoc, ← hnext]
        simp [List.getLast?_cons]

theorem takeWhile_range {α : Type} {p : α → Bool} {g : Nat → α} {m k : Nat} (hp : ∀ i < m, p (g i) = true)
    (hn : 0 < k → p (g m) = false) : ((List.range (m + k)).map g).takeWhile p = (List.range m).map g := by
  rw [List.range_add, List.map_append, List.takeWhile_append_of_pos]
  · cases k with
    | zero => simp
    | succ k => simp [List.range_succ_eq_map, hn (Nat.succ_pos k)]
  · intro a ha
    obtain ⟨i, hi, rfl⟩ := List.mem_map.1 ha
    exact hp i (List.mem_range.1 hi)

/-- A directory has a name for every number that is taken. -/
theorem length_le_names {ids : List UInt32} (hnodup : ids.Nodup)
    (htaken : ∀ id ∈ ids, (disk.node? (filePath dir id).place).isSome) :
    ids.length ≤ (disk.names dir.place).length := by
  have hnames : (ids.map FileName.ofId).Nodup :=
    List.pairwise_map.2 (hnodup.imp fun hne he => hne (FileName.ofId_inj he))
  have hsub : ids.map FileName.ofId ⊆ disk.names dir.place := by
    intro name hname
    obtain ⟨id, hid, rfl⟩ := List.mem_map.1 hname
    exact Disk.mem_names.2 (htaken id hid)
  have hlength := (List.subperm_of_subset hnames hsub).length_le
  rwa [List.length_map] at hlength

theorem Laid.length_le_names (h : Laid disk dir n base files) : files.length ≤ (disk.names dir.place).length := by
  rw [← List.length_map (·.id)]
  refine Corpus.length_le_names h.nodup_ids fun id hid => ?_
  obtain ⟨f, hf, rfl⟩ := List.mem_map.1 hid
  rw [h.node hf]
  rfl

/-- All files after the first `n` are found by their numbers. -/
theorem runFrom_of_filed (h : Filed disk dir (files ++ more)) (hlen : (files ++ more).length < 2 ^ 32) :
    runFrom disk dir (UInt32.ofNat files.length) = more.map (·.id) := by
  have hmore := (laid_append.1 h.laid).2
  rw [Nat.zero_add] at hmore
  have hids := hmore.ids
  have hnumber : ∀ i, UInt32.ofNat files.length + UInt32.ofNat i = UInt32.ofNat (files.length + i) :=
    fun i => (UInt32.ofNat_add _ _).symm
  obtain ⟨k, hk⟩ := Nat.le.dest (Nat.le_trans (by rw [List.length_append]; omega) h.laid.length_le_names :
    more.length ≤ (disk.names dir.place).length)
  unfold runFrom
  simp only [hnumber]
  rw [← hk, takeWhile_range, ← hids]
  · intro i hi
    have hmem : UInt32.ofNat (files.length + i) ∈ more.map (·.id) := by
      rw [hids]
      exact List.mem_map.2 ⟨i, List.mem_range.2 hi, rfl⟩
    obtain ⟨f, hf, hid⟩ := List.mem_map.1 hmem
    rw [← hid, Disk.pathExists, hmore.node hf]
    rfl
  · intro _
    have hout : ∀ f ∈ files ++ more, f.id ≠ UInt32.ofNat (files.length + more.length) := by
      intro f hf
      rw [List.length_append] at hlen
      exact h.laid.id_ne hlen (.inr (by rw [List.length_append]; omega)) hf
    rw [Disk.pathExists, h.fresh _ hout]
    rfl

/-- With an earlier manifest all files are found as they are. -/
theorem run_of_grown {manifest : Manifest} (h : Filed disk dir files) (hg : Grown manifest.files files)
    (hlen : files.length < 2 ^ 32) : run disk dir manifest = .ok files := by
  have hsplit := List.take_append_drop manifest.files.length files
  have htake : (files.take manifest.files.length).length = manifest.files.length := by
    rw [List.length_take, Nat.min_eq_left hg.length_le]
  have hlaid := h.laid
  rw [← hsplit] at hlaid
  obtain ⟨hfirst, hrest⟩ := laid_append.1 hlaid
  have hnext : nextId manifest = UInt32.ofNat (files.take manifest.files.length).length := by
    rw [htake]
    have := nextId_of_grown h.laid hg
    rw [Nat.zero_add] at this
    exact this
  have hend := hfirst.contiguous.endOf fun _ => rfl
  have hrun : runFrom disk dir (UInt32.ofNat (files.take manifest.files.length).length) =
      (files.drop manifest.files.length).map (·.id) := runFrom_of_filed (by rwa [hsplit]) (by rwa [hsplit])
  rw [run, listedFiles_of_grown h.laid hg]
  simp only [bind, Except.bind]
  rw [hend, hnext, hrun, adoptedFiles_of_laid hrest]
  exact congrArg Except.ok hsplit

/-! ## Strays -/

/-- A name that reads as a corpus file of another number. -/
def IsStray (dir : Path) (ids : List UInt32) (p : Place) : Prop :=
  ∃ name id, p = dir.place ++ [name] ∧ FileName.id? name = some id ∧ id ∉ ids

/-- The file of a number is no stray among others. -/
theorem not_isStray {ids : List UInt32} {id : UInt32} (h : id ∈ ids) : ¬IsStray dir ids (filePath dir id).place := by
  rintro ⟨name, other, hplace, hname, hout⟩
  rw [filePath_place, List.append_cancel_left_eq, List.singleton_inj] at hplace
  rw [← hplace, FileName.id?_ofId] at hname
  cases hname
  exact hout h

theorem mem_strays {p : Place} :
    p ∈ strays disk dir files ↔ (disk.node? p).isSome ∧ IsStray dir (files.map (·.id)) p := by
  have hread : ∀ name, (do
      let id ← FileName.id? name
      if files.any (·.id == id) then none else some (dir.place ++ [name]) : Option Place) = some p ↔
      ∃ id, FileName.id? name = some id ∧ id ∉ files.map (·.id) ∧ dir.place ++ [name] = p := by
    intro name
    cases FileName.id? name with
    | none => simp
    | some id => simp
  simp only [strays, List.mem_filterMap, hread, Disk.mem_names]
  constructor
  · rintro ⟨name, hnode, id, hid, hout, rfl⟩
    exact ⟨hnode, name, id, rfl, hid, hout⟩
  · rintro ⟨hnode, name, id, rfl, hid, hout⟩
    exact ⟨name, hnode, id, hid, hout, rfl⟩

/-- Removing strays takes names away and changes no bytes. -/
theorem removeStrays_eq {places : List Place} {r : Except Error Unit} (h : removeStrays disk places = (r, disk')) :
    (∀ q, q ∉ places ∨ disk.node? q = none → disk'.node? q = disk.node? q) ∧ ∀ id, disk'.bytes id = disk.bytes id := by
  induction places generalizing disk with
  | nil =>
    cases h
    exact ⟨fun _ _ => rfl, fun _ => rfl⟩
  | cons place places ih =>
    unfold removeStrays at h
    cases hd : disk.removeFile place with
    | error e =>
      simp only [hd] at h
      cases h
      exact ⟨fun _ _ => rfl, fun _ => rfl⟩
    | ok d =>
      simp only [hd] at h
      have hdrop : d = disk.dropName place := by
        unfold Disk.removeFile at hd
        obtain ⟨id, -, hd⟩ := bind_eq_ok_iff.1 hd
        cases hd
        rfl
      subst hdrop
      obtain ⟨hnode, hbytes⟩ := ih h
      refine ⟨?_, fun id => hbytes id⟩
      intro q hq
      rw [hnode q, Disk.node?_dropName]
      · split
        · next he =>
          rcases hq with hq | hq
          · exact absurd (by rw [he]; exact List.mem_cons_self) hq
          · rw [hq]
        · rfl
      · rw [Disk.node?_dropName]
        rcases hq with hq | hq
        · exact .inl fun hmem => hq (List.mem_cons_of_mem _ hmem)
        · right
          split
          · rfl
          · exact hq

theorem Filed.removeStrays {r : Except Error Unit} (h : Filed disk dir files)
    (hr : Corpus.removeStrays disk (strays disk dir files) = (r, disk')) : Filed disk' dir files := by
  obtain ⟨hnode, hbytes⟩ := removeStrays_eq hr
  refine h.congr (fun id => hnode _ ?_) hbytes
  by_cases hid : id ∈ files.map (·.id)
  · exact .inl fun hmem => not_isStray hid (mem_strays.1 hmem).2
  · refine .inr (h.fresh id fun f hf he => hid ?_)
    exact List.mem_map.2 ⟨f, hf, he⟩

/-! ## New files and bytes -/

/-- A file with the next number is a new one, which is empty and comes after the others. -/
theorem Filed.create {handle : FileId} (h : Filed disk dir files) (hlen : files.length < 2 ^ 32)
    (ho : disk.openOrCreate (filePath dir (UInt32.ofNat files.length)).place = .ok (handle, disk')) :
    Filed disk' dir (files ++ [.ofDisk disk' (UInt32.ofNat files.length) (extent files) handle]) ∧
      ∀ f ∈ files, disk'.bytes f.handle = disk.bytes f.handle := by
  have hout : ∀ f ∈ files, f.id ≠ UInt32.ofNat files.length :=
    fun f hf => h.laid.id_ne hlen (.inr (by omega)) hf
  have hnone := h.fresh _ hout
  unfold Disk.openOrCreate at ho
  rw [hnone] at ho
  dsimp only at ho
  split at ho
  · cases ho
    have hold : ∀ f ∈ files, (disk.addFile (filePath dir (UInt32.ofNat files.length)).place).2.bytes f.handle =
        disk.bytes f.handle := by
      intro f hf
      rw [Disk.bytes_addFile, if_neg (Nat.ne_of_gt (disk.id_lt_fresh (h.laid.node hf)))]
    have hnode : ∀ f ∈ files, (disk.addFile (filePath dir (UInt32.ofNat files.length)).place).2.node?
        (filePath dir f.id).place = disk.node? (filePath dir f.id).place := by
      intro f hf
      rw [Disk.node?_addFile, if_neg fun he => hout f hf (filePath_inj he).symm]
    refine ⟨⟨laid_append.2 ⟨h.laid.congr hnode hold, ?_, ?_, ?_, ?_, rfl, trivial⟩, ?_⟩, hold⟩
    · rwa [Nat.zero_add]
    · rw [Nat.zero_add]
      rfl
    · rw [Nat.zero_add]
      rfl
    · exact (Disk.node?_addFile _ _ _).trans (if_pos rfl)
    · intro id hid
      have hne : UInt32.ofNat files.length ≠ id := hid _ (List.mem_append_right _ List.mem_cons_self)
      exact ((Disk.node?_addFile _ _ _).trans (if_neg fun he => hne (filePath_inj he))).trans
        (h.fresh id fun f hf => hid f (List.mem_append_left _ hf))
  · cases ho

/-- The last file may be given other bytes; the files before it stay as they are. -/
theorem Filed.setBytes (h : Filed disk dir (files ++ [f])) (bs : Bytes) :
    Filed (disk.setBytes f.handle bs) dir (files ++ [{ f with size := bs.length }]) ∧
      ∀ g ∈ files, (disk.setBytes f.handle bs).bytes g.handle = disk.bytes g.handle := by
  obtain ⟨hfiles, hnum, hid, hbase, hnode, -, -⟩ := laid_append.1 h.laid
  have hother : ∀ g ∈ files, (disk.setBytes f.handle bs).bytes g.handle = disk.bytes g.handle := by
    intro g hg
    have hnodup := h.laid.nodup_handles
    rw [List.map_append, List.nodup_append] at hnodup
    have hne := hnodup.2.2 g.handle (List.mem_map_of_mem hg) f.handle List.mem_cons_self
    rw [Disk.bytes_setBytes, if_neg hne.symm]
  refine ⟨⟨laid_append.2 ⟨hfiles.congr (fun g _ => rfl) hother, hnum, hid, hbase, hnode, ?_, trivial⟩, ?_⟩, hother⟩
  · show bs.length = List.length _
    rw [Disk.bytes_setBytes, if_pos rfl]
  · intro id hfresh
    apply h.fresh id
    intro g hg
    rcases List.mem_append.1 hg with hg | hg
    · exact hfresh g (List.mem_append_left _ hg)
    · rw [List.mem_singleton.1 hg]
      exact hfresh { f with size := bs.length } (List.mem_append_right _ (List.mem_singleton.2 rfl))

/-- Bytes go to the end of the last file, and the files before it stay as they are. -/
theorem Filed.write (h : Filed disk dir (files ++ [f])) (bs : Bytes) :
    Filed (disk.append f.handle bs) dir (files ++ [{ f with size := f.size + bs.length }]) ∧
      (∀ g ∈ files, (disk.append f.handle bs).bytes g.handle = disk.bytes g.handle) ∧
      (disk.append f.handle bs).bytes f.handle = disk.bytes f.handle ++ bs := by
  obtain ⟨hfiled, hother⟩ := h.setBytes (disk.bytes f.handle ++ bs)
  rw [List.length_append, ← h.laid.size (List.mem_append_right _ List.mem_cons_self)] at hfiled
  exact ⟨hfiled, hother, by rw [Disk.append, Disk.bytes_setBytes, if_pos rfl]⟩

/-! ## The open corpus -/

section Opened

variable {c : Corpus} {manifest : Manifest} {maxFileSize : Nat}

/-- An open corpus is over the files of its run, or over one file if there are none. -/
theorem ofRun_eq_ok (h : ofRun disk dir maxFileSize files = (.ok c, disk')) : c.files = files ∧ disk' = disk ∨
    files = [] ∧ ∃ handle, disk.openOrCreate (filePath dir 0).place = .ok (handle, disk') ∧
      c.files = [.ofDisk disk' 0 0 handle] := by
  unfold ofRun at h
  split at h
  · next active hlast =>
    cases h
    exact .inl ⟨List.dropLast_append_getLast? active hlast, rfl⟩
  · next hnone =>
    split at h
    · next handle created hcreate =>
      cases h
      exact .inr ⟨List.getLast?_eq_none_iff.1 hnone, handle, hcreate, rfl⟩
    · cases h

/-- The steps of an opening that succeeds. -/
theorem openAt_eq_ok (h : openAt disk dir manifest maxFileSize = (.ok c, disk')) : ∃ made cleared files,
    disk.makeDirectories dir.place = .ok made ∧ run made dir manifest = .ok files ∧
      removeStrays made (strays made dir files) = (.ok (), cleared) ∧
      ofRun cleared dir maxFileSize files = (.ok c, disk') := by
  unfold openAt openClearing at h
  split at h
  · cases h
  · next made hmake =>
    split at h
    · cases h
    · next files hrun =>
      split at h
      · cases h
      · next cleared hremove => exact ⟨made, cleared, files, hmake, hrun, hremove, h⟩

theorem maxFileSize_openAt (h : openAt disk dir manifest maxFileSize = (.ok c, disk')) :
    c.maxFileSize = maxFileSize := by
  obtain ⟨made, cleared, files, -, -, -, h⟩ := openAt_eq_ok h
  unfold ofRun at h
  split at h
  · cases h
    rfl
  · split at h
    · cases h
      rfl
    · cases h

end Opened

/-- A corpus over a run has its files; without files it may make the first one. -/
theorem Filed.ofRun {maxFileSize : Nat} {r : Except Error Corpus} (h : Filed disk dir files)
    (hlen : files.length < 2 ^ 32) (ho : Corpus.ofRun disk dir maxFileSize files = (r, disk')) :
    ∃ opened, Filed disk' dir opened ∧ (∀ c, r = .ok c → c.files = opened ∧ c.dir = dir) ∧
      (files = [] ∨ opened = files ∧ disk' = disk) := by
  unfold Corpus.ofRun at ho
  cases hlast : files.getLast? with
  | some active =>
    rw [hlast] at ho
    cases ho
    refine ⟨files, h, ?_, .inr ⟨rfl, rfl⟩⟩
    intro c hc
    cases hc
    exact ⟨List.dropLast_append_getLast? active hlast, rfl⟩
  | none =>
    have hnil : files = [] := List.getLast?_eq_none_iff.1 hlast
    subst hnil
    rw [hlast] at ho
    cases hc : disk.openOrCreate (filePath dir 0).place with
    | ok created =>
      obtain ⟨handle, disk₁⟩ := created
      simp only [hc] at ho
      cases ho
      refine ⟨_, (h.create hlen hc).1, ?_, .inl rfl⟩
      intro c hc
      cases hc
      exact ⟨rfl, rfl⟩
    | error e =>
      simp only [hc] at ho
      cases ho
      exact ⟨[], h, nofun, .inl rfl⟩

/-- Opening keeps the run and its bytes; without files it may make the first one. -/
theorem Filed.openAt {manifest : Manifest} {maxFileSize : Nat} {r : Except Error Corpus} (h : Filed disk dir files)
    (hg : Grown manifest.files files) (hlen : files.length < 2 ^ 32)
    (ho : Corpus.openAt disk dir manifest maxFileSize = (r, disk')) :
    ∃ opened, Filed disk' dir opened ∧ (∀ c, r = .ok c → c.files = opened ∧ c.dir = dir) ∧
      (files = [] ∨ opened = files ∧ ∀ f ∈ files, disk'.bytes f.handle = disk.bytes f.handle) := by
  unfold Corpus.openAt openClearing at ho
  cases hm : disk.makeDirectories dir.place with
  | error e =>
    simp only [hm] at ho
    cases ho
    exact ⟨files, h, nofun, .inr ⟨rfl, fun _ _ => rfl⟩⟩
  | ok disk₁ =>
    simp only [hm] at ho
    obtain ⟨hnode, hbytes⟩ := Disk.makeDirectories_eq hm
    have h₁ : Filed disk₁ dir files := by
      refine h.congr (fun id => hnode _ ?_) hbytes
      rw [filePath_place, List.length_append, List.length_singleton]
      omega
    rw [run_of_grown h₁ hg hlen] at ho
    dsimp only [id] at ho
    cases hs : Corpus.removeStrays disk₁ (strays disk₁ dir files) with
    | mk cleared disk₂ =>
      rw [hs] at ho
      have h₂ := h₁.removeStrays hs
      have hkept : ∀ f ∈ files, disk₂.bytes f.handle = disk.bytes f.handle := by
        intro f _
        rw [(removeStrays_eq hs).2, hbytes]
      cases cleared with
      | error e =>
        cases ho
        exact ⟨files, h₂, nofun, .inr ⟨rfl, hkept⟩⟩
      | ok u =>
        obtain ⟨opened, hopened, hc, hcase⟩ := h₂.ofRun hlen ho
        refine ⟨opened, hopened, hc, hcase.imp_right ?_⟩
        rintro ⟨rfl, rfl⟩
        exact ⟨rfl, hkept⟩

end Corpus

end PhraseIndex
