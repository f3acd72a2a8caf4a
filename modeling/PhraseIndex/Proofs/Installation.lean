import PhraseIndex.Proofs.Growth
import PhraseIndex.Proofs.Operations

/-!
# Opening again

In a model directory that was opened once (`Model.Installed`) all directories are there, and the corpus files are the
only names that read as such (`Corpus.Clean`). Opening it again finds everything in its place and touches nothing
(`Model.openAt_of_installed`).
-/

namespace PhraseIndex

namespace Disk

variable {d d' d'' : Disk} {p q : Place}

/-! ## Nothing is lost -/

/-- Everything is still there, and no file is shorter. -/
structure Keeps (d d' : Disk) : Prop where
  nodes : ∀ {p : Place} {node : Node}, d.node? p = some node → d'.node? p = some node
  bytes : ∀ id ∈ d.fileIds, (d.bytes id).length ≤ (d'.bytes id).length

theorem Keeps.le (h : d.Keeps d') : d.Le d' := ⟨h.nodes, h.bytes⟩

theorem Keeps.refl (d : Disk) : d.Keeps d := ⟨id, fun _ _ => Nat.le_refl _⟩

theorem Keeps.trans (h : d.Keeps d') (h' : d'.Keeps d'') : d.Keeps d'' where
  nodes hp := h'.nodes (h.nodes hp)
  bytes := (h.le.trans h'.le).bytes

/-! ## Directories -/

theorem node?_addDirectory_eq (d : Disk) (p q : Place) :
    (d.addDirectory p).node? q = (d.node? q).or (if q = p then some .directory else none) := by
  by_cases hq : q = p
  · subst hq
    rw [if_pos rfl, addDirectory, pathExists]
    cases hn : d.node? q with
    | some node => exact hn
    | none =>
      show (d.nodes.insert q .directory)[q]? = _
      rw [Std.ExtTreeMap.getElem?_insert_self]
      rfl
  · rw [node?_addDirectory hq, if_neg hq, Option.or_none]

theorem node?_foldl_addDirectory (places : List Place) (d : Disk) (q : Place) :
    (places.foldl addDirectory d).node? q = (d.node? q).or (if q ∈ places then some .directory else none) := by
  induction places generalizing d with
  | nil => simp
  | cons p places ih =>
    rw [List.foldl_cons, ih, node?_addDirectory_eq, Option.or_assoc]
    by_cases hq : q = p
    · simp [hq]
    · simp [hq]

theorem makeDirectories_eq_ok_iff : d.makeDirectories p = .ok d' ↔
    d.isBlocked p = false ∧ d.isFile p = false ∧ d' = p.upwards.foldl addDirectory d := by
  unfold makeDirectories
  cases d.isBlocked p <;> cases d.isFile p <;> simp [eq_comm]

/-- The place and all places above it are directories. -/
def HasDirectories (d : Disk) (p : Place) : Prop := ∀ q ∈ p.upwards, d.node? q = some .directory

theorem HasDirectories.of_keeps (h : d.HasDirectories p) (hk : d.Keeps d') : d'.HasDirectories p :=
  fun q hq => hk.nodes (h q hq)

theorem mem_upwards_self (hp : p ≠ []) : p ∈ p.upwards := by
  refine List.mem_map.2 ⟨p.length - 1, List.mem_range.2 ?_, ?_⟩
  · have := List.length_pos_iff.2 hp
    omega
  · exact List.take_of_length_le (by omega)

theorem mem_upwards_cases (hq : q ∈ p.upwards) : q ∈ p.upwards.dropLast ∨ q = p := by
  obtain ⟨i, hi, rfl⟩ := List.mem_map.1 hq
  rw [List.mem_range] at hi
  obtain ⟨n, hn⟩ : ∃ n, p.length = n + 1 := ⟨p.length - 1, by omega⟩
  rw [Place.upwards, hn, List.range_succ, List.map_append, List.map_singleton, List.dropLast_concat]
  rcases Nat.lt_or_ge i n with hlt | hge
  · exact .inl (List.mem_map.2 ⟨i, List.mem_range.2 hlt, rfl⟩)
  · exact .inr (List.take_of_length_le (by omega))

theorem isFile_eq_false {node : Option Node} (hn : d.node? p = node) (hf : d.isFile p = false) :
    node.or (some .directory) = some .directory := by
  simp only [isFile, pathExists, isDirectory, hn] at hf
  cases node with
  | none => rfl
  | some node =>
    simp only [Option.isSome_some, Bool.true_and, Bool.not_eq_false', beq_iff_eq] at hf
    rw [Option.some_or, hf]

/-- Directories that were made are there, and all that was there before. -/
theorem hasDirectories_of_make (h : d.makeDirectories p = .ok d') : d'.HasDirectories p ∧ d.Keeps d' := by
  obtain ⟨-, hbytes⟩ := makeDirectories_eq h
  obtain ⟨hblocked, hfile, rfl⟩ := makeDirectories_eq_ok_iff.1 h
  refine ⟨?_, ?_, ?_⟩
  · intro q hq
    rw [node?_foldl_addDirectory, if_pos hq]
    refine isFile_eq_false rfl ?_
    rcases mem_upwards_cases hq with hq | rfl
    · rw [isBlocked, List.any_eq_false] at hblocked
      exact Bool.eq_false_iff.2 (hblocked q hq)
    · exact hfile
  · intro q node hq
    rw [node?_foldl_addDirectory, hq, Option.some_or]
  · intro id _
    rw [hbytes]

/-- Directories that are there need not be made. -/
theorem makeDirectories_of_has (h : d.HasDirectories p) (hp : p ≠ []) : d.makeDirectories p = .ok d := by
  have hnone : ∀ q ∈ p.upwards, d.isFile q = false := by
    intro q hq
    simp [isFile, isDirectory, h q hq]
  have hfold : ∀ places : List Place,
      (∀ q ∈ places, d.node? q = some .directory) → places.foldl addDirectory d = d := by
    intro places hplaces
    induction places with
    | nil => rfl
    | cons q places ih =>
      have hexists : d.pathExists q = true := by
        rw [pathExists, hplaces q List.mem_cons_self]
        rfl
      rw [List.foldl_cons, addDirectory, if_pos hexists]
      exact ih fun r hr => hplaces r (List.mem_cons_of_mem _ hr)
  refine makeDirectories_eq_ok_iff.2 ⟨?_, hnone p (mem_upwards_self hp), (hfold _ h).symm⟩
  rw [isBlocked, List.any_eq_false]
  intro q hq
  rw [hnone q ((List.dropLast_sublist _).subset hq)]
  exact Bool.false_ne_true

theorem keeps_openOrCreate {id : FileId} (h : d.openOrCreate p = .ok (id, d')) : d.Keeps d' where
  nodes {q node} hq := by
    rcases (openOrCreate_cases h).2 with rfl | ⟨hfree, rfl⟩
    · exact hq
    · rw [node?_addFile, if_neg, hq]
      rintro rfl
      rw [hfree] at hq
      cases hq
  bytes := (le_openOrCreate h).bytes

/-- How many bytes the file at a place has, if there is one. -/
def sizeAt (d : Disk) (p : Place) : Nat :=
  match d.node? p with
  | some (.file id) => (d.bytes id).length
  | _ => 0

theorem Keeps.sizeAt_le (h : d.Keeps d') (p : Place) : d.sizeAt p ≤ d'.sizeAt p := by
  unfold sizeAt
  cases hn : d.node? p with
  | none => exact Nat.zero_le _
  | some node =>
    rw [h.nodes hn]
    cases node with
    | directory => exact Nat.le_refl _
    | file id => exact h.bytes id (mem_fileIds.2 ⟨p, hn⟩)

/-- A name stands in its directory once. -/
theorem nodup_names (d : Disk) (dir : Place) : (d.names dir).Nodup := by
  have hkeys : d.nodes.keys.Nodup := Std.ExtTreeMap.nodup_keys
  refine List.pairwise_filterMap.2 (hkeys.imp ?_)
  intro p q hne name hp name' hq he
  subst he
  split at hp
  · next hdir =>
    split at hq
    · next hdir' =>
      rw [Bool.and_eq_true, beq_iff_eq] at hdir hdir'
      apply hne
      rw [← List.dropLast_append_getLast? name hp, ← List.dropLast_append_getLast? name hq, hdir.1, hdir'.1]
    · cases hq
  · cases hp

end Disk

namespace Corpus

variable {disk disk' : Disk} {dir : Path} {files : List CorpusFile} {c c' : Corpus} {manifest : Manifest}
  {maxFileSize : Nat}

theorem Grows.keeps (h : c.Grows disk c' disk') : disk.Keeps disk' := ⟨h.nodes, h.le.bytes⟩

/-! ## The names of the corpus -/

/-- No name in the directory reads as that of a corpus file. -/
def Unused (disk : Disk) (dir : Path) : Prop :=
  ∀ name id, FileName.id? name = some id → disk.node? (dir.place ++ [name]) = none

/-- What reads as the name of a corpus file in the directory is its usual name. -/
def Clean (disk : Disk) (dir : Path) : Prop :=
  ∀ name id, FileName.id? name = some id → (disk.node? (dir.place ++ [name])).isSome → name = FileName.ofId id

theorem Unused.clean (h : Unused disk dir) : Clean disk dir := by
  intro name id hid hsome
  rw [h name id hid] at hsome
  cases hsome

theorem Clean.of_nodes (h : Clean disk dir)
    (hn : ∀ name, (disk'.node? (dir.place ++ [name])).isSome → (disk.node? (dir.place ++ [name])).isSome) :
    Clean disk' dir := fun name id hid hsome => h name id hid (hn name hsome)

/-- New corpus files have their usual names. -/
theorem Clean.grows (h : Clean disk c.dir) (hg : c.Grows disk c' disk') : Clean disk' c.dir := by
  intro name id hid hsome
  cases hn : disk.node? (c.dir.place ++ [name]) with
  | some node => exact h name id hid (by rw [hn]; rfl)
  | none =>
    obtain ⟨f, -, hplace⟩ := hg.places hn hsome
    rw [filePath_place, List.append_cancel_left_eq, List.singleton_inj] at hplace
    rw [hplace, FileName.id?_ofId] at hid
    rw [hplace, Option.some.inj hid]

/-- Among clean names none is a stray. -/
theorem strays_eq_nil (h : Clean disk dir) (hf : Filed disk dir files) : strays disk dir files = [] := by
  refine List.filterMap_eq_nil_iff.2 fun name hname => ?_
  rw [Disk.mem_names] at hname
  cases hid : FileName.id? name with
  | none => rfl
  | some id =>
    have hany : files.any (·.id == id) = true := by
      by_contra hnone
      have hfree := hf.fresh id fun f hmem he => hnone (List.any_eq_true.2 ⟨f, hmem, beq_iff_eq.2 he⟩)
      rw [filePath_place, ← h name id hid hname] at hfree
      rw [hfree] at hname
      cases hname
    show (if files.any (·.id == id) then none else some (dir.place ++ [name])) = none
    rw [if_pos hany]

/-- Where the directory is there, a corpus file that is not there is made. -/
theorem openOrCreate_eq {id : UInt32} (hfree : disk.node? (filePath dir id).place = none)
    (hdirs : disk.HasDirectories dir.place) (hdir : dir.place ≠ []) :
    disk.openOrCreate (filePath dir id).place = .ok (disk.addFile (filePath dir id).place) := by
  have hparent : disk.isDirectory (filePath dir id).place.parent = true := by
    rw [filePath_place, Place.parent, List.dropLast_concat, Disk.isDirectory, hdirs _ (Disk.mem_upwards_self hdir)]
    rfl
  simp only [Disk.openOrCreate, hfree, hparent, ↓reduceIte]

/-! ## The bytes of the corpus -/

/-- All bytes in the files of a directory that read as corpus files. -/
def bytesIn (disk : Disk) (dir : Path) : Nat :=
  (((disk.names dir.place).filter fun name => (FileName.id? name).isSome).map fun name =>
    disk.sizeAt (dir.place ++ [name])).sum

theorem bytesIn_eq (h : Clean disk dir) (hf : Filed disk dir files) : bytesIn disk dir = extent files := by
  have hnodup : (files.map fun f => FileName.ofId f.id).Nodup := by
    refine List.pairwise_map.2 ((List.pairwise_map.1 hf.laid.nodup_ids).imp fun {f g} hne he => hne ?_)
    exact FileName.ofId_inj he
  have hmem : ∀ name, name ∈ (disk.names dir.place).filter (fun name => (FileName.id? name).isSome) ↔
      name ∈ files.map fun f => FileName.ofId f.id := by
    intro name
    rw [List.mem_filter, Disk.mem_names, List.mem_map]
    constructor
    · rintro ⟨hsome, hread⟩
      obtain ⟨id, hid⟩ := Option.isSome_iff_exists.1 hread
      have hname := h name id hid hsome
      by_contra hnone
      have hfree := hf.fresh id fun f hf he => hnone ⟨f, hf, by rw [he, hname]⟩
      rw [filePath_place, ← hname] at hfree
      rw [hfree] at hsome
      cases hsome
    · rintro ⟨f, hf', rfl⟩
      have hnode := hf.laid.node hf'
      rw [filePath_place] at hnode
      rw [hnode, FileName.id?_ofId]
      exact ⟨rfl, rfl⟩
  have hperm := (List.perm_ext_iff_of_nodup ((disk.nodup_names dir.place).filter _) hnodup).2 hmem
  rw [bytesIn, (hperm.map _).sum_eq, extent, List.map_map]
  refine congrArg List.sum (List.map_congr_left fun f hf' => ?_)
  have hnode := hf.laid.node hf'
  rw [filePath_place] at hnode
  rw [Function.comp_apply, Disk.sizeAt, hnode, hf.laid.size hf']

/-- What a disk keeps it keeps in each directory. -/
theorem bytesIn_le (h : disk.Keeps disk') (dir : Path) : bytesIn disk dir ≤ bytesIn disk' dir := by
  have hsub : (disk.names dir.place).filter (fun name => (FileName.id? name).isSome) ⊆
      (disk'.names dir.place).filter fun name => (FileName.id? name).isSome := by
    intro name hname
    rw [List.mem_filter, Disk.mem_names] at hname ⊢
    obtain ⟨node, hnode⟩ := Option.isSome_iff_exists.1 hname.1
    exact ⟨by rw [h.nodes hnode]; rfl, hname.2⟩
  obtain ⟨l, hperm, hl⟩ := List.subperm_of_subset ((disk.nodup_names dir.place).filter _) hsub
  calc bytesIn disk dir
      ≤ (((disk.names dir.place).filter fun name => (FileName.id? name).isSome).map fun name =>
          disk'.sizeAt (dir.place ++ [name])).sum := List.sum_le_sum fun name _ => h.sizeAt_le _
    _ = (l.map fun name => disk'.sizeAt (dir.place ++ [name])).sum := ((hperm.map _).sum_eq).symm
    _ ≤ bytesIn disk' dir := (hl.map _).sum_le_sum fun _ _ => Nat.zero_le _

/-! ## Opening the corpus -/

/-- Opening a clean corpus keeps everything and makes its directory. -/
theorem keeps_openAt {r : Except Error Corpus} (h : Clean disk dir) (hf : Filed disk dir files)
    (hg : Grown manifest.files files) (hlen : files.length < 2 ^ 32)
    (ho : openAt disk dir manifest maxFileSize = (r, disk')) :
    disk.Keeps disk' ∧ Clean disk' dir ∧ ∀ c, r = .ok c → disk'.HasDirectories dir.place := by
  unfold openAt openClearing at ho
  cases hm : disk.makeDirectories dir.place with
  | error e =>
    simp only [hm] at ho
    cases ho
    exact ⟨.refl _, h, nofun⟩
  | ok disk₁ =>
    have hdeep := (Disk.makeDirectories_eq hm).1
    have hbytes := (Disk.makeDirectories_eq hm).2
    obtain ⟨hdirs, hkeeps⟩ := Disk.hasDirectories_of_make hm
    have hchild : ∀ name, disk₁.node? (dir.place ++ [name]) = disk.node? (dir.place ++ [name]) :=
      fun name => hdeep _ (by rw [List.length_append, List.length_singleton]; omega)
    have hc₁ : Clean disk₁ dir := h.of_nodes fun name hsome => by rwa [hchild] at hsome
    have hf₁ : Filed disk₁ dir files := hf.congr (fun id => hchild _) hbytes
    simp only [hm, run_of_grown hf₁ hg hlen, strays_eq_nil hc₁ hf₁, id_eq, removeStrays] at ho
    unfold ofRun at ho
    split at ho
    · cases ho
      exact ⟨hkeeps, hc₁, fun _ _ => hdirs⟩
    · split at ho
      · next handle disk₂ hcreate =>
        cases ho
        have hkeeps₂ := Disk.keeps_openOrCreate hcreate
        refine ⟨hkeeps.trans hkeeps₂, ?_, fun _ _ => hdirs.of_keeps hkeeps₂⟩
        rcases (Disk.openOrCreate_cases hcreate).2 with rfl | ⟨-, rfl⟩
        · exact hc₁
        · intro name id hid hsome
          rw [Disk.node?_addFile] at hsome
          split at hsome
          · next he =>
            rw [filePath_place, List.append_cancel_left_eq, List.singleton_inj] at he
            rw [← he, FileName.id?_ofId] at hid
            rw [← he, Option.some.inj hid]
          · exact hc₁ name id hid hsome
      · cases ho
        exact ⟨hkeeps, hc₁, nofun⟩

/-- Where the directory and the files are there, opening finds them and changes nothing. -/
theorem openAt_of_clean (h : Clean disk dir) (hf : Filed disk dir files) (hg : Grown manifest.files files)
    (hlen : files.length < 2 ^ 32) (hdirs : disk.HasDirectories dir.place) (hdir : dir.place ≠ []) (hne : files ≠ [])
    (maxFileSize : Nat) :
    ∃ c, openAt disk dir manifest maxFileSize = (.ok c, disk) ∧ c.files = files ∧ c.dir = dir := by
  obtain ⟨active, hlast⟩ : ∃ active, files.getLast? = some active :=
    ⟨_, List.getLast?_eq_some_getLast hne⟩
  refine ⟨{ dir, maxFileSize, full := files.dropLast, active }, ?_, List.dropLast_append_getLast? active hlast, rfl⟩
  simp only [openAt, openClearing, Disk.makeDirectories_of_has hdirs hdir, run_of_grown hf hg hlen,
    strays_eq_nil h hf, id_eq, removeStrays, ofRun, hlast]

end Corpus

/-! ## Opening the index -/

namespace Model

variable {d : Durable} {path : Path} {config : Config}

/-- The directories of the index are there. -/
structure Installed (path : Path) (disk : Disk) : Prop where
  home : disk.isDirectory path.place
  index : disk.HasDirectories (indexPlace path.place)
  storage : disk.HasDirectories (storagePath path).place

theorem Installed.of_keeps {disk disk' : Disk} (h : Installed path disk) (hk : disk.Keeps disk') :
    Installed path disk' where
  home := by
    have hnode : disk.node? path.place = some .directory := beq_iff_eq.1 h.home
    rw [Disk.isDirectory, hk.nodes hnode]
    rfl
  index := h.index.of_keeps hk
  storage := h.storage.of_keeps hk

/-- An index whose directories and files are in their places is opened with what was committed, and nothing changes. -/
theorem openAt_of_installed {streams : Streams} {manifest : Manifest} {c : Corpus} {sweeper : Sweeper}
    (h : Installed path d.disk) (hv : config.validate = .ok ()) (ht : config.sweepTimeout?.isSome)
    (hl : d.store.prefixLength = some config.prefixLength) (hs : storedStreams d.store = .ok streams)
    (hm : storedManifest d.store = .ok manifest)
    (hc : Corpus.openAt d.disk (storagePath path) manifest config.maxFileSize.toNat = (.ok c, d.disk))
    (hw : Sweeper.resume d.store config.prefixLength config.sweepBatch.toNat = .ok sweeper) :
    openAt d path config = (.ok { path, config, corpus := c, streams, sweeper }, d) := by
  obtain ⟨store, disk⟩ := d
  have hpin : store.pin config.prefixLength = .ok store := Store.pin_eq_ok_iff.2 ⟨by rw [← hl], .inr hl⟩
  have hplace : indexPlace path.place ≠ [] := by simp [indexPlace]
  have hprepare : prepare ⟨store, disk⟩ path config = .ok ⟨store, disk⟩ :=
    prepare_eq_ok_iff.2 ⟨hv, h.home, Disk.makeDirectories_of_has h.index hplace, hpin⟩
  simp only [openAt, hprepare, hs, hm, hc, require, ht, hw, ↓reduceIte, bind, Except.bind]
  rfl

end Model

end PhraseIndex
