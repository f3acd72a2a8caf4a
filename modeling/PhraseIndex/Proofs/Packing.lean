import PhraseIndex.Proofs.Remnant

/-!
# How records fill the files

Each corpus file packs whole records, one after the other and nothing between them (`CorpusFile.Packs`), and it is no
longer than the limit unless one record alone is. Room is made before a record is written, and only behind a file that
holds some record already (`Corpus.Packed.room`), so no file but the last is empty. Opening with the same limit finds
the files as they are, however old the manifest, so this is true of every history (`Archive.packed_after`).
-/

namespace PhraseIndex

/-! ## Records in a file -/

namespace Record

/-- The records of sentence pairs, one after the other. -/
def encodeAll (placed : List Placement) : Bytes := placed.flatMap fun p => encode p.1

/-- The offsets are those of records that stand one after the other from `start` on. -/
def Consecutive : Nat → List Placement → Prop
  | _, [] => True
  | start, p :: placed => p.2.toInt = start ∧ Consecutive (start + (encode p.1).length) placed

theorem encodeAll_append (placed more : List Placement) :
    encodeAll (placed ++ more) = encodeAll placed ++ encodeAll more := List.flatMap_append

theorem encodeAll_eq_nil_iff {placed : List Placement} : encodeAll placed = [] ↔ placed = [] := by
  refine ⟨fun h => List.eq_nil_iff_forall_not_mem.2 fun p hp => ?_, fun h => by rw [h]; rfl⟩
  have hpos := length_encode_pos p.1
  rw [List.flatMap_eq_nil_iff.1 h p hp] at hpos
  cases hpos

theorem consecutive_append {start : Nat} {placed more : List Placement} : Consecutive start (placed ++ more) ↔
    Consecutive start placed ∧ Consecutive (start + (encodeAll placed).length) more := by
  induction placed generalizing start with
  | nil => simp [Consecutive, encodeAll]
  | cons p placed ih =>
    have hend : start + (encodeAll (p :: placed)).length =
        start + (encode p.1).length + (encodeAll placed).length := by
      simp only [encodeAll, List.flatMap_cons, List.length_append, Nat.add_assoc]
    rw [List.cons_append, Consecutive, Consecutive, ih, hend, and_assoc]

end Record

/-- The file has the records of these sentence pairs and nothing else. It is no longer than the limit, or it has a
single record. -/
structure CorpusFile.Packs (f : CorpusFile) (disk : Disk) (limit : Nat) (placed : List Placement) : Prop where
  bytes : disk.bytes f.handle = Record.encodeAll placed
  offsets : Record.Consecutive f.base placed
  bounded : (disk.bytes f.handle).length ≤ limit ∨ placed.length = 1

namespace CorpusFile.Packs

variable {f g : CorpusFile} {disk disk' : Disk} {limit : Nat} {placed : List Placement}

theorem congr (h : f.Packs disk limit placed) (hbytes : disk'.bytes f.handle = disk.bytes f.handle) :
    f.Packs disk' limit placed := by
  obtain ⟨hrecords, hoffsets, hbounded⟩ := h
  rw [← hbytes] at hrecords hbounded
  exact ⟨hrecords, hoffsets, hbounded⟩

/-- A file without bytes packs no records. -/
theorem empty (h : disk.bytes f.handle = []) : f.Packs disk limit [] where
  bytes := h
  offsets := trivial
  bounded := by
    rw [h]
    exact .inl (Nat.zero_le limit)

/-- A record is added at the end if the file is empty or has room for it. -/
theorem concat {pair : SentencePair} {offset : Offset} (h : f.Packs disk limit placed)
    (hroom : disk.bytes f.handle = [] ∨ (disk.bytes f.handle).length + (Record.encode pair).length ≤ limit)
    (hoffset : offset.toInt = (f.base + (disk.bytes f.handle).length : Nat)) (hbase : g.base = f.base)
    (hbytes : disk'.bytes g.handle = disk.bytes f.handle ++ Record.encode pair) :
    g.Packs disk' limit (placed ++ [(pair, offset)]) where
  bytes := by
    rw [hbytes, h.bytes, Record.encodeAll_append]
    simp [Record.encodeAll]
  offsets := by
    rw [hbase, Record.consecutive_append, ← h.bytes]
    exact ⟨h.offsets, hoffset, trivial⟩
  bounded := by
    rcases hroom with hempty | hfits
    · rw [h.bytes, Record.encodeAll_eq_nil_iff] at hempty
      exact .inr (by rw [hempty, List.nil_append, List.length_singleton])
    · exact .inl (by rwa [hbytes, List.length_append])

end CorpusFile.Packs

/-! ## Files behind each other -/

namespace Corpus

variable {c c' : Corpus} {disk disk' : Disk} {placed : List Placement} {pair : SentencePair}

/-- Each file packs the records of its group, and it has some. -/
def Filled (disk : Disk) (limit : Nat) (files : List CorpusFile) (groups : List (List Placement)) : Prop :=
  List.Forall₂ (fun f group => f.Packs disk limit group ∧ group ≠ []) files groups

namespace Filled

variable {limit : Nat} {files : List CorpusFile} {groups : List (List Placement)} {f : CorpusFile}
  {group : List Placement}

/-- Files stay filled while their bytes stay. -/
theorem congr (h : Filled disk limit files groups) (hbytes : ∀ f ∈ files, disk'.bytes f.handle = disk.bytes f.handle) :
    Filled disk' limit files groups := by
  induction h with
  | nil => exact .nil
  | cons hfirst hrest ih =>
    exact .cons ⟨hfirst.1.congr (hbytes _ List.mem_cons_self), hfirst.2⟩
      (ih fun f hf => hbytes f (List.mem_cons_of_mem _ hf))

theorem concat (h : Filled disk limit files groups) (hf : f.Packs disk limit group) (hne : group ≠ []) :
    Filled disk limit (files ++ [f]) (groups ++ [group]) := List.rel_append h (.cons ⟨hf, hne⟩ .nil)

theorem bytes_ne_nil (h : Filled disk limit files groups) : ∀ f ∈ files, disk.bytes f.handle ≠ [] := by
  induction h with
  | nil => nofun
  | cons hfirst hrest ih =>
    refine List.forall_mem_cons.2 ⟨?_, ih⟩
    rw [hfirst.1.bytes, ne_eq, Record.encodeAll_eq_nil_iff]
    exact hfirst.2

end Filled

/-- The files pack the placed sentence pairs in their order, and only the last one may have none. -/
def Packed (c : Corpus) (disk : Disk) (placed : List Placement) : Prop :=
  ∃ groups last, groups.flatten ++ last = placed ∧ Filled disk c.maxFileSize c.full groups ∧
    c.active.Packs disk c.maxFileSize last

/-- Where room was made, the last file is empty or has the room. -/
theorem Packed.room (h : c.Packed disk placed) (hc : c.Intact disk) (size : Nat) :
    (c.room disk size).1.Packed (c.room disk size).2 placed ∧
      ((c.room disk size).2.bytes (c.room disk size).1.active.handle = [] ∨
        ((c.room disk size).2.bytes (c.room disk size).1.active.handle).length + size ≤ c.maxFileSize) := by
  have hsize := hc.size_active
  unfold Corpus.room
  split
  · next hfull =>
    obtain ⟨groups, last, hplaced, hfiles, hactive⟩ := h
    rw [isFull, Bool.and_eq_true, decide_eq_true_iff, decide_eq_true_iff] at hfull
    have hnew : ((disk.addFile (filePath c.dir (c.active.id + 1)).place).2).bytes disk.fresh = [] := by
      rw [Disk.bytes_addFile, if_pos rfl]
    have hold : ∀ f ∈ c.files, ((disk.addFile (filePath c.dir (c.active.id + 1)).place).2).bytes f.handle =
        disk.bytes f.handle := by
      intro f hf
      rw [Disk.bytes_addFile, if_neg (Nat.ne_of_gt (hc.held f hf))]
    have hlast : last ≠ [] := by
      rw [ne_eq, ← Record.encodeAll_eq_nil_iff, ← hactive.bytes, ← List.length_eq_zero_iff, ← hsize]
      omega
    refine ⟨⟨groups ++ [last], [], ?_, ?_, .empty hnew⟩, .inl hnew⟩
    · rw [List.flatten_append, List.flatten_singleton, List.append_nil, hplaced]
    · have hfilled := hfiles.congr fun f hf => hold f (List.mem_append_left _ hf)
      exact hfilled.concat (hactive.congr (hold c.active c.active_mem)) hlast
  · next hfull =>
    refine ⟨h, ?_⟩
    rw [← List.length_eq_zero_iff, ← hsize]
    simp only [isFull, Bool.and_eq_true, decide_eq_true_iff] at hfull
    omega

/-- A record that there is room for is written into the last file. -/
theorem Packed.writeRecord {offset : Offset} (h : c.Packed disk placed) (hf : Filed disk c.dir c.files)
    (hext : extent c.files < 2 ^ 63)
    (hroom : disk.bytes c.active.handle = [] ∨
      (disk.bytes c.active.handle).length + (Record.encode pair).length ≤ c.maxFileSize)
    (hw : c.writeRecord disk (Record.encode pair) = (offset, c', disk')) :
    c'.Packed disk' (placed ++ [(pair, offset)]) := by
  obtain ⟨groups, last, hplaced, hfiles, hactive⟩ := h
  obtain ⟨-, hother, hwritten⟩ := hf.write (Record.encode pair)
  have hoffset := toInt_offset hf.laid.contiguous hext
  have hend : extent c.files = c.active.base + (disk.bytes c.active.handle).length := by
    rw [← hf.laid.contiguous.endOffset_active, CorpusFile.endOffset, hf.laid.size c.active_mem]
  rw [hend] at hoffset
  cases hw
  refine ⟨groups, last ++ [(pair, _)], ?_, hfiles.congr hother, hactive.concat hroom hoffset rfl hwritten⟩
  rw [← List.append_assoc, hplaced]

theorem maxFileSize_room (c : Corpus) (disk : Disk) (size : Nat) :
    (c.room disk size).1.maxFileSize = c.maxFileSize := by
  unfold Corpus.room
  split <;> rfl

/-- A sentence pair that is appended is packed behind the others. -/
theorem Packed.append {answer : Except Error Offset} (h : c.Packed disk placed) (hc : c.Intact disk) (hfit : disk'.Fits)
    (ha : c.append disk pair = (answer, c', disk')) :
    c'.Packed disk' (placed ++ (answer.toOption.map (pair, ·)).toList) ∧ c'.maxFileSize = c.maxFileSize := by
  have hlen := hc.length_lt (hfit.of_le (le_append ha))
  rcases append_cases ha with ⟨e, rfl, rfl, rfl⟩ | ⟨-, c₁, disk₁, offset, hp, hw, rfl⟩
  · exact ⟨by rwa [Except.toOption, Option.map_none, Option.toList_none, List.append_nil], rfl⟩
  · have hfiled := (hc.kept.prepare hlen hp).1.filed
    have hfit₁ : disk₁.Fits := by
      cases hw
      exact hfit.of_le (Disk.le_append _ _ _)
    obtain ⟨hpacked, hroom⟩ := h.room hc (Record.encode pair).length
    have hlimit := maxFileSize_room c disk (Record.encode pair).length
    rw [hc.prepare_eq hlen disk rfl] at hp
    rw [Except.ok.inj hp] at hpacked hroom hlimit
    rw [← hlimit] at hroom ⊢
    refine ⟨hpacked.writeRecord hfiled (hfiled.laid.fits hfit₁).2 hroom hw, ?_⟩
    cases hw
    rfl

/-- A corpus with the same files is packed like it. -/
theorem Packed.of_files (h : c.Packed disk placed) (hfiles : c'.files = c.files)
    (hlimit : c'.maxFileSize = c.maxFileSize) : c'.Packed disk placed := by
  obtain ⟨hfull, hactive⟩ := List.append_inj' hfiles rfl
  rw [List.cons.injEq] at hactive
  unfold Packed
  rwa [hfull, hactive.1, hlimit]

/-- All files pack records, and those before the last one have some. -/
theorem Packed.files (h : c.Packed disk placed) : ∃ groups, groups.flatten = placed ∧
    List.Forall₂ (fun (f : CorpusFile) group => f.Packs disk c.maxFileSize group) c.files groups ∧
    ∀ f ∈ c.full, disk.bytes f.handle ≠ [] := by
  obtain ⟨groups, last, hplaced, hfiles, hactive⟩ := h
  refine ⟨groups ++ [last], ?_, List.rel_append (hfiles.imp fun _ _ => And.left) (.cons hactive .nil),
    hfiles.bytes_ne_nil⟩
  rw [List.flatten_append, List.flatten_singleton, hplaced]

/-- What reads as a corpus file in the directory is one of the files. -/
theorem Filed.exists_of_name {dir : Path} {files : List CorpusFile} {name : String} {id : UInt32}
    (h : Filed disk dir files) (hclean : Clean disk dir) (hid : FileName.id? name = some id)
    (hsome : (disk.node? (dir.place ++ [name])).isSome) : ∃ f ∈ files, f.id = id ∧ FileName.ofId id = name := by
  have hname := hclean name id hid hsome
  by_contra hnone
  rw [hname] at hsome
  have hfree : disk.node? (filePath dir id).place = none :=
    h.fresh id fun f hf he => hnone ⟨f, hf, he, hname.symm⟩
  rw [filePath_place] at hfree
  rw [hfree] at hsome
  cases hsome

end Corpus

/-! ## A directory over time -/

namespace Archive

variable {disk disk₁ : Disk} {dir : Path} {limit : Nat} {a : Archive} {c : Corpus} {event : Event}

/-- The corpus is open with this limit, and its files pack all that was placed. -/
def Packed (limit : Nat) (a : Archive) : Prop :=
  ∃ c, a.corpus = some c ∧ c.maxFileSize = limit ∧ c.Packed a.disk a.placed

theorem packed_first (hfresh : Corpus.Unused disk dir) (hdir : dir.place ≠ [])
    (hm : disk.makeDirectories dir.place = .ok disk₁) : (first disk dir limit).Packed limit := by
  obtain ⟨c, disk', ho, hfull, hbytes⟩ := Corpus.exists_openAt_of_unused hfresh hdir hm limit
  have hpacked : c.Packed disk' [] := ⟨[], [], rfl, by rw [hfull]; exact .nil, .empty hbytes⟩
  have hopened : (openWith dir { disk } .empty limit).Packed limit := by
    rw [openWith, ho]
    exact ⟨c, rfl, Corpus.maxFileSize_openAt ho, hpacked⟩
  exact hopened

/-- Appending and opening with the same limit keep the files packed. -/
theorem Settled.packed_step (h : Settled dir a c) (hp : a.Packed limit) (hdir : dir.place ≠ []) (hfit : a.disk.Fits)
    (hfit' : (a.step dir event).disk.Fits) (hlimit : ∀ number size, event = .reopen number size → size = limit) :
    (a.step dir event).Packed limit := by
  obtain ⟨c₀, hc₀, hmax, hpacked⟩ := hp
  obtain rfl : c = c₀ := Option.some.inj (h.opened.symm.trans hc₀)
  cases event with
  | flush => exact ⟨c, hc₀, hmax, hpacked⟩
  | append pair =>
    cases ha : c.append a.disk pair with
    | mk answer rest =>
      obtain ⟨c', disk'⟩ := rest
      simp only [Archive.step, append_eq h.opened ha] at hfit' ⊢
      obtain ⟨hpacked', hmax'⟩ := hpacked.append (h.intact hdir) hfit' ha
      exact ⟨c', rfl, hmax'.trans hmax, hpacked'⟩
  | reopen number size =>
    obtain rfl := hlimit number size rfl
    obtain ⟨c', ho, hfiles, -⟩ := h.reopen hfit hdir (a.known number) size
    have hmax' := Corpus.maxFileSize_openAt ho
    have hopened : (a.openWith dir (a.manifests[number]?.getD .empty) size).Packed size := by
      rw [Archive.openWith, ho]
      exact ⟨c', rfl, hmax', hpacked.of_files hfiles (hmax'.trans hmax.symm)⟩
    exact hopened

theorem packed_run (hfresh : Corpus.Unused disk dir) (hdir : dir.place ≠ [])
    (hm : disk.makeDirectories dir.place = .ok disk₁) (events : List Event)
    (hlimit : ∀ number size, .reopen number size ∈ events → size = limit)
    (hfit : ∀ before, before <+: events → (after disk dir limit before).disk.Fits) :
    (after disk dir limit events).Packed limit := by
  induction events using List.reverseRecOn with
  | nil => exact packed_first hfresh hdir hm
  | append_singleton events event ih =>
    have hbefore : ∀ before, before <+: events → (after disk dir limit before).disk.Fits :=
      fun before hb => hfit before (hb.trans (List.prefix_append _ _))
    obtain ⟨c, h⟩ := settled_after hfresh hdir hm events hbefore
    have hlast := hfit _ List.prefix_rfl
    rw [after_append] at hlast ⊢
    refine h.packed_step (ih ?_ hbefore) hdir (hbefore events List.prefix_rfl) hlast ?_
    · exact fun number size hmem => hlimit number size (List.mem_append_left _ hmem)
    · rintro number size rfl
      exact hlimit number size (List.mem_append_right _ List.mem_cons_self)

/-- Corpus files keep to the size limit. In a storage directory that can be made and that has no corpus file at first,
on a disk that holds what is written, and with one limit for all openings, each file has whole records of the sentence
pairs that were placed, one after the other and nothing else, and it is no longer than the limit or has a single record.
No file but the last is empty, and the files that are there have the numbers from nought on. -/
theorem packed_after (disk disk₁ : Disk) (dir : Path) (limit : Nat) (events : List Event) (hdir : dir.place ≠ [])
    (hmake : disk.makeDirectories dir.place = .ok disk₁) (hfresh : Corpus.Unused disk dir)
    (hlimit : ∀ number size, .reopen number size ∈ events → size = limit)
    (hfit : ∀ before, before <+: events → (after disk dir limit before).disk.Fits) :
    ∃ c groups, (after disk dir limit events).corpus = some c ∧
      groups.flatten = (after disk dir limit events).placed ∧
      List.Forall₂ (fun (f : CorpusFile) group => f.Packs (after disk dir limit events).disk limit group)
        c.files groups ∧
      (∀ f ∈ c.full, (after disk dir limit events).disk.bytes f.handle ≠ []) ∧
      c.files.map (·.id.toNat) = List.range c.files.length ∧
      (∀ f ∈ c.files, (after disk dir limit events).disk.node? (Corpus.filePath dir f.id).place =
        some (.file f.handle)) ∧
      ∀ name id, FileName.id? name = some id →
        ((after disk dir limit events).disk.node? (dir.place ++ [name])).isSome →
        ∃ f ∈ c.files, f.id = id ∧ FileName.ofId id = name := by
  obtain ⟨c, h⟩ := settled_after hfresh hdir hmake events hfit
  obtain ⟨c₀, hc₀, hmax, hpacked⟩ := packed_run hfresh hdir hmake events hlimit hfit
  obtain rfl : c = c₀ := Option.some.inj (h.opened.symm.trans hc₀)
  obtain ⟨groups, hplaced, hfiles, hfilled⟩ := hpacked.files
  have hfiled := h.kept.filed
  have hnumbers := hfiled.laid.numbers
  rw [← List.range_eq_range'] at hnumbers
  rw [hmax] at hfiles
  exact ⟨c, groups, h.opened, hplaced, hfiles, hfilled, hnumbers, fun f => hfiled.laid.node,
    fun name id => hfiled.exists_of_name h.clean⟩

/-! ### Files of every kind -/

/-- A file of one record, one of two that fit, an oversized record alone, and one more behind a stale manifest. -/
def mixedSizes : List Event :=
  [.append ⟨1, [7, 7, 7], [9], []⟩, .append ⟨2, [7], [], []⟩, .append ⟨3, [], [], []⟩, .reopen 1 80,
    .append ⟨1, List.replicate 20 7, [], []⟩, .reopen 99 80, .append ⟨3, [], [], []⟩, .reopen 0 80]

theorem packed_after_mixedSizes :
    let a := after (.empty [""]) storage 80 mixedSizes
    ∃ c groups, a.corpus = some c ∧ groups.flatten = a.placed ∧ a.placed.map (·.2.toInt) = [0, 52, 92, 128, 244] ∧
      List.Forall₂ (fun (f : CorpusFile) group => f.Packs a.disk 80 group) c.files groups ∧
      c.files.map (·.size) = [52, 76, 116, 36] ∧ c.files.map (·.id.toNat) = [0, 1, 2, 3] := by
  intro a
  have hmake : Disk.makeDirectories (.empty [""]) storage.place =
      .ok (storage.place.upwards.foldl Disk.addDirectory (.empty [""])) :=
    Disk.makeDirectories_eq_ok_iff.2 ⟨by decide +kernel, by decide +kernel, rfl⟩
  have hlimit : ∀ number size, .reopen number size ∈ mixedSizes → size = 80 := by
    simp only [mixedSizes, List.mem_cons, reduceCtorEq, Event.reopen.injEq, List.not_mem_nil, or_false, false_or]
    omega
  have hfit : ∀ before ∈ mixedSizes.inits, (after (.empty [""]) storage 80 before).disk.Fits := by decide +kernel
  have hsizes : a.corpus.map (fun c => c.files.map (·.size)) = some [52, 76, 116, 36] := by decide +kernel
  obtain ⟨c, groups, hc, hplaced, hfiles, -, hnumbers, -⟩ :=
    packed_after (.empty [""]) _ storage 80 mixedSizes (by decide) hmake unused_storage hlimit
      fun before hb => hfit before ((List.mem_inits _ _).2 hb)
  rw [hc] at hsizes
  have hsizes' := Option.some.inj hsizes
  have hcount := congrArg List.length hsizes'
  rw [List.length_map] at hcount
  refine ⟨c, groups, hc, hplaced, by decide +kernel, hfiles, hsizes', ?_⟩
  rw [hnumbers, hcount]
  rfl

end Archive

end PhraseIndex
