import PhraseIndex.Proofs.Archive

/-!
# Bytes that the storage does not know of

An open storage goes by the sizes that it noted. A write that fails on the way leaves bytes behind the last file that it
did not note, and what is appended later comes behind these: the disk is what it would be without them, but for the
bytes put between those of one file (`Disk.splice`). Appending does not see the difference
(`Corpus.Intact.append_splice`, `Corpus.Intact.appendEach_splice`).
-/

namespace PhraseIndex

namespace Disk

variable {d : Disk} {id j : FileId} {n : Nat}

/-- The disk with bytes put between those of a file. -/
def splice (d : Disk) (id : FileId) (n : Nat) (bs : Bytes) : Disk :=
  d.setBytes id ((d.bytes id).take n ++ bs ++ (d.bytes id).drop n)

theorem bytes_splice (d : Disk) (id : FileId) (n : Nat) (bs : Bytes) (j : FileId) :
    (d.splice id n bs).bytes j = if id = j then (d.bytes id).take n ++ bs ++ (d.bytes id).drop n else d.bytes j :=
  bytes_setBytes _ _ _ _

theorem bytes_splice_nil (d : Disk) (id : FileId) (n : Nat) (j : FileId) : (d.splice id n []).bytes j = d.bytes j := by
  rw [bytes_splice, List.append_nil, List.take_append_drop]
  split
  · next h => rw [h]
  · rfl

theorem append_eq_splice (d : Disk) (id : FileId) (bs : Bytes) :
    d.append id bs = d.splice id (d.bytes id).length bs := by
  rw [append, splice, List.take_length, List.drop_length, List.append_nil]

theorem le_splice (d : Disk) (id : FileId) (n : Nat) (bs : Bytes) : d.Le (d.splice id n bs) where
  nodes hp := hp
  bytes j _ := by
    rw [bytes_splice]
    split
    · next h =>
      rw [← h]
      simp only [List.length_append, List.length_take, List.length_drop]
      omega
    · exact Nat.le_refl _

/-! ### Changes in another order -/

theorem setBytes_setBytes (d : Disk) (id : FileId) (bs more : Bytes) :
    (d.setBytes id bs).setBytes id more = d.setBytes id more := by
  have h : (d.contents.insert id bs).insert id more = d.contents.insert id more := by
    apply Std.ExtTreeMap.ext_getElem?
    intro k
    simp only [Std.ExtTreeMap.getElem?_insert]
    split <;> rfl
  simp only [setBytes, h]

theorem insert_comm (contents : Std.ExtTreeMap FileId Bytes) (h : id ≠ j) (bs more : Bytes) :
    (contents.insert id bs).insert j more = (contents.insert j more).insert id bs := by
  apply Std.ExtTreeMap.ext_getElem?
  intro k
  simp only [Std.ExtTreeMap.getElem?_insert, Std.LawfulEqCmp.compare_eq_iff_eq]
  grind

theorem setBytes_comm (d : Disk) (h : id ≠ j) (bs more : Bytes) :
    (d.setBytes id bs).setBytes j more = (d.setBytes j more).setBytes id bs := by
  simp only [setBytes, insert_comm d.contents h]

theorem addFile_setBytes (d : Disk) (h : id ≠ d.fresh) (p : Place) (bs : Bytes) :
    ((d.setBytes id bs).addFile p).2 = (d.addFile p).2.setBytes id bs := by
  simp only [setBytes, addFile, insert_comm d.contents h]

/-- What is written at the end of a file comes after what stands between. -/
theorem splice_append (h : n ≤ (d.bytes id).length) (bs : Bytes) (j : FileId) (more : Bytes) :
    (d.splice id n bs).append j more = (d.append j more).splice id n bs := by
  unfold append splice
  by_cases hj : id = j
  · subst hj
    rw [setBytes_setBytes, setBytes_setBytes, bytes_setBytes, bytes_setBytes, if_pos rfl, if_pos rfl,
      List.take_append_of_le_length h, List.drop_append_of_le_length h, ← List.append_assoc]
  · rw [bytes_setBytes, if_neg hj, setBytes_comm d hj, bytes_setBytes, if_neg (Ne.symm hj)]

theorem splice_addFile (h : id ≠ d.fresh) (p : Place) (n : Nat) (bs : Bytes) :
    ((d.splice id n bs).addFile p).2 = (d.addFile p).2.splice id n bs := by
  unfold splice
  rw [addFile_setBytes d h, bytes_addFile, if_neg h.symm]

end Disk

namespace Corpus

variable {disk disk' : Disk} {c c' : Corpus} {pair : SentencePair} {id : FileId} {n : Nat} {r : Except Error Offset}
  {offset : Offset}

/-! ## Open storages -/

/-- An open storage that agrees with the disk: its directory is there, and the corpus files in it are those that it
knows, in their sizes. -/
structure Intact (c : Corpus) (disk : Disk) : Prop where
  rooted : c.dir.place ≠ []
  directories : disk.HasDirectories c.dir.place
  clean : Clean disk c.dir
  filed : Filed disk c.dir c.files

namespace Intact

theorem length_lt (h : c.Intact disk) (hfit : disk.Fits) : c.files.length < 2 ^ 32 := (h.filed.laid.fits hfit).1

theorem size_active (h : c.Intact disk) : c.active.size = (disk.bytes c.active.handle).length :=
  h.filed.laid.size c.active_mem

theorem active_lt (h : c.Intact disk) : c.active.handle < disk.fresh :=
  disk.id_lt_fresh (h.filed.laid.node c.active_mem)

theorem of_grows (h : c.Intact disk) (hg : c.Grows disk c' disk') (hf : Filed disk' c'.dir c'.files) :
    c'.Intact disk' where
  rooted := by rw [hg.dir]; exact h.rooted
  directories := by rw [hg.dir]; exact h.directories.of_keeps hg.keeps
  clean := by rw [hg.dir]; exact h.clean.grows hg
  filed := hf

theorem kept (h : c.Intact disk) : Kept disk c.dir c.files [] [] := h.filed.kept

/-- The next number is free. -/
theorem node?_next (h : c.Intact disk) (hlen : c.files.length < 2 ^ 32) :
    disk.node? (filePath c.dir (c.active.id + 1)).place = none := by
  rw [h.filed.laid.active]
  exact h.filed.fresh _ fun f hf => h.filed.laid.id_ne hlen (.inr (by omega)) hf

end Intact

/-- The corpus and the disk with room for a record of `size` bytes: if the active file is full, the next one is
begun. -/
def room (c : Corpus) (disk : Disk) (size : Nat) : Corpus × Disk :=
  if c.isFull size then
    ({ c with full := c.files, active := ⟨c.active.id + 1, c.active.endOffset, 0, disk.fresh⟩ },
      (disk.addFile (filePath c.dir (c.active.id + 1)).place).2)
  else (c, disk)

theorem endOffset_room (c : Corpus) (disk : Disk) (size : Nat) :
    (c.room disk size).1.active.endOffset = c.active.endOffset := by
  unfold room
  split <;> rfl

theorem room_splice (hid : id < disk.fresh) (n : Nat) (tail : Bytes) (size : Nat) :
    c.room (disk.splice id n tail) size = ((c.room disk size).1, (c.room disk size).2.splice id n tail) := by
  unfold room
  split
  · rw [← Disk.splice_addFile (Nat.ne_of_lt hid)]
    rfl
  · rfl

theorem append_of_long (hp : ¬Recordable pair) (disk : Disk) :
    c.append disk pair = (.error (.recordTooLarge (Binary.sentencePair pair).length), c, disk) := by
  have hlen : (Record.encode pair).length - Record.headerSize = (Binary.sentencePair pair).length := by
    rw [Record.length_encode, Nat.add_sub_cancel_left]
  unfold Corpus.append
  simp only [hlen, if_pos (Nat.not_lt.1 hp : UInt32.size ≤ _)]

theorem recordable_of_append (ha : c.append disk pair = (.ok offset, c', disk')) : Recordable pair := by
  obtain ⟨e, he, -⟩ | ⟨hp, -⟩ := append_cases ha
  · cases he
  · exact hp

namespace Intact

/-- Room can always be made, whatever the bytes in the files. -/
theorem prepare_eq (h : c.Intact disk) (hlen : c.files.length < 2 ^ 32) (torn : Disk) (hnode : torn.node? = disk.node?)
    (size : Nat) : c.prepare torn size = .ok (c.room torn size) := by
  have hdirs : torn.HasDirectories c.dir.place := fun q hq => by rw [hnode, h.directories q hq]
  have hfree : torn.node? (filePath c.dir (c.active.id + 1)).place = none := by rw [hnode, h.node?_next hlen]
  unfold prepare room
  split
  · have hempty : (torn.addFile (filePath c.dir (c.active.id + 1)).place).2.bytes torn.fresh = [] := by
      rw [Disk.bytes_addFile, if_pos rfl]
    have hnew : CorpusFile.ofDisk (torn.addFile (filePath c.dir (c.active.id + 1)).place).2 (c.active.id + 1)
        c.active.endOffset torn.fresh = ⟨c.active.id + 1, c.active.endOffset, 0, torn.fresh⟩ := by
      rw [CorpusFile.ofDisk, hempty]
      rfl
    rw [← hnew, roll, openOrCreate_eq hfree hdirs h.rooted]
    rfl
  · rfl

/-- A sentence pair whose payload is not too long is appended, at the offset where the files end. -/
theorem append_eq (h : c.Intact disk) (hlen : c.files.length < 2 ^ 32) (torn : Disk)
    (hnode : torn.node? = disk.node?) (hp : Recordable pair) :
    c.append torn pair = (.ok (Int64.ofNat c.active.endOffset),
      ((c.room torn (Record.encode pair).length).1.writeRecord (c.room torn (Record.encode pair).length).2
        (Record.encode pair)).2) := by
  have hsmall : ¬UInt32.size ≤ (Record.encode pair).length - Record.headerSize := by
    rw [Record.length_encode, Nat.add_sub_cancel_left]
    exact Nat.not_le.2 hp
  unfold Corpus.append
  simp only [if_neg hsmall, h.prepare_eq hlen torn hnode, writeRecord, endOffset_room]

/-- Whatever comes of an append, the storage agrees with the disk. -/
theorem append (h : c.Intact disk) (hlen : c.files.length < 2 ^ 32) (ha : c.append disk pair = (r, c', disk')) :
    c'.Intact disk' := by
  refine h.of_grows (grows_append ha) ?_
  rcases append_cases ha with ⟨e, -, rfl, rfl⟩ | ⟨-, c₁, disk₁, offset, hp, hw, -⟩
  · exact h.filed
  · cases hw
    exact ((h.kept.prepare hlen hp).1.extend (Record.encode pair)).filed

/-- Appending knows nothing of bytes that stand between those of a file. -/
theorem append_splice (h : c.Intact disk) (hlen : c.files.length < 2 ^ 32) (hid : id < disk.fresh)
    (hn : n ≤ (disk.bytes id).length) (tail : Bytes) (ha : c.append disk pair = (r, c', disk')) :
    c.append (disk.splice id n tail) pair = (r, c', disk'.splice id n tail) := by
  by_cases hp : Recordable pair
  · have hroom : n ≤ ((c.room disk (Record.encode pair).length).2.bytes id).length := by
      unfold room
      split
      · rw [Disk.bytes_addFile, if_neg (Nat.ne_of_gt hid)]
        exact hn
      · exact hn
    rw [h.append_eq hlen disk rfl hp] at ha
    rw [h.append_eq hlen (disk.splice id n tail) rfl hp, room_splice hid]
    cases ha
    simp only [writeRecord, Disk.splice_append hroom]
  · rw [append_of_long hp] at ha ⊢
    cases ha
    rfl

end Intact

/-! ## One record after the other -/

/-- Appends what can be appended, one after the other, and answers the sentence pairs that were stored. -/
def appendEach (c : Corpus) (disk : Disk) : List SentencePair → List Placement × Corpus × Disk
  | [] => ([], c, disk)
  | pair :: rest =>
    let (offset, c, disk) := c.append disk pair
    let (placed, c, disk) := appendEach c disk rest
    ((offset.toOption.map (pair, ·)).toList ++ placed, c, disk)

theorem grows_appendEach (c : Corpus) (disk : Disk) (pairs : List SentencePair) :
    c.Grows disk (c.appendEach disk pairs).2.1 (c.appendEach disk pairs).2.2 := by
  induction pairs generalizing c disk with
  | nil => exact .refl c disk
  | cons pair pairs ih =>
    cases ha : c.append disk pair with
    | mk answer rest =>
      obtain ⟨c₁, disk₁⟩ := rest
      simp only [appendEach, ha]
      exact (grows_append ha).trans (ih c₁ disk₁)

/-- What is stored stays stored while the corpus grows. -/
theorem Stored.of_grows {p : Placement} (hs : Stored disk c.files p) (hc : c.Held disk) (hg : c.Grows disk c' disk') :
    Stored disk' c'.files p := by
  refine hs.of_longer ?_ fun f hf => hg.bytes f.handle (hc f hf)
  intro f hf
  obtain ⟨g, hmem, -, hbase, hhandle, -⟩ := hg.exists_file hf
  exact ⟨g, hmem, hbase, hhandle⟩

theorem Intact.held (h : c.Intact disk) : c.Held disk := fun _ hf => disk.id_lt_fresh (h.filed.laid.node hf)

/-- A run of appends knows nothing of bytes that stand between those of a file, and stores what it answers around
them. -/
theorem Intact.appendEach_splice (h : c.Intact disk) (hid : id < disk.fresh) (hn : n ≤ (disk.bytes id).length)
    (tail : Bytes) (pairs : List SentencePair) (hfit : (c.appendEach (disk.splice id n tail) pairs).2.2.Fits) :
    ∃ placed c' disk', c.appendEach (disk.splice id n tail) pairs = (placed, c', disk'.splice id n tail) ∧
      c.Grows disk c' disk' ∧ c'.Intact disk' ∧ ∀ p ∈ placed, Stored disk' c'.files p := by
  induction pairs generalizing c disk with
  | nil => exact ⟨[], c, disk, rfl, .refl c disk, h, nofun⟩
  | cons pair pairs ih =>
    have hgrows := grows_appendEach c (disk.splice id n tail) (pair :: pairs)
    have hlen := h.length_lt ((hfit.of_le hgrows.keeps.le).of_le (disk.le_splice id n tail))
    cases ha : c.append disk pair with
    | mk answer rest =>
      obtain ⟨c₁, disk₁⟩ := rest
      have hg := grows_append ha
      have hspliced := h.append_splice hlen hid hn tail ha
      simp only [appendEach, hspliced] at hfit ⊢
      have h₁ := h.append hlen ha
      have hfit₁ : disk₁.Fits :=
        (hfit.of_le (grows_appendEach c₁ _ pairs).keeps.le).of_le (disk₁.le_splice id n tail)
      obtain ⟨placed, c', disk', hrun, hg', h', hstored⟩ :=
        ih h₁ (Nat.lt_of_lt_of_le hid hg.fresh) (Nat.le_trans hn (hg.bytes id hid).length_le) hfit
      rw [hrun]
      refine ⟨_, c', disk', rfl, hg.trans hg', h', ?_⟩
      intro p hp
      rcases List.mem_append.1 hp with hp | hp
      · cases answer with
        | error e => cases hp
        | ok offset =>
          rw [List.mem_singleton.1 hp]
          obtain ⟨-, ⟨⟨e, he⟩, -⟩ | ⟨_, hok, hkept⟩⟩ := h.kept.append hfit₁ ha
          · cases he
          · cases hok
            exact (hkept.stored _ (List.mem_append_right _ List.mem_cons_self)).of_grows h₁.held hg'
      · exact hstored p hp

end Corpus

end PhraseIndex
