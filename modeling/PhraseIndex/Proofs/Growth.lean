import PhraseIndex.Proofs.Records

/-!
# How the corpus grows

Whatever becomes of a batch, the corpus only gains files and bytes (`Corpus.Grows`): when its sentences are appended
(`Corpus.grows_appendAll`), when one of them fails, and when a write is cut short (`Corpus.grows_tear`). So an offset
that was retrieved once is retrieved with the same result from then on (`Corpus.Grows.retrieve`).
-/

namespace PhraseIndex

variable {disk disk' disk'' : Disk} {c c' c'' : Corpus} {pair : SentencePair}

/-! ## Reading in a longer file -/

namespace Record

variable {bs bs' : Bytes} {left left' : Nat} {offset : Offset}

/-- What was read once is read again when the file has become longer. -/
theorem read_of_longer (hleft : left ≤ left') (hbs : bs <+: bs') (h : read offset left bs = .ok pair) :
    read offset left' bs' = .ok pair :=
  read_eq_ok_iff_begins.2 ((read_eq_ok_iff_begins.1 h).mono hleft hbs)

end Record

/-! ## Growth -/

/-- Opening a file gives one that was there, or a new one at a free place. -/
theorem Disk.openOrCreate_cases {p : Place} {id : FileId} (h : disk.openOrCreate p = .ok (id, disk')) :
    id < disk'.fresh ∧ (disk' = disk ∨ disk.node? p = none ∧ disk' = (disk.addFile p).2) := by
  unfold Disk.openOrCreate at h
  cases hn : disk.node? p with
  | none =>
    simp only [hn] at h
    split at h
    · cases h
      exact ⟨Nat.lt_succ_self _, .inr ⟨rfl, rfl⟩⟩
    · cases h
  | some node =>
    cases node with
    | directory => simp [hn] at h
    | file j =>
      simp only [hn, Except.ok.injEq, Prod.mk.injEq] at h
      obtain ⟨rfl, rfl⟩ := h
      exact ⟨disk.id_lt_fresh hn, .inl rfl⟩

namespace Corpus

/-- The open files were made before the next new file, which will be none of them. -/
def Held (c : Corpus) (disk : Disk) : Prop := ∀ f ∈ c.files, f.handle < disk.fresh

/-- What is left of the write of a record that breaks off after some bytes, and always before the last. Room may have
been made for it; the corpus does not count the bytes. -/
def tear (c : Corpus) (disk : Disk) (pair : SentencePair) (bytes : Nat) : Corpus × Disk :=
  match c.prepare disk (Record.encode pair).length with
  | .error _ => (c, disk)
  | .ok (c, disk) => (c, disk.append c.active.handle ((Record.encode pair).dropLast.take bytes))

/-- The last file may have become longer and others may follow it, nothing has gone from the disk, every file begins
with the bytes that it had, and what is new on the disk are files of the corpus. -/
structure Grows (c : Corpus) (disk : Disk) (c' : Corpus) (disk' : Disk) : Prop where
  dir : c'.dir = c.dir
  files : ∃ size more, c.active.size ≤ size ∧ c'.files = c.full ++ { c.active with size := size } :: more ∧
    ∀ f ∈ more, f.handle < disk'.fresh
  fresh : disk.fresh ≤ disk'.fresh
  nodes : ∀ {p : Place} {node : Node}, disk.node? p = some node → disk'.node? p = some node
  places : ∀ {p : Place}, disk.node? p = none → (disk'.node? p).isSome → ∃ f ∈ c'.files, p = (filePath c.dir f.id).place
  bytes : ∀ id < disk.fresh, disk.bytes id <+: disk'.bytes id

namespace Grows

theorem refl (c : Corpus) (disk : Disk) : c.Grows disk c disk where
  dir := rfl
  files := ⟨c.active.size, [], Nat.le_refl _, rfl, nofun⟩
  fresh := Nat.le_refl _
  nodes h := h
  places hnone hsome := by
    rw [hnone] at hsome
    cases hsome
  bytes _ _ := List.prefix_rfl

/-- The files that were open have the same numbers and bytes and may be longer. -/
theorem exists_file (h : c.Grows disk c' disk') {f : CorpusFile} (hf : f ∈ c.files) :
    ∃ g ∈ c'.files, g.id = f.id ∧ g.base = f.base ∧ g.handle = f.handle ∧ f.size ≤ g.size := by
  obtain ⟨size, more, hsize, hfiles, -⟩ := h.files
  rw [hfiles]
  rcases List.mem_append.1 hf with hf | hf
  · exact ⟨f, List.mem_append_left _ hf, rfl, rfl, rfl, Nat.le_refl _⟩
  · rw [List.mem_singleton.1 hf]
    exact ⟨_, List.mem_append_right _ List.mem_cons_self, rfl, rfl, rfl, hsize⟩

theorem held (h : c.Grows disk c' disk') (hc : c.Held disk) : c'.Held disk' := by
  obtain ⟨size, more, -, hfiles, hmore⟩ := h.files
  have hlt : ∀ f ∈ c.files, f.handle < disk'.fresh := fun f hf => Nat.lt_of_lt_of_le (hc f hf) h.fresh
  intro f hf
  rw [hfiles] at hf
  rcases List.mem_append.1 hf with hf | hf
  · exact hlt f (List.mem_append_left _ hf)
  · rcases List.mem_cons.1 hf with rfl | hf
    · exact hlt c.active (List.mem_append_right _ (List.mem_singleton.2 rfl))
    · exact hmore f hf

theorem trans (h : c.Grows disk c' disk') (h' : c'.Grows disk' c'' disk'') : c.Grows disk c'' disk'' where
  dir := h'.dir.trans h.dir
  files := by
    obtain ⟨size, more, hsize, hfiles, hmore⟩ := h.files
    obtain ⟨size', more', hsize', hfiles', hmore'⟩ := h'.files
    -- The last file after the first step is the one that was last before it, or a new one.
    rcases List.eq_nil_or_concat more with rfl | ⟨init, last, rfl⟩
    · obtain ⟨hfull, hactive⟩ := List.append_inj' hfiles rfl
      rw [List.singleton_inj] at hactive
      rw [hactive] at hsize'
      refine ⟨size', more', hsize.trans hsize', ?_, hmore'⟩
      rw [hfiles', hfull, hactive]
    · rw [List.concat_eq_append, ← List.cons_append, ← List.append_assoc] at hfiles
      obtain ⟨hfull, hactive⟩ := List.append_inj' hfiles rfl
      rw [List.singleton_inj] at hactive
      refine ⟨size, init ++ { last with size := size' } :: more', hsize, ?_, ?_⟩
      · rw [hfiles', hfull, hactive, List.append_assoc, List.cons_append]
      · intro f hf
        have hold : ∀ g ∈ init.concat last, g.handle < disk''.fresh :=
          fun g hg => Nat.lt_of_lt_of_le (hmore g hg) h'.fresh
        rcases List.mem_append.1 hf with hf | hf
        · exact hold f (by simp [hf])
        · rcases List.mem_cons.1 hf with rfl | hf
          · exact hold last (by simp)
          · exact hmore' f hf
  fresh := h.fresh.trans h'.fresh
  nodes hp := h'.nodes (h.nodes hp)
  places {p} hnone hsome := by
    by_cases hmid : disk'.node? p = none
    · obtain ⟨f, hf, rfl⟩ := h'.places hmid hsome
      exact ⟨f, hf, by rw [h.dir]⟩
    · obtain ⟨f, hf, rfl⟩ := h.places hnone (Option.isSome_iff_ne_none.2 hmid)
      obtain ⟨g, hg, hid, -⟩ := h'.exists_file hf
      exact ⟨g, hg, by rw [hid]⟩
  bytes id hid := (h.bytes id hid).trans (h'.bytes id (Nat.lt_of_lt_of_le hid h.fresh))

/-- No file is shorter. -/
theorem le (h : c.Grows disk c' disk') : disk.Le disk' where
  nodes := h.nodes
  bytes id hid := by
    obtain ⟨p, hp⟩ := Disk.mem_fileIds.1 hid
    exact (h.bytes id (disk.id_lt_fresh hp)).length_le

/-- An offset falls into the same file, which may have become longer. -/
theorem fileOf? (h : c.Grows disk c' disk') {offset : Nat} {f : CorpusFile} (hf : c.fileOf? offset = some f) :
    ∃ g, c'.fileOf? offset = some g ∧ g.base = f.base ∧ g.handle = f.handle ∧ f.size ≤ g.size := by
  obtain ⟨size, more, hsize, hfiles, -⟩ := h.files
  unfold Corpus.fileOf? at hf ⊢
  rw [Corpus.files, List.find?_append] at hf
  rw [hfiles, List.find?_append]
  cases hfull : c.full.find? (·.holds offset) with
  | some g =>
    rw [hfull, Option.some_or, Option.some.injEq] at hf
    subst hf
    exact ⟨g, Option.some_or, rfl, rfl, Nat.le_refl _⟩
  | none =>
    rw [hfull, Option.none_or, List.find?_singleton] at hf
    split at hf
    · next hholds =>
      cases hf
      have hlonger : (decide (c.active.base ≤ offset) && decide (offset < c.active.base + size)) = true := by
        simp only [CorpusFile.holds, Bool.and_eq_true, decide_eq_true_eq] at hholds ⊢
        rw [CorpusFile.endOffset] at hholds
        omega
      refine ⟨{ c.active with size := size }, ?_, rfl, rfl, hsize⟩
      rw [Option.none_or, List.find?_cons_of_pos]
      exact hlonger
    · cases hf

/-- What was retrieved is retrieved. -/
theorem retrieve (h : c.Grows disk c' disk') (hc : c.Held disk) {offset : Offset}
    (hr : c.retrieve disk offset = .ok pair) : c'.retrieve disk' offset = .ok pair := by
  unfold Corpus.retrieve at hr ⊢
  by_cases hneg : offset < 0
  · rw [if_pos hneg] at hr
    cases hr
  · rw [if_neg hneg] at hr ⊢
    cases hf : c.fileOf? offset.toInt.toNat with
    | none =>
      rw [hf] at hr
      cases hr
    | some f =>
      obtain ⟨g, hg, hbase, hhandle, hsize⟩ := h.fileOf? hf
      rw [hf] at hr
      rw [hg]
      dsimp only at hr ⊢
      rw [hbase, hhandle]
      obtain ⟨more, hmore⟩ := h.bytes f.handle (hc f (List.mem_of_find?_eq_some hf))
      rw [← hmore, List.drop_append]
      exact Record.read_of_longer (Nat.sub_le_sub_right hsize _) (List.prefix_append _ _) hr

end Grows

/-! ## What appending comes to -/

theorem grows_roll (hr : c.roll disk = .ok (c', disk')) : c.Grows disk c' disk' := by
  obtain ⟨handle, hcreate, rfl⟩ := roll_eq_ok hr
  obtain ⟨hhandle, hdisk⟩ := Disk.openOrCreate_cases hcreate
  have hfiles : ∃ size more, c.active.size ≤ size ∧
      c.files ++ [CorpusFile.ofDisk disk' (c.active.id + 1) c.active.endOffset handle] =
        c.full ++ { c.active with size := size } :: more ∧ ∀ f ∈ more, f.handle < disk'.fresh := by
    refine ⟨c.active.size, [.ofDisk disk' (c.active.id + 1) c.active.endOffset handle], Nat.le_refl _, ?_, ?_⟩
    · simp [files]
    · intro f hf
      rw [List.mem_singleton.1 hf]
      exact hhandle
  rcases hdisk with rfl | ⟨hfree, rfl⟩
  · have h := Grows.refl c disk'
    exact ⟨rfl, hfiles, h.fresh, h.nodes, fun hnone hsome => by simp [hnone] at hsome, h.bytes⟩
  · refine ⟨rfl, hfiles, Nat.le_succ _, ?_, ?_, ?_⟩
    · intro p node hp
      rw [Disk.node?_addFile, if_neg, hp]
      rintro rfl
      rw [hfree] at hp
      cases hp
    · intro p hnone hsome
      rw [Disk.node?_addFile] at hsome
      split at hsome
      · next hp => exact ⟨_, List.mem_append_right _ (List.mem_singleton.2 rfl), hp.symm⟩
      · rw [hnone] at hsome
        cases hsome
    · intro id hid
      have hsame := disk.bytes_addFile (filePath c.dir (c.active.id + 1)).place id
      rw [if_neg (Nat.ne_of_gt hid)] at hsame
      exact hsame ▸ List.prefix_rfl

theorem grows_prepare {size : Nat} (hr : c.prepare disk size = .ok (c', disk')) : c.Grows disk c' disk' := by
  unfold Corpus.prepare at hr
  split at hr
  · exact grows_roll hr
  · cases hr
    exact .refl _ _

/-- Bytes go to the end of the last file, and some of them are counted. -/
theorem grows_active (c : Corpus) (disk : Disk) (bs : Bytes) (n : Nat) :
    c.Grows disk { c with active := { c.active with size := c.active.size + n } } (disk.append c.active.handle bs) where
  dir := rfl
  files := ⟨c.active.size + n, [], Nat.le_add_right _ _, rfl, nofun⟩
  fresh := Nat.le_refl _
  nodes hp := hp
  places hnone hsome := by
    rw [Disk.append, Disk.node?_setBytes, hnone] at hsome
    cases hsome
  bytes id _ := by
    rw [Disk.append, Disk.bytes_setBytes]
    split
    · next he =>
      rw [he]
      exact List.prefix_append _ _
    · exact List.prefix_rfl

theorem grows_append {r : Except Error Offset} (ha : c.append disk pair = (r, c', disk')) : c.Grows disk c' disk' := by
  rcases append_cases ha with ⟨e, -, rfl, rfl⟩ | ⟨-, c₁, disk₁, offset, hp, hw, -⟩
  · exact .refl _ _
  · cases hw
    exact (grows_prepare hp).trans (grows_active _ _ _ _)

/-- Sentences are appended, or some of them. -/
theorem grows_appendAll {pairs : List SentencePair} {r : Except Error (List Offset)}
    (ha : Model.appendAll c disk pairs = (r, c', disk')) : c.Grows disk c' disk' :=
  appendAll_induct (P := fun c' d => c.Grows disk c' d) (fun h hone => h.trans (grows_append hone)) (.refl c disk) ha

/-- A write is cut short. -/
theorem grows_tear (c : Corpus) (disk : Disk) (pair : SentencePair) (bytes : Nat) :
    c.Grows disk (c.tear disk pair bytes).1 (c.tear disk pair bytes).2 := by
  unfold tear
  cases hp : c.prepare disk (Record.encode pair).length with
  | error e => exact .refl _ _
  | ok room =>
    obtain ⟨c₁, disk₁⟩ := room
    exact (grows_prepare hp).trans (grows_active c₁ disk₁ _ 0)

end Corpus

end PhraseIndex
