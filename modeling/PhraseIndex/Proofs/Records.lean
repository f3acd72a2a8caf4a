import PhraseIndex.Model
import PhraseIndex.Proofs.Fragments
import PhraseIndex.Proofs.Opening

/-!
# Records in the corpus

A placed sentence pair is `Stored` when its record lies where its offset says, and then it is retrieved
(`retrieve_of_stored`). `Kept` is what appending never breaks: the files are in order, they have grown from the
committed manifest, all placed sentence pairs are stored, and their offsets increase (`Kept.append`, `Kept.appendAll`,
`Kept.openAt`).
-/

namespace PhraseIndex

namespace Corpus

variable {disk disk' : Disk} {dir : Path} {n base : Nat} {f : CorpusFile} {files : List CorpusFile} {p : Placement}
  {c c' : Corpus} {entries : List ManifestFile} {placed : List Placement} {pair : SentencePair}

/-- The payload of a record has its length in 32 bits. -/
def Recordable (pair : SentencePair) : Prop := (Binary.sentencePair pair).length < 2 ^ 32

/-- The record of the sentence pair lies in a file, at the position that the offset says. -/
def Stored (disk : Disk) (files : List CorpusFile) (p : Placement) : Prop :=
  Recordable p.1 ∧ ∃ f ∈ files, ∃ position rest, p.2.toInt = (f.base + position : Nat) ∧
    (disk.bytes f.handle).drop position = Record.encode p.1 ++ rest

/-! ## Reading -/

/-- A record that stands at a position lies within the bytes. -/
theorem add_length_le {bs rest : Bytes} {position : Nat} (hd : bs.drop position = Record.encode pair ++ rest) :
    position + (Record.encode pair).length ≤ bs.length := by
  have hlen := congrArg List.length hd
  have hpos := Record.length_encode_pos pair
  rw [List.length_drop, List.length_append] at hlen
  omega

/-- It stands there also when more bytes have come. -/
theorem exists_drop_of_prefix {bs bs' rest : Bytes} {position : Nat} (hbs : bs <+: bs')
    (hd : bs.drop position = Record.encode pair ++ rest) :
    ∃ rest', bs'.drop position = Record.encode pair ++ rest' := by
  obtain ⟨more, rfl⟩ := hbs
  have hle := add_length_le hd
  exact ⟨rest ++ more, by rw [List.drop_append_of_le_length (by omega), hd, List.append_assoc]⟩

/-- The position of a record and its bytes are within the file. -/
theorem position_add_le {position : Nat} {rest : Bytes} (h : Laid disk dir n base files) (hf : f ∈ files)
    (hd : (disk.bytes f.handle).drop position = Record.encode pair ++ rest) :
    position + (Record.encode pair).length ≤ f.size := by
  rw [h.size hf]
  exact add_length_le hd

/-- What stands at a position of a file is read. -/
theorem retrieve_at {offset : Offset} {position : Nat} (h : Contiguous base c.files) (hf : f ∈ c.files)
    (hoffset : offset.toInt = (f.base + position : Nat)) (hlt : position < f.size) (disk : Disk) :
    c.retrieve disk offset = Record.read offset (f.size - position) ((disk.bytes f.handle).drop position) := by
  have hsign : ¬offset < 0 := by
    rw [Int64.lt_iff_toInt_lt, hoffset]
    exact Int.not_lt.2 (Int.natCast_nonneg _)
  have hholds : f.holds (f.base + position) = true := CorpusFile.holds_iff.2 ⟨by omega, by omega⟩
  rw [retrieve, if_neg hsign, hoffset, Int.toNat_natCast, fileOf?, h.find?_holds hf hholds]
  dsimp only
  rw [Nat.add_sub_cancel_left]

/-- A stored sentence pair is retrieved. -/
theorem retrieve_of_stored (h : Laid disk c.dir 0 0 c.files) (hs : Stored disk c.files p) :
    c.retrieve disk p.2 = .ok p.1 := by
  obtain ⟨hr, f, hf, position, rest, hoffset, hd⟩ := hs
  have hsize := position_add_le h hf hd
  have hpos := Record.length_encode_pos p.1
  rw [retrieve_at h.contiguous hf hoffset (by omega), hd]
  exact Record.read_append hr (by omega) p.2 rest

/-- The record of a stored sentence pair lies before the end of the corpus. -/
theorem Stored.add_le_extent (hs : Stored disk files p) (h : Laid disk dir 0 0 files) :
    p.2.toInt + (Record.encode p.1).length ≤ extent files := by
  obtain ⟨-, f, hf, position, rest, hoffset, hd⟩ := hs
  have hsize := position_add_le h hf hd
  have hend := h.contiguous.end_le hf
  rw [hoffset]
  omega

theorem Stored.lt_extent (hs : Stored disk files p) (h : Laid disk dir 0 0 files) : p.2.toInt < extent files := by
  have hend := hs.add_le_extent h
  have hpos := Record.length_encode_pos p.1
  omega

/-- What is stored stays stored while files only get longer. -/
theorem Stored.of_longer {files' : List CorpusFile} (hs : Stored disk files p)
    (hfiles : ∀ f ∈ files, ∃ g ∈ files', g.base = f.base ∧ g.handle = f.handle)
    (hbytes : ∀ f ∈ files, disk.bytes f.handle <+: disk'.bytes f.handle) : Stored disk' files' p := by
  obtain ⟨hr, f, hf, position, rest, hoffset, hd⟩ := hs
  obtain ⟨g, hg, hbase, hhandle⟩ := hfiles f hf
  obtain ⟨rest', hd'⟩ := exists_drop_of_prefix (hbytes f hf) hd
  exact ⟨hr, g, hg, position, rest', by rw [hbase, hoffset], by rw [hhandle, hd']⟩

/-! ## What appending keeps -/

/-- The files lie in order and have grown from the manifest, and the placed sentence pairs are stored in them one after
the other. -/
structure Kept (disk : Disk) (dir : Path) (files : List CorpusFile) (entries : List ManifestFile)
    (placed : List Placement) : Prop where
  filed : Filed disk dir files
  grown : Grown entries files
  stored : ∀ p ∈ placed, Stored disk files p
  ordered : placed.Pairwise fun p q => p.2 < q.2

theorem Filed.kept (h : Filed disk dir files) : Kept disk dir files [] [] := ⟨h, trivial, nofun, .nil⟩

theorem Kept.sublist {some : List Placement} (h : Kept disk dir files entries placed) (hs : some.Sublist placed) :
    Kept disk dir files entries some where
  filed := h.filed
  grown := h.grown
  stored p hp := h.stored p (hs.subset hp)
  ordered := h.ordered.sublist hs

/-- A corpus is kept on every disk with the same files and bytes. -/
theorem Kept.congr (h : Kept disk dir files entries placed)
    (hnode : ∀ id, disk'.node? (filePath dir id).place = disk.node? (filePath dir id).place)
    (hbytes : ∀ id, disk'.bytes id = disk.bytes id) : Kept disk' dir files entries placed where
  filed := h.filed.congr hnode hbytes
  grown := h.grown
  stored p hp := (h.stored p hp).of_longer (fun f hf => ⟨f, hf, rfl, rfl⟩) fun f _ => by
    exact ⟨[], by rw [List.append_nil, hbytes]⟩
  ordered := h.ordered

/-- Opening a corpus keeps it. -/
theorem Kept.openAt {manifest : Manifest} {maxFileSize : Nat} {r : Except Error Corpus}
    (h : Kept disk dir files manifest.files placed) (hlen : files.length < 2 ^ 32)
    (ho : Corpus.openAt disk dir manifest maxFileSize = (r, disk')) :
    ∃ opened, Kept disk' dir opened manifest.files placed ∧ ∀ c, r = .ok c → c.files = opened ∧ c.dir = dir := by
  obtain ⟨opened, hfiled, hc, hcase⟩ := h.filed.openAt h.grown hlen ho
  refine ⟨opened, ?_, hc⟩
  rcases hcase with rfl | ⟨rfl, hbytes⟩
  · have hnone : placed = [] := List.eq_nil_iff_forall_not_mem.2 fun p hp => by
      obtain ⟨-, f, hf, -⟩ := h.stored p hp
      cases hf
    have hempty : manifest.files = [] := List.length_eq_zero_iff.1 (Nat.le_zero.1 h.grown.length_le)
    subst hnone
    exact ⟨hfiled, by rw [hempty]; trivial, nofun, .nil⟩
  · refine ⟨hfiled, h.grown, fun p hp => (h.stored p hp).of_longer (fun f hf => ⟨f, hf, rfl, rfl⟩) ?_, h.ordered⟩
    intro f hf
    exact ⟨[], by rw [List.append_nil, hbytes f hf]⟩

/-! ## Appending -/

/-- The last file has the last number. -/
theorem Laid.active (h : Laid disk c.dir 0 0 c.files) : c.active.id + 1 = UInt32.ofNat c.files.length := by
  obtain ⟨-, hid, -⟩ := (laid_append.1 h).2
  have hcount : c.files.length = c.full.length + 1 := by simp [files]
  rw [Nat.zero_add] at hid
  rw [hid, hcount, UInt32.ofNat_add]
  rfl

/-- Rolling opens the next file, which starts where the last one ends. -/
theorem roll_eq_ok (h : c.roll disk = .ok (c', disk')) :
    ∃ handle, disk.openOrCreate (filePath c.dir (c.active.id + 1)).place = .ok (handle, disk') ∧
      c' = { c with full := c.files, active := .ofDisk disk' (c.active.id + 1) c.active.endOffset handle } := by
  obtain ⟨⟨handle, made⟩, hcreate, h⟩ := bind_eq_ok_iff.1 h
  cases h
  exact ⟨handle, mapError_eq_ok_iff.1 hcreate, rfl⟩

/-- A new file changes nothing that is stored. -/
theorem Kept.roll (h : Kept disk c.dir c.files entries placed) (hlen : c.files.length < 2 ^ 32)
    (hr : c.roll disk = .ok (c', disk')) : Kept disk' c'.dir c'.files entries placed ∧ c'.dir = c.dir := by
  obtain ⟨handle, hcreate, rfl⟩ := roll_eq_ok hr
  rw [h.filed.laid.active, h.filed.laid.contiguous.endOffset_active]
  rw [h.filed.laid.active] at hcreate
  obtain ⟨hfiled, hbytes⟩ := h.filed.create hlen hcreate
  refine ⟨⟨hfiled, h.grown.append _, ?_, h.ordered⟩, rfl⟩
  intro p hp
  refine (h.stored p hp).of_longer (fun f hf => ⟨f, List.mem_append_left _ hf, rfl, rfl⟩) ?_
  intro f hf
  exact ⟨[], by rw [List.append_nil, hbytes f hf]⟩

theorem Kept.prepare {size : Nat} (h : Kept disk c.dir c.files entries placed) (hlen : c.files.length < 2 ^ 32)
    (hr : c.prepare disk size = .ok (c', disk')) : Kept disk' c'.dir c'.files entries placed ∧ c'.dir = c.dir := by
  unfold Corpus.prepare at hr
  split at hr
  · exact h.roll hlen hr
  · cases hr
    exact ⟨h, rfl⟩

/-- Bytes at the end of the last file change nothing that is stored. -/
theorem Kept.extend (h : Kept disk c.dir c.files entries placed) (bs : Bytes) :
    Kept (disk.append c.active.handle bs) c.dir (c.full ++ [{ c.active with size := c.active.size + bs.length }])
      entries placed := by
  obtain ⟨hfiled, hother, hwritten⟩ := h.filed.write bs
  refine ⟨hfiled, h.grown.extend (by omega), fun p hp => (h.stored p hp).of_longer ?_ ?_, h.ordered⟩
  · intro f hf
    rcases List.mem_append.1 hf with hf | hf
    · exact ⟨f, List.mem_append_left _ hf, rfl, rfl⟩
    · rw [List.mem_singleton.1 hf]
      exact ⟨_, List.mem_append_right _ List.mem_cons_self, rfl, rfl⟩
  · intro f hf
    rcases List.mem_append.1 hf with hf | hf
    · exact ⟨[], by rw [List.append_nil, hother f hf]⟩
    · rw [List.mem_singleton.1 hf, hwritten]
      exact List.prefix_append _ _

/-- The offset of a record is where the files ended. -/
theorem toInt_offset (h : Contiguous 0 c.files) (hext : extent c.files < 2 ^ 63) :
    (Int64.ofNat c.active.endOffset).toInt = (extent c.files : Nat) := by
  rw [h.endOffset_active]
  exact Int64.toInt_ofNat_of_lt hext

/-- A record goes to the end of the last file, behind everything that was stored before. -/
theorem Kept.writeRecord {offset : Offset} (h : Kept disk c.dir c.files entries placed) (hext : extent c.files < 2 ^ 63)
    (hp : Recordable pair) (hw : c.writeRecord disk (Record.encode pair) = (offset, c', disk')) :
    Kept disk' c'.dir c'.files entries (placed ++ [(pair, offset)]) ∧ c'.dir = c.dir := by
  cases hw
  have hoffset := toInt_offset h.filed.laid.contiguous hext
  have hsize := h.filed.laid.size (List.mem_append_right _ (List.mem_singleton.2 rfl) : c.active ∈ c.files)
  have hlonger := h.extend (Record.encode pair)
  refine ⟨⟨hlonger.filed, hlonger.grown, ?_, ?_⟩, rfl⟩
  · intro p hmem
    rcases List.mem_append.1 hmem with hold | hnew
    · exact hlonger.stored p hold
    · rw [List.mem_singleton.1 hnew]
      refine ⟨hp, _, List.mem_append_right _ List.mem_cons_self, c.active.size, [], ?_, ?_⟩
      · rw [hoffset, ← h.filed.laid.contiguous.endOffset_active]
        rfl
      · show List.drop _ (Disk.bytes _ c.active.handle) = _
        rw [(h.filed.write _).2.2, hsize, List.drop_left, List.append_nil]
  · refine List.pairwise_append.2 ⟨h.ordered, List.pairwise_singleton _ _, ?_⟩
    intro p hold q hnew
    rw [List.mem_singleton.1 hnew, Int64.lt_iff_toInt_lt, hoffset]
    exact (h.stored p hold).lt_extent h.filed.laid

/-! ### Disks only grow -/

theorem le_roll (hr : c.roll disk = .ok (c', disk')) : disk.Le disk' := by
  obtain ⟨handle, hcreate, -⟩ := roll_eq_ok hr
  exact Disk.le_openOrCreate hcreate

theorem le_prepare {size : Nat} (hr : c.prepare disk size = .ok (c', disk')) : disk.Le disk' := by
  unfold Corpus.prepare at hr
  split at hr
  · exact le_roll hr
  · cases hr
    exact .refl disk

/-- Appending fails before anything happens, or room is made and the record is written. -/
theorem append_cases {r : Except Error Offset} (ha : c.append disk pair = (r, c', disk')) :
    (∃ e, r = .error e ∧ c' = c ∧ disk' = disk) ∨
      Recordable pair ∧ ∃ c₁ disk₁ offset, c.prepare disk (Record.encode pair).length = .ok (c₁, disk₁) ∧
        c₁.writeRecord disk₁ (Record.encode pair) = (offset, c', disk') ∧ r = .ok offset := by
  unfold Corpus.append at ha
  dsimp only at ha
  split at ha
  · cases ha
    exact .inl ⟨_, rfl, rfl, rfl⟩
  · next hsmall =>
    cases hp : c.prepare disk (Record.encode pair).length with
    | error e =>
      simp only [hp] at ha
      cases ha
      exact .inl ⟨_, rfl, rfl, rfl⟩
    | ok room =>
      obtain ⟨c₁, disk₁⟩ := room
      simp only [hp] at ha
      cases ha
      refine .inr ⟨?_, c₁, disk₁, _, rfl, rfl, rfl⟩
      rw [Record.length_encode, Nat.add_sub_cancel_left] at hsmall
      exact Nat.lt_of_not_le hsmall

theorem le_append {r : Except Error Offset} (ha : c.append disk pair = (r, c', disk')) : disk.Le disk' := by
  rcases append_cases ha with ⟨e, -, -, rfl⟩ | ⟨-, c₁, disk₁, offset, hp, hw, -⟩
  · exact .refl _
  · cases hw
    exact (le_prepare hp).trans (Disk.le_append _ _ _)

/-- A sentence pair is appended behind everything that was stored before. -/
theorem Kept.append {r : Except Error Offset} (h : Kept disk c.dir c.files entries placed) (hfit : disk'.Fits)
    (ha : c.append disk pair = (r, c', disk')) : c'.dir = c.dir ∧
      ((∃ e, r = .error e) ∧ Kept disk' c'.dir c'.files entries placed ∨
        ∃ offset, r = .ok offset ∧ Kept disk' c'.dir c'.files entries (placed ++ [(pair, offset)])) := by
  rcases append_cases ha with ⟨e, rfl, rfl, rfl⟩ | ⟨hpair, c₁, disk₁, offset, hp, hw, rfl⟩
  · exact ⟨rfl, .inl ⟨⟨e, rfl⟩, h⟩⟩
  · have hwritten : disk₁.Le disk' := by
      cases hw
      exact Disk.le_append _ _ _
    have hfit₁ := hfit.of_le hwritten
    have hfit₀ := hfit₁.of_le (le_prepare hp)
    obtain ⟨h₁, hdir⟩ := h.prepare (h.filed.laid.fits hfit₀).1 hp
    obtain ⟨h₂, hdir'⟩ := h₁.writeRecord (h₁.filed.laid.fits hfit₁).2 hpair hw
    exact ⟨hdir'.trans hdir, .inr ⟨offset, rfl, h₂⟩⟩

/-- What every append keeps is kept while sentence pairs are appended in order. -/
theorem appendAll_induct {P : Corpus → Disk → Prop}
    (hstep : ∀ {c disk} {pair : SentencePair} {r c' disk'}, P c disk → c.append disk pair = (r, c', disk') → P c' disk')
    {pairs : List SentencePair} {r : Except Error (List Offset)} (h : P c disk)
    (ha : Model.appendAll c disk pairs = (r, c', disk')) : P c' disk' := by
  induction pairs generalizing c disk r with
  | nil =>
    cases ha
    exact h
  | cons pair pairs ih =>
    unfold Model.appendAll at ha
    cases hone : c.append disk pair with
    | mk first rest =>
      obtain ⟨c₁, disk₁⟩ := rest
      rw [hone] at ha
      have h₁ := hstep h hone
      cases first with
      | error e =>
        cases ha
        exact h₁
      | ok offset =>
        cases hrest : Model.appendAll c₁ disk₁ pairs with
        | mk offsets rest =>
          obtain ⟨c₂, disk₂⟩ := rest
          simp only [hrest] at ha
          cases ha
          exact ih h₁ hrest

theorem le_appendAll {pairs : List SentencePair} {r : Except Error (List Offset)}
    (ha : Model.appendAll c disk pairs = (r, c', disk')) : disk.Le disk' :=
  appendAll_induct (P := fun _ d => disk.Le d) (fun h hone => h.trans (le_append hone)) (.refl disk) ha

/-- Sentence pairs are appended in order; if one fails, those before it stay. -/
theorem Kept.appendAll {pairs : List SentencePair} {r : Except Error (List Offset)}
    (h : Kept disk c.dir c.files entries placed) (hfit : disk'.Fits)
    (ha : Model.appendAll c disk pairs = (r, c', disk')) : c'.dir = c.dir ∧
      ∃ added, Kept disk' c'.dir c'.files entries (placed ++ added) ∧
        ∀ offsets, r = .ok offsets → added = pairs.zip offsets := by
  induction pairs generalizing c disk placed r with
  | nil =>
    cases ha
    refine ⟨rfl, [], by rwa [List.append_nil], ?_⟩
    intro offsets _
    rw [List.zip_nil_left]
  | cons pair pairs ih =>
    unfold Model.appendAll at ha
    cases hone : c.append disk pair with
    | mk first rest =>
      obtain ⟨c₁, disk₁⟩ := rest
      rw [hone] at ha
      cases first with
      | error e =>
        cases ha
        obtain ⟨hdir, ⟨-, hkept⟩ | ⟨offset, hok, -⟩⟩ := h.append hfit hone
        · exact ⟨hdir, [], by rwa [List.append_nil], nofun⟩
        · cases hok
      | ok offset =>
        cases hrest : Model.appendAll c₁ disk₁ pairs with
        | mk offsets rest =>
          obtain ⟨c₂, disk₂⟩ := rest
          simp only [hrest] at ha
          cases ha
          obtain ⟨hdir, ⟨⟨e, he⟩, -⟩ | ⟨offset', hok, hkept⟩⟩ := h.append (hfit.of_le (le_appendAll hrest)) hone
          · cases he
          · cases hok
            obtain ⟨hdir', added, hadded, hzip⟩ := ih hkept hrest
            refine ⟨hdir'.trans hdir, (pair, offset) :: added, ?_, ?_⟩
            · rwa [List.append_assoc] at hadded
            · intro all hall
              obtain ⟨tail, htail, rfl⟩ := map_eq_ok_iff.1 hall
              rw [List.zip_cons_cons, hzip tail htail]

end Corpus

end PhraseIndex
