import PhraseIndex.Proofs.Splicing

/-!
# Appending behind a torn record

What an open storage answers once bytes that it does not know of stand behind its last file. It is opened again until
the next file is begun and never after (`Corpus.Intact.accepted_splice_iff`), and a sentence pair is looked for too far
to the front of the file that has them (`Corpus.Intact.retrieve_splice_iff`). Opening the storage mends it
(`Corpus.Intact.reopen`).
-/

namespace PhraseIndex

namespace Record

/-- A record begins with the lowest byte of its length. -/
theorem head?_encode (pair : SentencePair) :
    (encode pair).head? = some (UInt8.ofNat (Binary.sentencePair pair).length) := rfl

/-- Behind every tail some record does not read as it does alone. -/
theorem exists_not_prefix {tail : Bytes} (ht : tail ≠ []) :
    ∃ pair, Corpus.Recordable pair ∧ ¬encode pair <+: tail ++ encode pair := by
  obtain ⟨b, tail, rfl⟩ := List.exists_cons_of_ne_nil ht
  have hfirst : ∀ pair,
      UInt8.ofNat (Binary.sentencePair pair).length ≠ b → ¬encode pair <+: b :: tail ++ encode pair := by
    intro pair hne hprefix
    obtain ⟨record, hrecord⟩ := List.head?_eq_some_iff.1 (head?_encode pair)
    rw [hrecord, List.cons_append, List.cons_prefix_cons] at hprefix
    exact hne hprefix.1
  -- the lengths of these two records begin with different bytes
  have hshort : (Binary.sentencePair ⟨0, [], [], []⟩).length = 28 := Binary.length_sentencePair _
  have hlong : (Binary.sentencePair ⟨0, [0], [], []⟩).length = 32 := Binary.length_sentencePair _
  by_cases hb : b = 28
  · refine ⟨⟨0, [0], [], []⟩, ?_, hfirst _ ?_⟩
    · rw [Corpus.Recordable, hlong]
      decide
    · rw [hlong, hb]
      decide
  · refine ⟨⟨0, [], [], []⟩, ?_, hfirst _ ?_⟩
    · rw [Corpus.Recordable, hshort]
      decide
    · rw [hshort]
      exact Ne.symm hb

end Record

namespace Corpus

variable {disk disk' torn : Disk} {dir : Path} {c c' : Corpus} {pair : SentencePair} {id : FileId} {n : Nat}
  {tail : Bytes}
  {maxFileSize : Nat} {offset : Offset}

/-! ## What is read back -/

/-- Behind a tail the place where a file would end without it is the length of the tail further to the front. -/
theorem drop_spliced {old : Bytes} (hn : n ≤ old.length) (tail record : Bytes) :
    ((old ++ record).take n ++ tail ++ (old ++ record).drop n).drop old.length =
      (tail ++ old.drop n ++ record).drop (old.drop n).length := by
  have hend : old.length = (old.take n).length + (old.drop n).length := by
    rw [← List.length_append, List.take_append_drop]
  rw [List.take_append_of_le_length hn, List.drop_append_of_le_length hn, hend, List.append_assoc, ← List.drop_drop,
    List.drop_left, List.append_assoc]

/-- A record is read back from the end of the file that it went to, as that stands on any disk. -/
theorem Intact.retrieve_append (h : c.Intact disk) (hfit : disk.Fits)
    (ha : c.append disk pair = (.ok offset, c', disk')) (torn : Disk) :
    c'.retrieve torn offset = Record.read offset (Record.encode pair).length
      ((torn.bytes c'.active.handle).drop (c'.active.size - (Record.encode pair).length)) := by
  have h' := h.append (h.length_lt hfit) ha
  rw [h.append_eq (h.length_lt hfit) disk rfl (recordable_of_append ha)] at ha
  have hpos := Record.length_encode_pos pair
  have hend := endOffset_room c disk (Record.encode pair).length
  have hoffset := toInt_offset h.filed.laid.contiguous (h.filed.laid.fits hfit).2
  rw [← h.filed.laid.contiguous.endOffset_active] at hoffset
  cases ha
  generalize (c.room disk (Record.encode pair).length).1 = c₁ at *
  rw [← hend] at hoffset
  rw [← hend, retrieve_at h'.filed.laid.contiguous (active_mem _) hoffset (Nat.lt_add_of_pos_right hpos)]
  dsimp only
  rw [Nat.add_sub_cancel_left, Nat.add_sub_cancel]

/-- A sentence pair is retrieved if it goes to another file than the one with the tail. In that one it is retrieved if
its record stands where it is looked for, which is further to the front by the length of the tail. -/
theorem Intact.retrieve_splice_iff (h : c.Intact disk) (hfit : disk.Fits) (hid : id < disk.fresh)
    (hn : n ≤ (disk.bytes id).length) (ha : c.append (disk.splice id n tail) pair = (.ok offset, c', torn)) :
    c'.retrieve torn offset = .ok pair ↔ c.isFull (Record.encode pair).length ∨ c.active.handle ≠ id ∨
      Record.encode pair <+:
        (tail ++ (disk.bytes id).drop n ++ Record.encode pair).drop ((disk.bytes id).drop n).length := by
  have hlen := h.length_lt hfit
  have hp := recordable_of_append ha
  have hplain := h.append_eq hlen disk rfl hp
  rw [h.append_splice hlen hid hn tail hplain] at ha
  cases ha
  rw [h.retrieve_append hfit hplain, Record.read_eq_ok_iff hp]
  unfold room
  cases hfull : c.isFull (Record.encode pair).length with
  | true =>
    -- the new file holds nothing but the record
    have hne : id ≠ disk.fresh := Nat.ne_of_lt hid
    simp [Disk.bytes_splice, Disk.append, hne]
  | false =>
    have hsize := h.size_active
    by_cases hactive : id = c.active.handle
    · -- the record comes last in the file with the tail
      subst hactive
      have hend := drop_spliced hn tail (Record.encode pair)
      rw [← hsize] at hend
      simp only [Bool.false_eq_true, ↓reduceIte, Disk.append, Disk.bytes_splice, Disk.bytes_setBytes,
        Nat.add_sub_cancel, hend, ne_eq, not_true_eq_false, false_or]
    · -- the file is another one, and the record is the last in it
      simp [Disk.bytes_splice, Disk.append, hsize, hactive, Ne.symm hactive]

/-! ## Reopening -/

/-- The storage is opened again with its present manifest. -/
def Accepted (c : Corpus) (disk : Disk) (maxFileSize : Nat) : Prop :=
  ∃ c' disk', openAt disk c.dir c.manifest maxFileSize = (.ok c', disk')

/-- Where the files of a manifest are found, all but the last have the sizes that it says. -/
theorem size_of_listedFiles {base : Nat} {front back : List ManifestFile} {entry next : ManifestFile}
    {files : List CorpusFile} (h : listedFiles disk dir base (front ++ entry :: next :: back) = .ok files) :
    ∃ handle, disk.find (filePath dir entry.id).place = .ok handle ∧ (disk.bytes handle).length = entry.size.toNat := by
  induction front generalizing base files with
  | nil =>
    obtain ⟨file, hfile, -⟩ := bind_eq_ok_iff.1 h
    obtain ⟨_, -, hfile⟩ := bind_eq_ok_iff.1 hfile
    obtain ⟨_, -, hfile⟩ := bind_eq_ok_iff.1 hfile
    obtain ⟨handle, hhandle, hfile⟩ := bind_eq_ok_iff.1 hfile
    obtain ⟨_, hsize, -⟩ := bind_eq_ok_iff.1 hfile
    rw [require_eq_ok_iff, Bool.and_eq_true, Bool.or_eq_true, beq_iff_eq] at hsize
    exact ⟨handle, mapError_eq_ok_iff.1 hhandle, hsize.2.resolve_left Bool.false_ne_true⟩
  | cons first front ih =>
    obtain ⟨file, -, hrest⟩ := bind_eq_ok_iff.1 h
    obtain ⟨files, hfiles, -⟩ := bind_eq_ok_iff.1 hrest
    exact ih hfiles

/-- A storage is not opened again if bytes stand between those of a file that is full. -/
theorem Intact.eq_nil_of_accepted {f : CorpusFile} (h : c.Intact disk) (hf : f ∈ c.full) (hs : f.size < 2 ^ 64)
    (ha : c.Accepted (disk.splice f.handle n tail) maxFileSize) : tail = [] := by
  have hmem : f ∈ c.files := List.mem_append_left _ hf
  have hdirs : (disk.splice f.handle n tail).HasDirectories c.dir.place := h.directories
  obtain ⟨c', disk', ho⟩ := ha
  obtain ⟨front, back, hfull⟩ := List.append_of_mem hf
  obtain ⟨next, back, hback⟩ : ∃ next more, back ++ [c.active] = next :: more := by
    cases back with
    | nil => exact ⟨_, _, rfl⟩
    | cons next back => exact ⟨next, back ++ [c.active], rfl⟩
  unfold openAt openClearing at ho
  rw [Disk.makeDirectories_of_has hdirs h.rooted] at ho
  dsimp only at ho
  split at ho
  · cases ho
  · next files hrun =>
    obtain ⟨listed, hlisted, -⟩ := bind_eq_ok_iff.1 hrun
    rw [manifest, Corpus.files, hfull, List.append_assoc, List.cons_append, hback, List.map_append] at hlisted
    obtain ⟨handle, hfind, hlen⟩ := size_of_listedFiles hlisted
    have hnode : (disk.splice f.handle n tail).node? (filePath c.dir f.id).place = some (.file f.handle) :=
      h.filed.laid.node hmem
    rw [Disk.find, hnode] at hfind
    cases hfind
    rw [Disk.bytes_splice, if_pos rfl, UInt64.toNat_ofNat_of_lt' hs, h.filed.laid.size hmem] at hlen
    simp only [List.length_append, List.length_take, List.length_drop] at hlen
    exact List.length_eq_zero_iff.1 (by omega)

/-- A storage whose last file has become longer is opened again, and goes on behind what it finds there. -/
theorem Intact.reopen {size : Nat} (h : c.Intact disk) (hfit : disk.Fits)
    (hf : Filed torn c.dir (c.full ++ [{ c.active with size }])) (hnode : torn.node? = disk.node?)
    (hs : c.active.size ≤ size) (maxFileSize : Nat) :
    ∃ c', openAt torn c.dir c.manifest maxFileSize = (.ok c', torn) ∧ c'.Intact torn := by
  obtain ⟨hlen, hext⟩ := h.filed.laid.fits hfit
  have hgrown : Grown c.manifest.files (c.full ++ [{ c.active with size }]) :=
    (grown_present h.filed.laid.contiguous (by omega)).extend hs
  have hclean : Clean torn c.dir := h.clean.of_nodes fun name hsome => by rwa [hnode] at hsome
  have hdirs : torn.HasDirectories c.dir.place := fun q hq => by rw [hnode, h.directories q hq]
  obtain ⟨c', ho, hfiles, hdir⟩ := openAt_of_clean hclean hf hgrown
    (by rw [List.length_append, List.length_singleton]; rwa [files, List.length_append] at hlen)
    hdirs h.rooted (by simp) maxFileSize
  refine ⟨c', ho, hdir ▸ h.rooted, hdir ▸ hdirs, hdir ▸ hclean, ?_⟩
  rw [hdir, hfiles]
  exact hf

/-- While appending either the last file goes on as the last one, or it is full. -/
theorem Grows.active_cases (hg : c.Grows disk c' disk') :
    c'.fileCount = c.fileCount ∧ c'.active.handle = c.active.handle ∨
      c'.fileCount ≠ c.fileCount ∧ ∃ f ∈ c'.full, f.handle = c.active.handle := by
  obtain ⟨size, more, -, hfiles, -⟩ := hg.files
  rw [Corpus.files] at hfiles
  cases more using List.reverseRecOn with
  | nil =>
    obtain ⟨hfull, hactive⟩ := List.append_inj' hfiles rfl
    left
    rw [fileCount, fileCount, Corpus.files, Corpus.files, hfull, List.singleton_inj.1 hactive]
    exact ⟨by simp, rfl⟩
  | append_singleton more last =>
    rw [← List.cons_append, ← List.append_assoc] at hfiles
    obtain ⟨hfull, -⟩ := List.append_inj' hfiles rfl
    right
    rw [fileCount, fileCount, Corpus.files, Corpus.files, hfull]
    exact ⟨by simp, _, List.mem_append_right _ List.mem_cons_self, rfl⟩

theorem Intact.handle_ne_iff (h : c'.Intact disk') (hg : c.Grows disk c' disk') :
    c'.active.handle ≠ c.active.handle ↔ c'.fileCount ≠ c.fileCount := by
  obtain ⟨hcount, hhandle⟩ | ⟨hcount, f, hf, hhandle⟩ := hg.active_cases
  · simp [hcount, hhandle]
  · have hnodup := h.filed.laid.nodup_handles
    rw [Corpus.files, List.map_append, List.nodup_append] at hnodup
    have hne := hnodup.2.2 f.handle (List.mem_map_of_mem hf) c'.active.handle List.mem_cons_self
    rw [hhandle] at hne
    exact iff_of_true hne.symm hcount

/-- The present manifest is accepted exactly if nothing stands between the bytes, or no file was begun since. -/
theorem Intact.accepted_splice_iff (h : c.Intact disk) (hfit : disk.Fits) {c₀ : Corpus} {disk₀ : Disk}
    (hg : c₀.Grows disk₀ c disk) (n : Nat) (tail : Bytes) (maxFileSize : Nat) :
    c.Accepted (disk.splice c₀.active.handle n tail) maxFileSize ↔ tail = [] ∨ c.fileCount = c₀.fileCount := by
  have hext := (h.filed.laid.fits hfit).2
  constructor
  · intro ha
    obtain ⟨hcount, -⟩ | ⟨-, f, hf, hhandle⟩ := hg.active_cases
    · exact .inr hcount
    · have hend := h.filed.laid.contiguous.end_le (List.mem_append_left _ hf)
      rw [← hhandle] at ha
      exact .inl (h.eq_nil_of_accepted hf (by omega) ha)
  · rintro (rfl | hcount)
    · have hf : Filed (disk.splice c₀.active.handle n []) c.dir c.files :=
        h.filed.congr (fun _ => rfl) fun id => Disk.bytes_splice_nil _ _ _ id
      obtain ⟨c', ho, -⟩ := h.reopen hfit hf rfl (Nat.le_refl _) maxFileSize
      exact ⟨c', _, ho⟩
    · obtain ⟨-, hhandle⟩ | ⟨hne, -⟩ := hg.active_cases
      · rw [← hhandle]
        have hf := (h.filed.setBytes
          ((disk.bytes c.active.handle).take n ++ tail ++ (disk.bytes c.active.handle).drop n)).1
        have hsize : c.active.size ≤
            ((disk.bytes c.active.handle).take n ++ tail ++ (disk.bytes c.active.handle).drop n).length := by
          rw [h.size_active]
          simp only [List.length_append, List.length_take, List.length_drop]
          omega
        obtain ⟨c', ho, -⟩ := h.reopen hfit hf rfl hsize maxFileSize
        exact ⟨c', _, ho⟩
      · exact absurd hcount hne

/-! ## What is promised, and when it holds -/

/-- The placed sentence pairs are retrieved at their offsets, and the storage is opened again with its manifest. -/
structure Lawful (c : Corpus) (disk : Disk) (placed : List Placement) : Prop where
  retrieved : ∀ p ∈ placed, c.retrieve disk p.2 = .ok p.1
  accepted : ∀ maxFileSize, c.Accepted disk maxFileSize

/-- What is stored is retrieved if nothing stands between. -/
theorem Intact.retrieve_splice_nil (h : c.Intact disk) {p : Placement} (hs : Stored disk c.files p) (id : FileId)
    (n : Nat) :
    c.retrieve (disk.splice id n []) p.2 = .ok p.1 := by
  have hbytes := Disk.bytes_splice_nil disk id n
  have hlaid : Laid (disk.splice id n []) c.dir 0 0 c.files :=
    h.filed.laid.congr (fun _ _ => rfl) fun f _ => hbytes f.handle
  refine retrieve_of_stored hlaid (hs.of_longer (fun f hf => ⟨f, hf, rfl, rfl⟩) fun f _ => ?_)
  rw [hbytes]

/-- Behind a tail some append breaks the promise: its record is not the one that is found, or the storage is not opened
again. -/
theorem Intact.exists_unlawful (h : c.Intact disk) (hfit : disk.Fits) (ht : tail ≠ []) : ∃ pair offset c' torn,
    c.append (disk.append c.active.handle tail) pair = (.ok offset, c', torn) ∧ ¬c'.Lawful torn [(pair, offset)] := by
  obtain ⟨hlen, hext⟩ := h.filed.laid.fits hfit
  obtain ⟨pair, hp, hnot⟩ := Record.exists_not_prefix ht
  obtain ⟨offset, c', disk', hplain, hroll⟩ : ∃ offset c' disk', c.append disk pair = (.ok offset, c', disk') ∧
      (c.isFull (Record.encode pair).length → c.active ∈ c'.full) := by
    refine ⟨_, _, _, h.append_eq hlen disk rfl hp, fun hfull => ?_⟩
    simp only [room, hfull, ↓reduceIte]
    exact c.active_mem
  have htorn := h.append_splice hlen h.active_lt (Nat.le_refl _) tail hplain
  have hread := h.retrieve_splice_iff hfit h.active_lt (Nat.le_refl _) htorn
  rw [← Disk.append_eq_splice] at htorn
  refine ⟨pair, offset, c', _, htorn, fun hlawful => ?_⟩
  rcases hread.1 (hlawful.retrieved (pair, offset) List.mem_cons_self) with hfull | hother | hsame
  · have hend := h.filed.laid.contiguous.end_le c.active_mem
    exact ht ((h.append hlen hplain).eq_nil_of_accepted (hroll hfull) (by omega) (hlawful.accepted 0))
  · exact hother rfl
  · rw [List.drop_length, List.append_nil] at hsame
    exact hnot hsame

/-- What an append that fails while it writes leaves behind: an open storage, and a part of the record behind its last
file. -/
theorem Intact.tear (h : c.Intact disk) (hlen : c.files.length < 2 ^ 32) (pair : SentencePair) (bytes : Nat) :
    ∃ disk₁, (c.tear disk pair bytes).1.Intact disk₁ ∧ (c.tear disk pair bytes).2 =
      disk₁.append (c.tear disk pair bytes).1.active.handle ((Record.encode pair).dropLast.take bytes) := by
  have hprepare := h.prepare_eq hlen disk rfl (Record.encode pair).length
  unfold Corpus.tear
  rw [hprepare]
  exact ⟨_, h.of_grows (grows_prepare hprepare) (h.kept.prepare hlen hprepare).1.filed, rfl⟩

/-- Appending to an open storage behind a `tail` that it does not know of, such as a write that failed leaves. Without a
tail whatever is appended later is retrieved, and the storage is opened again. With a tail the storage is opened again
until the next file is begun, and never from then on. A sentence pair that is appended later is retrieved if it goes to
another file; in the file with the tail it is retrieved if the bytes in which it is looked for, which lie further to the
front by the length of the tail, happen to be its record. So every tail breaks the promise for some append. -/
theorem append_torn (h : c.Intact disk) (tail : Bytes) (hfit : (disk.append c.active.handle tail).Fits) :
    (∀ pairs placed c' torn, c.appendEach (disk.append c.active.handle tail) pairs = (placed, c', torn) → torn.Fits →
      (tail = [] → c'.Lawful torn placed) ∧
      (∀ maxFileSize, c'.Accepted torn maxFileSize ↔ tail = [] ∨ c'.fileCount = c.fileCount) ∧
      ∃ written, torn.bytes c.active.handle = disk.bytes c.active.handle ++ tail ++ written ∧
        ∀ pair offset next last, c'.append torn pair = (.ok offset, next, last) →
          (next.retrieve last offset = .ok pair ↔
            c'.isFull (Record.encode pair).length ∨ c'.fileCount ≠ c.fileCount ∨
              Record.encode pair <+: (tail ++ written ++ Record.encode pair).drop written.length)) ∧
    (tail ≠ [] → ∃ pair offset c' torn, c.append (disk.append c.active.handle tail) pair = (.ok offset, c', torn) ∧
      ¬c'.Lawful torn [(pair, offset)]) := by
  refine ⟨?_, h.exists_unlawful (hfit.of_le (disk.le_append c.active.handle tail))⟩
  intro pairs placed c' torn hrun hroom
  have hruns := h.appendEach_splice h.active_lt (Nat.le_refl _) tail pairs
  rw [← Disk.append_eq_splice, hrun] at hruns
  obtain ⟨_, _, disk', he, hg, h', hstored⟩ := hruns hroom
  cases he
  have hfit' := hroom.of_le (disk'.le_splice _ _ tail)
  obtain ⟨written, hwritten⟩ := hg.bytes _ h.active_lt
  have hiff := h'.accepted_splice_iff hfit' hg (disk.bytes c.active.handle).length tail
  refine ⟨?_, hiff, written, ?_, ?_⟩
  · rintro rfl
    exact ⟨fun p hp => h'.retrieve_splice_nil (hstored p hp) _ _, fun maxFileSize => (hiff maxFileSize).2 (.inl rfl)⟩
  · rw [Disk.bytes_splice, if_pos rfl, ← hwritten, List.take_left, List.drop_left]
  · intro pair offset next last ha
    have hread := h'.retrieve_splice_iff hfit' (Nat.lt_of_lt_of_le h.active_lt hg.fresh)
      (hg.bytes _ h.active_lt).length_le ha
    rwa [h'.handle_ne_iff hg, ← hwritten, List.drop_left] at hread

end Corpus

namespace Archive

/-- After every history the storage agrees with the disk. -/
theorem Settled.intact {dir : Path} {a : Archive} {c : Corpus} (h : Settled dir a c) (hdir : dir.place ≠ []) :
    c.Intact a.disk := by
  obtain ⟨-, rfl, hdirs, hclean, hkept, -, -⟩ := h
  exact ⟨hdir, hdirs, hclean, hkept.filed⟩

theorem intact_after {disk disk₁ : Disk} {dir : Path} {limit : Nat} (hdir : dir.place ≠ [])
    (hmake : disk.makeDirectories dir.place = .ok disk₁) (hfresh : Corpus.Unused disk dir) (events : List Event)
    (hfit : ∀ before, before <+: events → (after disk dir limit before).disk.Fits) :
    ∃ c, (after disk dir limit events).corpus = some c ∧ c.Intact (after disk dir limit events).disk := by
  obtain ⟨c, h⟩ := settled_after hfresh hdir hmake events hfit
  exact ⟨c, h.opened, h.intact hdir⟩

/-! ### A torn record -/

def single : List Event := [.append ⟨1, [5], [], []⟩]

/-- The sentence pair whose first write breaks off after one byte. -/
def again : SentencePair := ⟨1, [6, 7], [], []⟩

/-- A storage that holds one record, and a byte of the next one that it does not know of. -/
def broken (c : Corpus) : Disk :=
  (after (.empty [""]) storage 1000 single).disk.append c.active.handle ((Record.encode again).take 1)

theorem append_torn_single : ∃ c c' disk', (after (.empty [""]) storage 1000 single).corpus = some c ∧
    c.append (broken c) again = (.ok 40, c', disk') ∧ c'.retrieve disk' 40 ≠ .ok again ∧
    ∀ maxFileSize, c'.Accepted disk' maxFileSize := by
  have hmake : Disk.makeDirectories (.empty [""]) storage.place =
      .ok (storage.place.upwards.foldl Disk.addDirectory (.empty [""])) :=
    Disk.makeDirectories_eq_ok_iff.2 ⟨by decide +kernel, by decide +kernel, rfl⟩
  have hfit : ∀ before ∈ single.inits, (after (.empty [""]) storage 1000 before).disk.Fits := by decide +kernel
  have hfacts : ∀ c ∈ (after (.empty [""]) storage 1000 single).corpus, (broken c).Fits ∧
      (c.append (broken c) again).1 = .ok 40 ∧ (c.append (broken c) again).2.2.Fits ∧
      (c.append (broken c) again).2.1.fileCount = c.fileCount ∧ c.isFull (Record.encode again).length = false := by
    decide +kernel
  have hprefix : ¬Record.encode again <+: (Record.encode again).take 1 ++ Record.encode again := by decide +kernel
  obtain ⟨c, hc, h⟩ := intact_after (by decide) hmake unused_storage single fun before hb =>
    hfit before ((List.mem_inits _ _).2 hb)
  obtain ⟨hbroken, hanswer, hfit', hcount, hfull⟩ := hfacts c hc
  obtain ⟨hruns, -⟩ := Corpus.append_torn h ((Record.encode again).take 1) hbroken
  obtain ⟨-, -, written, hwritten, hnext⟩ := hruns [] [] c (broken c) rfl hbroken
  have hnothing : written = [] := by
    rw [broken, Disk.append, Disk.bytes_setBytes, if_pos rfl] at hwritten
    exact List.self_eq_append_right.1 hwritten
  subst hnothing
  cases ha : c.append (broken c) again with
  | mk answer rest =>
    obtain ⟨c', disk'⟩ := rest
    rw [ha] at hanswer hfit' hcount
    cases hanswer
    have heach : c.appendEach (broken c) [again] = ([(again, 40)], c', disk') := by
      simp only [Corpus.appendEach, ha]
      rfl
    obtain ⟨-, haccepted, -⟩ := hruns [again] _ c' disk' heach hfit'
    refine ⟨c, c', disk', hc, ha, fun hread => ?_, fun maxFileSize => (haccepted maxFileSize).2 (.inr hcount)⟩
    rcases (hnext again 40 c' disk' ha).1 hread with hf | hother | hsame
    · rw [hfull] at hf
      cases hf
    · exact hother rfl
    · rw [List.append_nil] at hsame
      exact hprefix hsame

/-- The append answers an offset, and the record that is found there claims to be longer than the file. -/
theorem misread_single : ∃ c c' disk', (after (.empty [""]) storage 1000 single).corpus = some c ∧
    c.append (broken c) again = (.ok 40, c', disk') ∧ c'.retrieve disk' 40 = .error (.recordLength 40 0x2424 36) := by
  have hfacts : ∀ c ∈ (after (.empty [""]) storage 1000 single).corpus, (c.append (broken c) again).1 = .ok 40 ∧
      (c.append (broken c) again).2.1.retrieve (c.append (broken c) again).2.2 40 =
      .error (.recordLength 40 0x2424 36) := by
    decide +kernel
  obtain ⟨c, hc⟩ : ∃ c, (after (.empty [""]) storage 1000 single).corpus = some c :=
    Option.isSome_iff_exists.1 (by decide +kernel)
  obtain ⟨hanswer, hread⟩ := hfacts c hc
  exact ⟨c, _, _, hc, Prod.ext hanswer rfl, hread⟩

end Archive

end PhraseIndex
