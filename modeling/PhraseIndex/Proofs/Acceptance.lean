import Mathlib.Data.Nat.PSub
import PhraseIndex.Proofs.Adoption

/-!
# What is retrieved

A record is read where a header, as many bytes as it says and their checksum agree (`Record.read_eq_ok_iff_begins`), and
from no more bytes than belong to the file as it is known (`Record.read_congr`). The files of an open corpus follow one
another, so the first of them that ends behind an offset is the only one that may hold it (`Corpus.Splits.find`). Hence
a sentence pair is retrieved from exactly those offsets at which a record stands, whatever has become of the files
(`Corpus.retrieve_exact`).
-/

namespace PhraseIndex

/-! ## Reading a record -/

namespace Record

variable {bs bs' : Bytes} {offset : Offset} {pair : SentencePair} {left n k : Nat}

/-- What is not read as a record is a damaged storage or a payload that ends too early. -/
theorem kind_of_read {e : Error} (h : read offset left bs = .error e) :
    e.kind = .storage ∨ e.kind = .serialization := by
  have htake : ∀ {n bs e}, take n bs = .error e → e.kind = .storage := by
    intro n bs e he
    unfold take at he
    split at he
    · cases he
    · cases he
      rfl
  unfold read at h
  rcases bind_eq_error_iff.1 h with hheader | ⟨⟨header, body⟩, -, h⟩
  · exact .inl (htake hheader)
  rcases bind_eq_error_iff.1 h with hlength | ⟨u, -, h⟩
  · exact .inl (kind_of_require hlength)
  rcases bind_eq_error_iff.1 h with hpayload | ⟨⟨payload, rest⟩, -, h⟩
  · exact .inl (htake hpayload)
  rcases bind_eq_error_iff.1 h with hsum | ⟨u, -, h⟩
  · exact .inl (kind_of_require hsum)
  split at h
  · cases h
  · cases h
    exact .inr rfl

/-! ### What a read sees -/

theorem take_take (h : k ≤ n) (bs : Bytes) : take k (bs.take n) = (fun r => (r.1, r.2.take (n - k))) <$> take k bs := by
  unfold take
  rw [List.take_take, Nat.min_eq_left h, List.drop_take]
  split <;> rfl

/-- A read sees the header, and behind it no more than belongs to the file. -/
theorem read_take (hheader : headerSize ≤ n) (hleft : left ≤ n) :
    read offset left (bs.take n) = read offset left bs := by
  unfold read
  rw [take_take hheader]
  cases take headerSize bs with
  | error e => rfl
  | ok r =>
    simp only [Functor.map, Except.map, bind, Except.bind]
    cases hroom : require (Bytes.ofLE (r.1.take 4) ≤ left - headerSize)
        (.recordLength offset (UInt32.ofNat (Bytes.ofLE (r.1.take 4))) (left - headerSize)) with
    | error e => rfl
    | ok u =>
      have hlength := of_decide_eq_true (require_eq_ok_iff.1 hroom)
      simp only
      rw [take_take (by omega)]
      cases take (Bytes.ofLE (r.1.take 4)) r.2 <;> rfl

theorem read_congr (h : bs.take (max headerSize left) = bs'.take (max headerSize left)) :
    read offset left bs = read offset left bs' := by
  rw [← read_take (Nat.le_max_left headerSize left) (Nat.le_max_right headerSize left), h,
    read_take (Nat.le_max_left headerSize left) (Nat.le_max_right headerSize left)]

end Record

namespace Corpus

variable {disk disk' : Disk} {c c' : Corpus} {files : List CorpusFile} {f : CorpusFile} {pair : SentencePair}
  {offset : Offset} {base start index : Nat}

/-! ## The layout of an open corpus -/

theorem contiguous_prepare {size : Nat} (h : Contiguous 0 c.files) (hp : c.prepare disk size = .ok (c', disk')) :
    Contiguous 0 c'.files := by
  unfold prepare at hp
  split at hp
  · obtain ⟨handle, -, rfl⟩ := roll_eq_ok hp
    refine contiguous_append.2 ⟨h, ?_, trivial⟩
    rw [Nat.zero_add, ← h.endOffset_active]
    rfl
  · cases hp
    exact h

/-- Whether a record is appended or not, the files follow one another. -/
theorem contiguous_of_append {r : Except Error Offset} (h : Contiguous 0 c.files)
    (ha : c.append disk pair = (r, c', disk')) : Contiguous 0 c'.files := by
  obtain ⟨e, -, rfl, -⟩ | ⟨-, c₁, disk₁, start, hp, hw, -⟩ := append_cases ha
  · exact h
  · cases hw
    obtain ⟨hfull, hbase, -⟩ := contiguous_append.1 (contiguous_prepare h hp)
    exact contiguous_append.2 ⟨hfull, hbase, trivial⟩

/-! ## Finding the file -/

/-- The files before the index end at the offset at the latest, and those from it on behind the offset. -/
structure Splits (files : List CorpusFile) (start index : Nat) : Prop where
  before : ∀ f ∈ files.take index, f.endOffset ≤ start
  behind : ∀ f ∈ files.drop index, start < f.endOffset

/-- Files that follow one another can be split at every offset. -/
theorem exists_splits (h : Contiguous base files) (start : Nat) : ∃ index, Splits files start index := by
  induction files generalizing base with
  | nil => exact ⟨0, nofun, nofun⟩
  | cons f files ih =>
    obtain ⟨hbase, hrest⟩ := h
    by_cases hend : f.endOffset ≤ start
    · obtain ⟨index, hs⟩ := ih hrest
      exact ⟨index + 1, List.forall_mem_cons.2 ⟨hend, hs.before⟩, hs.behind⟩
    · refine ⟨0, nofun, List.forall_mem_cons.2 ⟨Nat.lt_of_not_le hend, fun g hg => ?_⟩⟩
      have hle := hrest.base_le hg
      rw [CorpusFile.endOffset] at hend ⊢
      omega

/-- The first file that ends behind an offset is the only one that may hold it. -/
theorem Splits.find (hs : Splits files start index) (h : Contiguous base files) :
    files.find? (·.holds start) = files[index]?.filter (·.holds start) := by
  have hbefore : ∀ g ∈ files.take index, ¬g.holds start = true := by
    intro g hg hholds
    have hend := hs.before g hg
    rw [CorpusFile.endOffset] at hend
    have := CorpusFile.holds_iff.1 hholds
    omega
  have hsplit := List.take_append_drop index files
  rw [← List.head?_drop]
  cases hdrop : files.drop index with
  | nil =>
    rw [hdrop, List.append_nil] at hsplit
    rw [hsplit] at hbefore
    exact List.find?_eq_none.2 hbefore
  | cons f rest =>
    rw [hdrop] at hsplit
    have hend := hs.behind f (hdrop ▸ List.mem_cons_self)
    rw [CorpusFile.endOffset] at hend
    rw [← hsplit] at h ⊢
    obtain ⟨hbase, hrest⟩ := (contiguous_append.1 h).2
    by_cases hholds : f.holds start = true
    · rw [h.find?_holds (List.mem_append_right _ List.mem_cons_self) hholds, List.head?_cons, Option.filter_some,
        if_pos hholds]
    · rw [List.head?_cons, Option.filter_some, if_neg hholds, List.find?_eq_none]
      intro g hg hother
      rw [CorpusFile.holds_iff] at hholds hother
      rcases List.mem_append.1 hg with hg | hg
      · exact hbefore g hg (CorpusFile.holds_iff.2 hother)
      · rcases List.mem_cons.1 hg with rfl | hg
        · exact hholds hother
        · have hle := hrest.base_le hg
          omega

/-- Retrieves a sentence pair from the file at an index, without subtracting from anything less. -/
def retrieveFrom? (c : Corpus) (disk : Disk) (offset : Offset) (index : Nat) : Option (Except Error SentencePair) :=
  if offset < 0 then some (.error (.negativeOffset offset))
  else
    match c.files[index]?.filter (·.holds offset.toInt.toNat) with
    | none => some (.error (.offsetOutOfRange offset))
    | some file => do
      let position ← Nat.psub offset.toInt.toNat file.base
      let available ← Nat.psub file.size position
      some (Record.read offset available ((disk.bytes file.handle).drop position))

/-- With the index that splits the files nothing is subtracted from less. -/
theorem retrieveFrom?_eq (h : Contiguous base c.files) (hs : Splits c.files offset.toInt.toNat index) :
    c.retrieveFrom? disk offset index = some (c.retrieve disk offset) := by
  rw [retrieveFrom?, retrieve, fileOf?, hs.find h]
  split
  · rfl
  · cases hfile : c.files[index]?.filter (·.holds offset.toInt.toNat) with
    | none => rfl
    | some file =>
      obtain ⟨hbase, hend⟩ := CorpusFile.holds_iff.1 (Option.filter_eq_some_iff.1 hfile).2
      dsimp only
      rw [Nat.psub_eq_sub hbase]
      dsimp only [bind, Option.bind]
      rw [Nat.psub_eq_sub (by omega)]

/-! ## What is accepted -/

/-- A record of the sentence pair stands at the offset, in a file that reaches beyond it. -/
def Accepts (c : Corpus) (disk : Disk) (offset : Offset) (pair : SentencePair) : Prop :=
  0 ≤ offset ∧ ∃ f ∈ c.files, ∃ position, offset.toInt = (f.base + position : Nat) ∧ position < f.size ∧
    Record.Begins (f.size - position) ((disk.bytes f.handle).drop position) pair

/-- An offset is negative, or in no file, or it is a position in a file from which a record is read. -/
theorem retrieve_cases (c : Corpus) (disk : Disk) (offset : Offset) :
    c.retrieve disk offset = .error (.negativeOffset offset) ∨
    c.retrieve disk offset = .error (.offsetOutOfRange offset) ∨
    0 ≤ offset ∧ ∃ f ∈ c.files, ∃ position, offset.toInt = (f.base + position : Nat) ∧ position < f.size ∧
      c.retrieve disk offset = Record.read offset (f.size - position) ((disk.bytes f.handle).drop position) := by
  unfold retrieve
  by_cases hneg : offset < 0
  · exact .inl (if_pos hneg)
  · have hsign := Int64.not_lt.1 hneg
    have hint : 0 ≤ offset.toInt := Int64.le_iff_toInt_le.1 hsign
    rw [if_neg hneg]
    cases hfile : c.fileOf? offset.toInt.toNat with
    | none => exact .inr (.inl rfl)
    | some f =>
      have hholds := List.find?_some hfile
      obtain ⟨hbase, hend⟩ := CorpusFile.holds_iff.1 hholds
      refine .inr (.inr ⟨hsign, f, List.mem_of_find?_eq_some hfile, offset.toInt.toNat - f.base, ?_, by omega, rfl⟩)
      omega

theorem retrieve_eq_ok_iff (h : Contiguous base c.files) :
    c.retrieve disk offset = .ok pair ↔ c.Accepts disk offset pair := by
  constructor
  · intro hr
    obtain hneg | hout | ⟨hsign, f, hf, position, hoffset, hlt, hread⟩ := c.retrieve_cases disk offset
    · rw [hneg] at hr
      cases hr
    · rw [hout] at hr
      cases hr
    · rw [hread] at hr
      exact ⟨hsign, f, hf, position, hoffset, hlt, Record.read_eq_ok_iff_begins.1 hr⟩
  · rintro ⟨-, f, hf, position, hoffset, hlt, hbegins⟩
    rw [retrieve_at h hf hoffset hlt]
    exact Record.read_eq_ok_iff_begins.2 hbegins

theorem kind_of_retrieve {e : Error} (h : c.retrieve disk offset = .error e) :
    e.kind = .storage ∨ e.kind = .serialization := by
  obtain hneg | hout | ⟨-, f, -, position, -, -, hread⟩ := c.retrieve_cases disk offset
  · rw [hneg] at h
    cases h
    exact .inl rfl
  · rw [hout] at h
    cases h
    exact .inl rfl
  · exact Record.kind_of_read (hread.symm.trans h)

/-- The bytes of a header, and all that the file is known to have behind an offset. -/
def window (disk : Disk) (f : CorpusFile) (start : Nat) : Bytes :=
  ((disk.bytes f.handle).drop (start - f.base)).take (max Record.headerSize (f.endOffset - start))

/-- What is retrieved depends on these bytes of one file only. -/
theorem retrieve_congr (h : Contiguous base c.files) (hf : f ∈ c.files) (hholds : f.holds offset.toInt.toNat = true)
    (hbytes : window disk f offset.toInt.toNat = window disk' f offset.toInt.toNat) :
    c.retrieve disk offset = c.retrieve disk' offset := by
  unfold retrieve
  split
  · rfl
  · obtain ⟨hbase, hend⟩ := CorpusFile.holds_iff.1 hholds
    have hleft : f.endOffset - offset.toInt.toNat = f.size - (offset.toInt.toNat - f.base) := by
      rw [CorpusFile.endOffset]
      omega
    rw [window, window, hleft] at hbytes
    rw [fileOf?, h.find?_holds hf hholds]
    exact Record.read_congr hbytes

/-- Sentence pairs are retrieved from well-formed records only, and from all of them. In every open corpus each file
starts where the one before it ends. Then, whatever the files hold by now, a sentence pair is retrieved from an offset
if and only if a record of it stands there; otherwise there is an error. The file can be found by bisection and nothing
is subtracted from less, and only bytes of that file matter. -/
theorem retrieve_exact :
    (∀ disk dir manifest maxFileSize c disk', openAt disk dir manifest maxFileSize = (.ok c, disk') →
      Contiguous 0 c.files) ∧
    (∀ (c : Corpus) disk pair r c' disk', Contiguous 0 c.files → c.append disk pair = (r, c', disk') →
      Contiguous 0 c'.files) ∧
    ∀ c : Corpus, Contiguous 0 c.files → ∀ disk offset,
      (∀ pair, c.retrieve disk offset = .ok pair ↔ c.Accepts disk offset pair) ∧
      (∀ e, c.retrieve disk offset = .error e → e.kind = .storage ∨ e.kind = .serialization) ∧
      (∃ index, Splits c.files offset.toInt.toNat index) ∧
      (∀ index, Splits c.files offset.toInt.toNat index →
        c.retrieveFrom? disk offset index = some (c.retrieve disk offset)) ∧
      ∀ f ∈ c.files, f.holds offset.toInt.toNat = true → ∀ disk',
        window disk f offset.toInt.toNat = window disk' f offset.toInt.toNat →
          c.retrieve disk offset = c.retrieve disk' offset := by
  refine ⟨fun disk dir manifest maxFileSize c disk' h => (measured_openAt h).1,
    fun c disk pair r c' disk' h ha => contiguous_of_append h ha, fun c h disk offset => ?_⟩
  exact ⟨fun pair => retrieve_eq_ok_iff h, fun e => kind_of_retrieve, exists_splits h _,
    fun index hs => retrieveFrom?_eq h hs, fun f hf hholds disk' => retrieve_congr h hf hholds⟩

/-- An empty file, and behind it one with a record. -/
def emptyFirst : Disk :=
  holding [("corpus.000000.dat", []), ("corpus.000001.dat", Record.encode ⟨7, [1], [2], []⟩)]

/-- The empty file is never chosen, also when it was written to since. -/
theorem retrieve_exact_emptyFirst : ∃ c disk, openAt emptyFirst mixed .empty 10 = (.ok c, disk) ∧
    Contiguous 0 (c.append disk ⟨8, [], [], []⟩).2.1.files ∧
    c.retrieve (emptyFirst.setBytes 0 [9, 9]) 0 = .ok ⟨7, [1], [2], []⟩ ∧
    c.retrieveFrom? (emptyFirst.setBytes 0 [9, 9]) 0 1 = some (.ok ⟨7, [1], [2], []⟩) ∧
    c.retrieve (emptyFirst.setBytes 0 [9, 9]) 0 = c.retrieve (emptyFirst.setBytes 0 []) 0 := by
  obtain ⟨hopened, happended, hretrieved⟩ := retrieve_exact
  have hfiles : (openAt emptyFirst mixed .empty 10).1.toOption.map (·.files) = some [⟨0, 0, 0, 0⟩, ⟨1, 0, 44, 1⟩] := by
    decide +kernel
  obtain ⟨c, hc, hfiles⟩ := Option.map_eq_some_iff.1 hfiles
  have ho : openAt emptyFirst mixed .empty 10 = (.ok c, (openAt emptyFirst mixed .empty 10).2) :=
    Prod.ext (toOption_eq_some_iff.1 hc) rfl
  have hcontiguous := hopened _ _ _ _ _ _ ho
  have hmem : ⟨1, 0, 44, 1⟩ ∈ c.files := by rw [hfiles]; decide
  obtain ⟨haccepted, -, -, hbisected, hlocal⟩ := hretrieved c hcontiguous (emptyFirst.setBytes 0 [9, 9]) 0
  have hread : Record.read 0 44 (Record.encode ⟨7, [1], [2], []⟩ ++ []) = .ok ⟨7, [1], [2], []⟩ :=
    Record.read_append (by decide) (by decide +kernel) 0 []
  have hbytes : (emptyFirst.setBytes 0 [9, 9]).bytes 1 = Record.encode ⟨7, [1], [2], []⟩ ++ [] := by decide +kernel
  rw [← hbytes] at hread
  have hpair : c.retrieve (emptyFirst.setBytes 0 [9, 9]) 0 = .ok ⟨7, [1], [2], []⟩ :=
    (haccepted _).2 ⟨by decide, _, hmem, 0, by decide, by decide, Record.read_eq_ok_iff_begins.1 hread⟩
  have hnext := happended c (openAt emptyFirst mixed .empty 10).2 ⟨8, [], [], []⟩ _ _ _ hcontiguous rfl
  refine ⟨c, _, ho, hnext, hpair, ?_, hlocal _ hmem (by decide) _ (by decide +kernel)⟩
  rw [hbisected 1 (by rw [hfiles]; exact ⟨by decide, by decide⟩), hpair]

end Corpus

end PhraseIndex
