import PhraseIndex.Proofs.Acceptance
import PhraseIndex.Proofs.Checksum

/-!
# Damage to a record

When bytes of a record are changed on the disk, and only those of its checksum or at most four in a row of its payload
(`Record.Burst`), what stands there is not read as a record (`Record.read_of_burst`). `Corpus.Recorded` says where all
records of an open corpus stand, and appending and opening again keep it (`Corpus.InUse.recorded`); so the damage is
noticed whichever record is hit (`Corpus.damage_detected`).
-/

namespace PhraseIndex

/-! ## A damaged record -/

namespace Record

variable {pair : SentencePair} {record changed payload : Bytes} {left : Nat}

/-- Bytes of the record are changed, but only those of its checksum, or at most four in a row of its payload. -/
structure Burst (record changed : Bytes) : Prop where
  length_eq : changed.length = record.length
  differs : changed ≠ record
  within : ∃ start n, (start = 4 ∧ n = 4 ∨ headerSize ≤ start ∧ n ≤ 4) ∧
    ∀ i, i < start ∨ start + n ≤ i → changed[i]? = record[i]?

/-- Either the checksum is another one, or the payload is one of the same length with another checksum. -/
theorem Burst.cases {sum : UInt32} (h : Burst (Bytes.le 4 payload.length ++ Binary.u32 sum ++ payload) changed) :
    (∃ sum', changed = Bytes.le 4 payload.length ++ Binary.u32 sum' ++ payload ∧ sum' ≠ sum) ∨
    ∃ payload', changed = Bytes.le 4 payload.length ++ Binary.u32 sum ++ payload' ∧ payload'.length = payload.length ∧
      Checksum.crc32 payload' ≠ Checksum.crc32 payload := by
  obtain ⟨hlen, hne, start, n, hwindow, hsame⟩ := h
  have hfour : (Bytes.le 4 payload.length).length = 4 := Bytes.length_le 4 _
  have hheader : (Bytes.le 4 payload.length ++ Binary.u32 sum).length = 8 := by simp [Binary.u32]
  rw [List.length_append, hheader] at hlen
  obtain ⟨hbefore, hafter⟩ := Checksum.split_of_window hsame
  rcases hwindow with ⟨rfl, rfl⟩ | ⟨hstart, hn⟩
  · left
    have hsum : ((changed.drop 4).take 4).length = 4 := by
      rw [List.length_take, List.length_drop]
      omega
    have hchanged := Checksum.take_drop_append 4 4 changed
    rw [hbefore, hafter, List.drop_left' hheader, List.append_assoc (Bytes.le 4 _), List.take_left' hfour,
      ← u32_ofNat_ofLE hsum] at hchanged
    exact ⟨_, hchanged.symm, fun he => hne (by rw [← hchanged, he])⟩
  · right
    change 8 ≤ start at hstart
    have hfront : changed.take 8 = Bytes.le 4 payload.length ++ Binary.u32 sum := by
      have htake := congrArg (List.take 8) hbefore
      rwa [List.take_take, List.take_take, Nat.min_eq_left hstart, List.take_left' hheader] at htake
    have hchanged := List.take_append_drop 8 changed
    rw [hfront] at hchanged
    have hlen' : (changed.drop 8).length = payload.length := by
      rw [List.length_drop]
      omega
    have hne' : changed.drop 8 ≠ payload := fun he => hne (by rw [← hchanged, he])
    have hsame' : ∀ i, i < start - 8 ∨ start - 8 + n ≤ i → (changed.drop 8)[i]? = payload[i]? := by
      intro i hi
      rw [List.getElem?_drop, hsame (8 + i) (by omega), List.getElem?_append_right (by omega), hheader,
        Nat.add_sub_cancel_left]
    exact ⟨_, hchanged.symm, hlen', Checksum.crc32_ne_of_window hlen' hne' hn hsame'⟩

/-- A damaged record does not pass the check. -/
theorem read_of_burst (hsize : Corpus.Recordable pair) (hleft : (encode pair).length ≤ left)
    (h : Burst (encode pair) changed) (offset : Offset) (rest : Bytes) :
    read offset left (changed ++ rest) = .error (.recordChecksum offset) := by
  have hroom : (Binary.sentencePair pair).length ≤ left - headerSize := by
    rw [length_encode] at hleft
    exact Nat.le_sub_of_add_le' hleft
  obtain ⟨sum', rfl, hsum⟩ | ⟨payload', rfl, hlen, hsum⟩ := Burst.cases h
  · rw [read_header hsize hroom, if_neg (Ne.symm hsum)]
  · rw [← hlen, read_header (hlen ▸ hsize) (hlen ▸ hroom), if_neg hsum]

end Record

/-! ## Where the records stand -/

namespace Corpus

variable {disk disk' : Disk} {c c' : Corpus} {files files' : List CorpusFile} {p : Placement} {placed : List Placement}
  {pair : SentencePair}

/-- The record of the sentence pair stands in a file, within the size that is known of it, where the offset says. -/
def Stands (disk : Disk) (files : List CorpusFile) (p : Placement) : Prop :=
  Recordable p.1 ∧ ∃ f ∈ files, ∃ position rest, p.2 = Int64.ofNat (f.base + position) ∧
    position + (Record.encode p.1).length ≤ f.size ∧
    (disk.bytes f.handle).drop position = Record.encode p.1 ++ rest

/-- A record stays where it is while files become longer, or are taken up again in their full length. -/
theorem Stands.of_longer (hs : Stands disk files p)
    (hbytes : ∀ f ∈ files, disk.bytes f.handle <+: disk'.bytes f.handle)
    (hfiles : ∀ f ∈ files, ∃ g ∈ files', g.base = f.base ∧ g.handle = f.handle ∧
      (f.size ≤ g.size ∨ g.size = (disk'.bytes g.handle).length)) : Stands disk' files' p := by
  obtain ⟨hr, f, hf, position, rest, hoffset, hsize, hd⟩ := hs
  obtain ⟨g, hg, hbase, hhandle, hlong⟩ := hfiles f hf
  obtain ⟨rest', hd'⟩ := exists_drop_of_prefix (hbytes f hf) hd
  refine ⟨hr, g, hg, position, rest', by rw [hbase, hoffset], ?_, by rw [hhandle, hd']⟩
  rcases hlong with hle | hfull
  · omega
  · rw [hfull, hhandle]
    exact add_length_le hd'

/-- An open corpus on its disk, and the sentence pairs with the offsets that were answered for them: after an opening of
whatever is there, after appending, and after another opening that finds the same files. -/
inductive InUse : Corpus → Disk → List Placement → Prop
  | opened {disk dir manifest maxFileSize c disk'} (ho : openAt disk dir manifest maxFileSize = (.ok c, disk')) :
      InUse c disk' []
  | appended {c disk placed pair r c' disk'} (hc : InUse c disk placed) (ha : c.append disk pair = (r, c', disk')) :
      InUse c' disk' (placed ++ (r.toOption.map (pair, ·)).toList)
  | reopened {c disk placed dir manifest maxFileSize c' disk'} (hc : InUse c disk placed)
      (ho : openAt disk dir manifest maxFileSize = (.ok c', disk'))
      (hfiles : ∀ f ∈ c.files, ∃ g ∈ c'.files, g.base = f.base ∧ g.handle = f.handle) : InUse c' disk' placed

/-- All records stand in files that follow one another, the last of which ends where the next record begins. -/
structure Recorded (c : Corpus) (disk : Disk) (placed : List Placement) : Prop where
  contiguous : Contiguous 0 c.files
  held : c.Held disk
  end_eq : c.active.size = (disk.bytes c.active.handle).length
  stands : ∀ p ∈ placed, Stands disk c.files p

theorem size_prepare {n : Nat} (h : c.active.size = (disk.bytes c.active.handle).length)
    (hp : c.prepare disk n = .ok (c', disk')) : c'.active.size = (disk'.bytes c'.active.handle).length := by
  unfold prepare at hp
  split at hp
  · obtain ⟨handle, -, rfl⟩ := roll_eq_ok hp
    rfl
  · cases hp
    exact h

/-- A record that is appended stands where its offset says, and those before it stay. -/
theorem Recorded.append {r : Except Error Offset} (h : c.Recorded disk placed)
    (ha : c.append disk pair = (r, c', disk')) :
    c'.Recorded disk' (placed ++ (r.toOption.map (pair, ·)).toList) := by
  have hgrows := grows_append ha
  have hold : ∀ p ∈ placed, Stands disk' c'.files p := by
    intro p hp
    refine (h.stands p hp).of_longer (fun f hf => hgrows.bytes f.handle (h.held f hf)) fun f hf => ?_
    obtain ⟨g, hg, -, hbase, hhandle, hsize⟩ := hgrows.exists_file hf
    exact ⟨g, hg, hbase, hhandle, .inl hsize⟩
  have hcontiguous := contiguous_of_append h.contiguous ha
  have hheld := hgrows.held h.held
  obtain ⟨e, rfl, rfl, rfl⟩ | ⟨hr, c₁, disk₁, start, hp, hw, rfl⟩ := append_cases ha
  · exact ⟨hcontiguous, hheld, h.end_eq, by rwa [Except.toOption, Option.map_none, Option.toList_none, List.append_nil]⟩
  · have hend := size_prepare h.end_eq hp
    cases hw
    have hwritten : (disk₁.append c₁.active.handle (Record.encode pair)).bytes c₁.active.handle =
        disk₁.bytes c₁.active.handle ++ Record.encode pair := by
      rw [Disk.append, Disk.bytes_setBytes, if_pos rfl]
    refine ⟨hcontiguous, hheld, ?_, fun p hmem => ?_⟩
    · rw [hwritten, List.length_append, ← hend]
    · rcases List.mem_append.1 hmem with hmem | hmem
      · exact hold p hmem
      · rw [List.mem_singleton.1 hmem]
        refine ⟨hr, _, List.mem_append_right _ List.mem_cons_self, c₁.active.size, [], rfl, Nat.le_refl _, ?_⟩
        rw [hwritten, hend, List.drop_left, List.append_nil]

theorem InUse.recorded (h : InUse c disk placed) : c.Recorded disk placed := by
  induction h with
  | opened ho =>
    obtain ⟨hcontiguous, hheld, hsizes, -⟩ := measured_openAt ho
    exact ⟨hcontiguous, hheld, hsizes _ (List.mem_append_right _ List.mem_cons_self), nofun⟩
  | appended _ ha ih => exact ih.append ha
  | reopened _ ho hfiles ih =>
    obtain ⟨hcontiguous, hheld, hsizes, hbytes⟩ := measured_openAt ho
    refine ⟨hcontiguous, hheld, hsizes _ (List.mem_append_right _ List.mem_cons_self), fun p hp => ?_⟩
    refine (ih.stands p hp).of_longer (fun f hf => ?_) fun f hf => ?_
    · exact ⟨[], by rw [List.append_nil, hbytes f.handle (ih.held f hf)]⟩
    · obtain ⟨g, hg, hbase, hhandle⟩ := hfiles f hf
      exact ⟨g, hg, hbase, hhandle, .inr (hsizes g hg)⟩

/-- An offset that does not fit into its type is negative. -/
theorem ofNat_neg {n : Nat} (hlow : 2 ^ 63 ≤ n) (hhigh : n < 2 ^ 64) : Int64.ofNat n < 0 := by
  have hsize : Int64.size = 2 ^ 64 := rfl
  have hzero : (0 : Int64).toInt = 0 := rfl
  rw [Int64.lt_iff_toInt_lt, Int64.toInt_ofNat', Int.bmod_def, hsize, hzero]
  omega

/-- Damage is noticed. Every record that was appended stands where its offset says, and is retrieved as long as offsets
fit into their type. But from a disk where bytes of the record are changed, and only those of its checksum or at most
four in a row of its payload, nothing is retrieved at the offset: the storage is reported to be damaged. -/
theorem damage_detected (h : InUse c disk placed) (hend : c.active.endOffset < 2 ^ 64) :
    ∀ p ∈ placed, (c.active.endOffset ≤ 2 ^ 63 → c.retrieve disk p.2 = .ok p.1) ∧
      ∃ f ∈ c.files, ∃ position rest, p.2 = Int64.ofNat (f.base + position) ∧
        position + (Record.encode p.1).length ≤ f.size ∧
        (disk.bytes f.handle).drop position = Record.encode p.1 ++ rest ∧
        ∀ (torn : Disk) changed rest', (torn.bytes f.handle).drop position = changed ++ rest' →
          Record.Burst (Record.encode p.1) changed → ∃ e, c.retrieve torn p.2 = .error e ∧ e.kind = .storage := by
  intro p hp
  have hrecorded := h.recorded
  obtain ⟨hsize, f, hf, position, rest, hoffset, hroom, hd⟩ := hrecorded.stands p hp
  have hlast := hrecorded.contiguous.end_le hf
  have hpos := Record.length_encode_pos p.1
  rw [hrecorded.contiguous.endOffset_active] at hend ⊢
  have hread : f.base + position < 2 ^ 63 → ∀ disk : Disk,
      c.retrieve disk p.2 = Record.read p.2 (f.size - position) ((disk.bytes f.handle).drop position) := by
    intro hlt
    have hint : p.2.toInt = (f.base + position : Nat) := by rw [hoffset, Int64.toInt_ofNat_of_lt hlt]
    exact retrieve_at hrecorded.contiguous hf hint (by omega)
  refine ⟨fun hfit => ?_, f, hf, position, rest, hoffset, hroom, hd, fun torn changed rest' htorn hburst => ?_⟩
  · rw [hread (by omega), hd, Record.read_append hsize (by omega)]
  · by_cases hlt : f.base + position < 2 ^ 63
    · exact ⟨_, by rw [hread hlt, htorn, Record.read_of_burst hsize (by omega) hburst], rfl⟩
    · have hneg : p.2 < 0 := hoffset ▸ ofNat_neg (Nat.le_of_not_lt hlt) (by omega)
      exact ⟨_, if_pos hneg, rfl⟩

/-- A byte of a record in a new storage is changed, in the last word of its source sentence. -/
theorem damage_detected_lastWord : ∃ c disk, InUse c disk [(⟨7, [1, 2], [3], []⟩, 0)] ∧
    c.retrieve disk 0 = .ok ⟨7, [1, 2], [3], []⟩ ∧
    ∃ e, c.retrieve (disk.setBytes 0 ((Record.encode ⟨7, [1, 2], [3], []⟩).set 24 9)) 0 = .error e ∧
      e.kind = .storage := by
  let pair : SentencePair := ⟨7, [1, 2], [3], []⟩
  let opening := openAt (holding []) mixed .empty 1000
  have happend : opening.1.toOption.map
      (fun c => ((c.append opening.2 pair).1.toOption, (c.append opening.2 pair).2.1.files)) =
        some (some 0, [⟨0, 0, 48, 0⟩]) := by decide +kernel
  obtain ⟨c, hc, happend⟩ := Option.map_eq_some_iff.1 happend
  obtain ⟨hoffset, hfiles⟩ := Prod.mk.inj happend
  have ho : openAt (holding []) mixed .empty 1000 = (.ok c, opening.2) := Prod.ext (toOption_eq_some_iff.1 hc) rfl
  cases ha : c.append opening.2 pair with
  | mk r rest =>
    obtain ⟨c', disk⟩ := rest
    rw [ha] at hoffset hfiles
    replace hfiles : c'.files = [⟨0, 0, 48, 0⟩] := hfiles
    obtain rfl := toOption_eq_some_iff.1 hoffset
    have huse : InUse c' disk [(pair, 0)] := (InUse.opened ho).appended ha
    have hend : c'.active.endOffset = 48 := by
      rw [huse.recorded.contiguous.endOffset_active, hfiles]
      rfl
    obtain ⟨hread, f, hf, position, rest, -, hroom, -, hdamage⟩ :=
      damage_detected huse (by rw [hend]; decide) (pair, 0) List.mem_cons_self
    rw [hfiles] at hf
    obtain rfl := List.mem_singleton.1 hf
    obtain rfl : position = 0 := by
      have hlen : (Record.encode pair).length = 48 := Record.length_encode pair
      dsimp only at hroom
      omega
    have hburst : Record.Burst (Record.encode pair) ((Record.encode pair).set 24 9) := by
      refine ⟨List.length_set, by decide +kernel, 24, 1, .inr ⟨by decide, by decide⟩, fun i hi => ?_⟩
      exact List.getElem?_set_ne (by omega)
    refine ⟨c', disk, huse, hread (by rw [hend]; decide), hdamage _ _ [] ?_ hburst⟩
    rw [Disk.bytes_setBytes, if_pos rfl, List.drop_zero, List.append_nil]

end Corpus

end PhraseIndex
