import Mathlib.Algebra.BigOperators.Group.List.Basic
import Mathlib.Algebra.GroupWithZero.Nat
import Mathlib.Algebra.Order.BigOperators.Group.List
import Mathlib.Algebra.Order.Group.Nat
import Mathlib.Data.List.Perm.Subperm
import PhraseIndex.Corpus.FileName
import PhraseIndex.Disk

/-!
# Files and their limits

The names of corpus files read back as their numbers (`FileName.id?_ofId`), so different numbers have different files.
`Disk.Fits` is what a file system can hold; `Disk.Le` says that a disk has only gained files and bytes, and a disk that
fits fitted all along (`Disk.Fits.of_le`).
-/

namespace PhraseIndex

/-! ## Names of corpus files -/

namespace FileName

/-- The digits of a number, with noughts in front of them. -/
def padded (id : UInt32) : List Char :=
  List.replicate (6 - (toString id).length) '0' ++ Nat.toDigits 10 id.toNat

theorem toList_ofId (id : UInt32) : (ofId id).toList = lead.toList ++ padded id ++ trail.toList := by
  have hdigits : (toString id).toList = Nat.toDigits 10 id.toNat := Nat.toList_repr
  simp only [ofId, String.toList_append, String.toList_ofList, hdigits, padded, List.append_assoc]

theorem middle?_ofId (id : UInt32) : middle? (ofId id) = some (padded id) := by
  have hfront : lead.toList.isPrefixOf (ofId id).toList = true := by
    rw [List.isPrefixOf_iff_prefix, toList_ofId, List.append_assoc]
    exact List.prefix_append _ _
  have hdrop : (ofId id).toList.drop lead.toList.length = padded id ++ trail.toList := by
    rw [toList_ofId, List.append_assoc, List.drop_left]
  have hback : trail.toList.isSuffixOf (padded id ++ trail.toList) = true := by
    rw [List.isSuffixOf_iff_suffix]
    exact List.suffix_append _ _
  have htake : (padded id ++ trail.toList).take ((padded id ++ trail.toList).length - trail.toList.length) =
      padded id := by
    rw [List.length_append, Nat.add_sub_cancel, List.take_left]
  unfold middle?
  simp only [hfront, hdrop, hback, htake, ↓reduceIte]

theorem digits?_padded (id : UInt32) : Decimal.digits? (padded id) = some id.toNat := by
  have hall : (padded id).all Char.isDigit = true := by
    rw [List.all_eq_true]
    intro c hc
    rcases List.mem_append.1 hc with hc | hc
    · rw [(List.mem_replicate.1 hc).2]
      rfl
    · exact Nat.isDigit_of_mem_toDigits (by decide) (by decide) hc
  have hne : (padded id).isEmpty = false := by
    rw [Bool.eq_false_iff, ne_eq, List.isEmpty_iff, padded, List.append_eq_nil_iff]
    intro h
    exact Nat.toDigits_ne_nil h.2
  have hvalue : (padded id).foldl (fun n c => 10 * n + (c.toNat - '0'.toNat)) 0 = id.toNat := by
    rw [← Nat.ofDigitChars_eq_foldl, padded, Nat.ofDigitChars_append, Nat.ofDigitChars_replicate_zero, Nat.mul_zero,
      Nat.ofDigitChars_ten_toDigits]
  rw [Decimal.digits?, hne, hall, hvalue]
  rfl

/-- A file name is read back as its number. -/
theorem id?_ofId (id : UInt32) : id? (ofId id) = some id := by
  have hplus : ∀ rest, padded id ≠ '+' :: rest := by
    intro rest h
    have hdigit : Decimal.digits? ('+' :: rest) = some id.toNat := by rw [← h, digits?_padded]
    simp [Decimal.digits?] at hdigit
  have hunsigned : Decimal.unsigned? UInt32.size (padded id) = some id.toNat := by
    unfold Decimal.unsigned?
    split
    · next rest h => exact absurd h (hplus rest)
    · simp only [digits?_padded]
      rw [Option.filter_some, if_pos (decide_eq_true id.toNat_lt_size)]
  rw [id?, middle?_ofId]
  simp only [bind, Option.bind, hunsigned, pure, UInt32.ofNat_toNat]

theorem ofId_inj {i j : UInt32} (h : ofId i = ofId j) : i = j := by
  have hi := id?_ofId i
  rw [h, id?_ofId] at hi
  exact (Option.some.inj hi).symm

end FileName

namespace Disk

variable {d d' d'' : Disk} {id : FileId} {p q : Place}

/-! ## Names in a directory -/

theorem mem_names {dir : Place} {name : String} : name ∈ d.names dir ↔ (d.node? (dir ++ [name])).isSome := by
  simp only [names, List.mem_filterMap, Std.ExtTreeMap.mem_keys]
  constructor
  · rintro ⟨p, hp, h⟩
    split at h
    · next hc =>
      rw [Bool.and_eq_true, beq_iff_eq] at hc
      have hsplit : dir ++ [name] = p := by rw [← hc.1, List.dropLast_append_getLast? name h]
      rw [hsplit]
      exact Std.ExtTreeMap.isSome_getElem?_iff_mem.2 hp
    · cases h
  · intro h
    refine ⟨dir ++ [name], Std.ExtTreeMap.isSome_getElem?_iff_mem.1 h, ?_⟩
    simp

/-! ## What a file system can hold -/

/-- The files that have a name. -/
def fileIds (d : Disk) : List FileId :=
  d.nodes.toList.filterMap fun x =>
    match x.2 with
    | .file id => some id
    | .directory => none

/-- A file system holds fewer than `2 ^ 32` files, with fewer than `2 ^ 63` bytes in all of them. -/
structure Fits (d : Disk) : Prop where
  files : d.fileIds.length < 2 ^ 32
  bytes : (d.fileIds.map fun id => (d.bytes id).length).sum < 2 ^ 63

instance : Decidable d.Fits :=
  decidable_of_iff (d.fileIds.length < 2 ^ 32 ∧ (d.fileIds.map fun id => (d.bytes id).length).sum < 2 ^ 63)
    ⟨fun h => ⟨h.1, h.2⟩, fun h => ⟨h.1, h.2⟩⟩

theorem mem_fileIds : id ∈ d.fileIds ↔ ∃ p, d.node? p = some (.file id) := by
  simp only [fileIds, List.mem_filterMap, Prod.exists]
  constructor
  · rintro ⟨p, node, hmem, h⟩
    rw [Std.ExtTreeMap.mem_toList_iff_getElem?_eq_some] at hmem
    cases node with
    | directory => cases h
    | file j =>
      cases h
      exact ⟨p, hmem⟩
  · rintro ⟨p, h⟩
    exact ⟨p, .file id, Std.ExtTreeMap.mem_toList_iff_getElem?_eq_some.2 h, rfl⟩

/-- Different names have different files. -/
theorem nodup_fileIds (d : Disk) : d.fileIds.Nodup := by
  have hkeys : d.nodes.toList.Pairwise fun a b => a.1 ≠ b.1 := by
    have h : (d.nodes.toList.map (·.1)).Nodup := by
      rw [Std.ExtTreeMap.map_fst_toList_eq_keys]
      exact Std.ExtTreeMap.nodup_keys
    exact List.pairwise_map.1 h
  refine List.pairwise_filterMap.2 (hkeys.imp_of_mem ?_)
  rintro ⟨p, node⟩ ⟨q, node'⟩ hp hq hne i hi j hj rfl
  rw [Std.ExtTreeMap.mem_toList_iff_getElem?_eq_some] at hp hq
  cases node with
  | directory => cases hi
  | file i' =>
    cases node' with
    | directory => cases hj
    | file j' =>
      cases hi
      cases hj
      exact hne (d.id_inj hp hq)

/-- Some of the files are no more than all of them. -/
theorem Fits.of_subset {ids : List FileId} (h : d.Fits) (hn : ids.Nodup) (hs : ids ⊆ d.fileIds) :
    ids.length < 2 ^ 32 ∧ (ids.map fun id => (d.bytes id).length).sum < 2 ^ 63 := by
  obtain ⟨l, hperm, hsub⟩ := List.subperm_of_subset hn hs
  constructor
  · have hlen := hsub.length_le
    have hfiles := h.files
    rw [← hperm.length_eq]
    omega
  · rw [← (hperm.map _).sum_eq]
    exact Nat.lt_of_le_of_lt ((hsub.map _).sum_le_sum fun _ _ => Nat.zero_le _) h.bytes

/-! ## Disks that grow -/

/-- Every file is still there, with at least as many bytes. -/
structure Le (d d' : Disk) : Prop where
  nodes : ∀ {p : Place} {id : FileId}, d.node? p = some (.file id) → d'.node? p = some (.file id)
  bytes : ∀ id ∈ d.fileIds, (d.bytes id).length ≤ (d'.bytes id).length

theorem Le.refl (d : Disk) : d.Le d := ⟨id, fun _ _ => Nat.le_refl _⟩

theorem Le.fileIds (h : d.Le d') : d.fileIds ⊆ d'.fileIds := fun _ hid =>
  let ⟨p, hp⟩ := mem_fileIds.1 hid
  mem_fileIds.2 ⟨p, h.nodes hp⟩

theorem Le.trans (h : d.Le d') (h' : d'.Le d'') : d.Le d'' where
  nodes hp := h'.nodes (h.nodes hp)
  bytes id hid := Nat.le_trans (h.bytes id hid) (h'.bytes id (h.fileIds hid))

/-- A disk that fits fitted before it grew. -/
theorem Fits.of_le (h : d.Le d') (hf : d'.Fits) : d.Fits := by
  obtain ⟨hfiles, hbytes⟩ := hf.of_subset d.nodup_fileIds h.fileIds
  exact ⟨hfiles, Nat.lt_of_le_of_lt (List.sum_le_sum h.bytes) hbytes⟩

theorem le_append (d : Disk) (id : FileId) (bs : Bytes) : d.Le (d.append id bs) where
  nodes hp := hp
  bytes j _ := by
    rw [append, bytes_setBytes]
    split
    · next h =>
      rw [h, List.length_append]
      omega
    · omega

theorem le_addFile (hp : d.node? p = none) : d.Le (d.addFile p).2 where
  nodes {q j} hq := by
    rw [node?_addFile, if_neg]
    · exact hq
    · rintro rfl
      rw [hp] at hq
      cases hq
  bytes j hj := by
    obtain ⟨q, hq⟩ := mem_fileIds.1 hj
    rw [bytes_addFile, if_neg (Nat.ne_of_gt (d.id_lt_fresh hq))]

theorem le_openOrCreate (h : d.openOrCreate p = .ok (id, d')) : d.Le d' := by
  unfold openOrCreate at h
  cases hn : d.node? p with
  | none =>
    simp only [hn] at h
    split at h
    · cases h
      exact le_addFile hn
    · cases h
  | some node =>
    cases node with
    | directory => simp [hn] at h
    | file j =>
      simp only [hn, Except.ok.injEq, Prod.mk.injEq] at h
      rw [← h.2]
      exact .refl d

/-! ## Directories -/

theorem node?_addDirectory (hq : q ≠ p) : (d.addDirectory p).node? q = d.node? q := by
  unfold addDirectory
  split
  · rfl
  · show (d.nodes.insert p .directory)[q]? = _
    rw [Std.ExtTreeMap.getElem?_insert, if_neg]
    · rfl
    · rw [Std.LawfulEqCmp.compare_eq_iff_eq]
      exact hq.symm

theorem bytes_addDirectory (d : Disk) (p : Place) (id : FileId) : (d.addDirectory p).bytes id = d.bytes id := by
  unfold addDirectory
  split <;> rfl

/-- Making a directory changes nothing that lies deeper. -/
theorem makeDirectories_eq {p : Place} (h : d.makeDirectories p = .ok d') :
    (∀ q : Place, p.length < q.length → d'.node? q = d.node? q) ∧ ∀ id, d'.bytes id = d.bytes id := by
  have hfold : ∀ (places : List Place) (d : Disk),
      (∀ q : Place, (∀ r ∈ places, q ≠ r) → (places.foldl addDirectory d).node? q = d.node? q) ∧
        ∀ id, (places.foldl addDirectory d).bytes id = d.bytes id := by
    intro places
    induction places with
    | nil =>
      intro d
      exact ⟨fun q _ => rfl, fun id => rfl⟩
    | cons r places ih =>
      intro d
      obtain ⟨hnode, hbytes⟩ := ih (d.addDirectory r)
      refine ⟨?_, ?_⟩
      · intro q hq
        rw [List.foldl_cons, hnode q fun t ht => hq t (List.mem_cons_of_mem _ ht),
          node?_addDirectory (hq r List.mem_cons_self)]
      · intro id
        rw [List.foldl_cons, hbytes, bytes_addDirectory]
  unfold makeDirectories at h
  split at h
  · cases h
  · split at h
    · cases h
    · cases h
      obtain ⟨hnode, hbytes⟩ := hfold p.upwards d
      refine ⟨fun q hq => hnode q ?_, hbytes⟩
      intro r hr he
      obtain ⟨i, -, rfl⟩ := List.mem_map.1 hr
      rw [he, List.length_take] at hq
      omega

end Disk

end PhraseIndex
