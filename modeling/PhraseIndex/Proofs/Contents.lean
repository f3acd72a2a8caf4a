import PhraseIndex.Model
import PhraseIndex.Proofs.Fragments

/-!
# What the index says about the sentences

`Store.Reflects` ties an index to the sentences behind it: under every source key stand the postings of the sentences
that still count, under every target key the number of occurrences in all sentences, and the deleted domains have their
markers. The commit of a batch adds its sentences to both (`Store.Reflects.commit`). It always succeeds on an index that
is `Store.Sound` (`Store.Sound.exists_commit`), which is all that is left to say of one in the middle of a sweep.
-/

namespace PhraseIndex

/-! ## Merging parts -/

namespace Merge

variable {key : Bytes}

/-- The operand for some postings is added at the end. -/
theorem foldlM_joinPostings (acc : Bytes) (ps : List Posting) :
    (PostingList.record ps).toList.foldlM joinPostings acc = .ok (acc ++ (PostingList.ofList ps).bytes) := by
  by_cases hp : ps = []
  · simp [PostingList.record, PostingList.ofList, hp, pure, Except.pure]
  · have hvalid : PostingList.validate (PostingList.ofList ps).bytes = .ok () := by
      rw [PostingList.validate, require_eq_ok_iff, PostingList.length_bytes_ofList, Nat.mul_mod_left]
      rfl
    simp [PostingList.record, hp, joinPostings, hvalid, bind, Except.bind, pure, Except.pure]

/-- The operand for some occurrences is added. -/
theorem foldlM_addCount (acc : Int64) (n : Nat) :
    (Count.record n).toList.foldlM addCount acc = .ok (acc + Int64.ofNat n) := by
  by_cases hn : n = 0
  · have hzero : Int64.ofNat 0 = 0 := rfl
    simp [Count.record, hn, hzero, pure, Except.pure]
  · simp [Count.record, hn, addCount, bind, Except.bind, pure, Except.pure]

/-- Posting lists are joined. -/
theorem full_postings (hk : Key.kindOf? key = some .source) (ps qs : List Posting) (h : qs ≠ []) :
    full key (PostingList.record ps) (PostingList.record qs).toList = .ok (PostingList.record (ps ++ qs)) := by
  have hfold : ((PostingList.record ps).toList ++ (PostingList.record qs).toList).foldlM joinPostings [] =
      .ok (PostingList.ofList (ps ++ qs)).bytes := by
    rw [foldlM_append_of_ok (foldlM_joinPostings [] ps), foldlM_joinPostings]
    simp [PostingList.ofList]
  rw [full, hk]
  simp only [hfold]
  simp [PostingList.record, h, Functor.map, Except.map]

/-- Counts are added. -/
theorem full_counts (hk : Key.kindOf? key = some .target) (m n : Nat) (h : n ≠ 0) :
    full key (Count.record m) (Count.record n).toList = .ok (Count.record (m + n)) := by
  have hfold : ((Count.record m).toList ++ (Count.record n).toList).foldlM addCount 0 =
      .ok (Int64.ofNat (m + n)) := by
    rw [foldlM_append_of_ok (foldlM_addCount 0 m), foldlM_addCount, Int64.zero_add, Int64.ofNat_add]
  rw [full, hk]
  simp only [hfold]
  simp [Count.record, h, Functor.map, Except.map]

end Merge

namespace Store

variable {s s' : Store} {b : WriteBatch} {key : Bytes}

/-- The operand of a source key is merged into what the key holds. -/
theorem mergedAt_postings {ps qs : List Posting} (hk : Key.kindOf? key = some .source)
    (hs : s.get? key = PostingList.record ps) (hb : b.operandsOf key = (PostingList.record qs).toList) :
    s.mergedAt b key = PostingList.record (ps ++ qs) ∧
      (b.operandsOf key ≠ [] → ∃ v, s.mergedValue key (b.operandsOf key) = .ok v) := by
  by_cases hq : qs = []
  · subst hq
    have hnil : b.operandsOf key = [] := hb
    rw [mergedAt, if_pos hnil, List.append_nil]
    exact ⟨hs, fun h => absurd hnil h⟩
  · have hv : s.mergedValue key (b.operandsOf key) = .ok (PostingList.ofList (ps ++ qs)).bytes := by
      rw [mergedValue, hs, hb, Merge.full_postings hk ps qs hq]
      simp [PostingList.record, hq, bind, Except.bind, pure, Except.pure]
    have hne : b.operandsOf key ≠ [] := by simp [hb, PostingList.record, hq]
    refine ⟨?_, fun _ => ⟨_, hv⟩⟩
    rw [mergedAt, if_neg hne, hv]
    simp [PostingList.record, hq, Except.toOption]

/-- The operand of a target key is added to what the key holds. -/
theorem mergedAt_counts {m n : Nat} (hk : Key.kindOf? key = some .target) (hs : s.get? key = Count.record m)
    (hb : b.operandsOf key = (Count.record n).toList) :
    s.mergedAt b key = Count.record (m + n) ∧
      (b.operandsOf key ≠ [] → ∃ v, s.mergedValue key (b.operandsOf key) = .ok v) := by
  by_cases hn : n = 0
  · subst hn
    have hnil : b.operandsOf key = [] := hb
    rw [mergedAt, if_pos hnil, Nat.add_zero]
    exact ⟨hs, fun h => absurd hnil h⟩
  · have hv : s.mergedValue key (b.operandsOf key) = .ok (Count.encode (Int64.ofNat (m + n))) := by
      rw [mergedValue, hs, hb, Merge.full_counts hk m n hn]
      simp [Count.record, hn, bind, Except.bind, pure, Except.pure]
    have hne : b.operandsOf key ≠ [] := by simp [hb, Count.record, hn]
    refine ⟨?_, fun _ => ⟨_, hv⟩⟩
    rw [mergedAt, if_neg hne, hv]
    simp [Count.record, hn, Except.toOption]

end Store

/-! ## The records of a batch -/

section Batch

variable {fragments : Fragments} {deletions : DomainSet} {streams : Streams} {manifest : Option Manifest}
  {key value : Bytes}

/-- A batch puts markers, the stream positions and maybe the manifest. -/
theorem mem_puts_commitOf : (key, value) ∈ (Model.commitOf fragments deletions streams manifest).puts ↔
    (∃ domain ∈ deletions, (key, value) = (Sweeper.marker domain, [])) ∨
      (key, value) = Model.streamsRecord streams ∨ ∃ m ∈ manifest, (key, value) = Model.manifestRecord m := by
  simp only [Model.commitOf, List.mem_append, List.mem_map, List.mem_singleton, Std.ExtTreeSet.mem_toList,
    Option.toList_map, Option.mem_toList, or_assoc, eq_comm, Option.mem_def]

/-- A batch puts no record of a phrase. -/
theorem valuesOf_puts_commitOf (hs : Key.kindOf? key = some .source ∨ Key.kindOf? key = some .target) :
    valuesOf (Model.commitOf fragments deletions streams manifest).puts key = [] := by
  apply valuesOf_eq_nil_iff.2
  intro value hv
  rcases mem_puts_commitOf.1 hv with ⟨d, -, he⟩ | he | ⟨m, -, he⟩
  · rw [(Prod.mk.inj he).1, Sweeper.marker, Key.kindOf?_encode] at hs
    simp [Key.kind] at hs
  · rw [(Prod.mk.inj he).1, Key.kindOf?_encode] at hs
    simp [Key.kind] at hs
  · rw [(Prod.mk.inj he).1, Key.kindOf?_encode] at hs
    simp [Key.kind] at hs

/-- A batch marks the domains that it deletes. -/
theorem valuesOf_puts_marker (fragments : Fragments) (deletions : DomainSet) (streams : Streams)
    (manifest : Option Manifest) (domain : Domain) :
    valuesOf (Model.commitOf fragments deletions streams manifest).puts (Sweeper.marker domain) ≠ [] ↔
      domain ∈ deletions := by
  rw [← not_iff_not, not_not, valuesOf_eq_nil_iff]
  constructor
  · intro h hd
    exact h [] (mem_puts_commitOf.2 (.inl ⟨domain, hd, rfl⟩))
  · intro hd value hv
    rcases mem_puts_commitOf.1 hv with ⟨d, hm, he⟩ | he | ⟨m, -, he⟩
    · rw [Key.deletion_encode_inj (Prod.mk.inj he).1] at hd
      exact hd hm
    · cases Key.kind_eq_of_encode_eq (k := .deletion domain) (l := .streams) (Prod.mk.inj he).1
    · cases Key.kind_eq_of_encode_eq (k := .deletion domain) (l := .manifest) (Prod.mk.inj he).1

/-- A batch puts its manifest, if it has one. -/
theorem valuesOf_puts_manifest (fragments : Fragments) (deletions : DomainSet) (streams : Streams)
    (manifest : Option Manifest) :
    valuesOf (Model.commitOf fragments deletions streams manifest).puts Key.manifest.encode =
      (manifest.map Manifest.encode).toList := by
  have hmarkers : valuesOf (deletions.toList.map fun domain => (Sweeper.marker domain, ([] : Bytes)))
      Key.manifest.encode = [] := by
    apply valuesOf_eq_nil_iff.2
    intro value hv
    obtain ⟨d, -, he⟩ := List.mem_map.1 hv
    cases Key.kind_eq_of_encode_eq (k := .deletion d) (l := .manifest) (Prod.mk.inj he).1
  have hstreams : valuesOf [Model.streamsRecord streams] Key.manifest.encode = [] := rfl
  rw [Model.commitOf, valuesOf_append, valuesOf_append, hmarkers, hstreams]
  cases manifest with
  | none => rfl
  | some m => rfl

end Batch

/-! ## The commit of a batch -/

namespace Store

variable {s s' : Store} {limit : PrefixLength} {placed : List Placement} {deletions : DomainSet} {streams : Streams}
  {manifest : Option Manifest} {stats : CommitStats} {phrase : Phrase} {domain : Domain}

/-- The postings of the batch are merged into those of a source key. -/
theorem merge_source {ps : List Posting} (hk : (Key.source phrase domain).WellFormed limit)
    (hs : s.get? (Key.source phrase domain).encode = PostingList.record ps) :
    let b := Model.commitOf (Fragments.ofPairs limit placed) deletions streams manifest
    let key := (Key.source phrase domain).encode
    s.mergedAt b key = PostingList.record (ps ++ postingsOf phrase domain placed) ∧
      (b.operandsOf key ≠ [] → ∃ v, s.mergedValue key (b.operandsOf key) = .ok v) := by
  intro b key
  have hb : b.operandsOf key = (PostingList.record (postingsOf phrase domain placed)).toList :=
    Fragments.valuesOf_merges_source placed hk
  exact mergedAt_postings (Key.kindOf?_encode _) hs hb

/-- The occurrences in the batch are added to those of a target key. -/
theorem merge_target {n : Nat} (hk : (Key.target phrase).WellFormed limit)
    (hs : s.get? (Key.target phrase).encode = Count.record n) :
    let b := Model.commitOf (Fragments.ofPairs limit placed) deletions streams manifest
    let key := (Key.target phrase).encode
    s.mergedAt b key = Count.record (n + targetTotal phrase placed) ∧
      (b.operandsOf key ≠ [] → ∃ v, s.mergedValue key (b.operandsOf key) = .ok v) := by
  intro b key
  have hb : b.operandsOf key = (Count.record (targetTotal phrase placed)).toList :=
    Fragments.valuesOf_merges_target placed hk
  exact mergedAt_counts (Key.kindOf?_encode _) hs hb

section Committed

variable (hc : s.commit (Model.commitOf (Fragments.ofPairs limit placed) deletions streams manifest) = .ok (stats, s'))

include hc

/-- Every key after the commit of a batch. -/
theorem get?_commitOf (key : Bytes) :
    s'.get? key = (valuesOf (Model.commitOf (Fragments.ofPairs limit placed) deletions streams manifest).puts
      key).getLast?.or
      (s.mergedAt (Model.commitOf (Fragments.ofPairs limit placed) deletions streams manifest) key) := by
  rw [get?_commit hc, if_neg]
  exact List.not_mem_nil

theorem get?_source_commitOf {ps : List Posting} (hk : (Key.source phrase domain).WellFormed limit)
    (hs : s.get? (Key.source phrase domain).encode = PostingList.record ps) :
    s'.get? (Key.source phrase domain).encode = PostingList.record (ps ++ postingsOf phrase domain placed) := by
  rw [get?_commitOf hc, valuesOf_puts_commitOf (.inl (Key.kindOf?_encode _)), List.getLast?_nil, Option.none_or]
  exact (merge_source hk hs).1

theorem get?_target_commitOf {n : Nat} (hk : (Key.target phrase).WellFormed limit)
    (hs : s.get? (Key.target phrase).encode = Count.record n) :
    s'.get? (Key.target phrase).encode = Count.record (n + targetTotal phrase placed) := by
  rw [get?_commitOf hc, valuesOf_puts_commitOf (.inr (Key.kindOf?_encode _)), List.getLast?_nil, Option.none_or]
  exact (merge_target hk hs).1

/-- A batch takes nothing away. -/
theorem isSome_commitOf {key : Bytes} (h : (s.get? key).isSome) : (s'.get? key).isSome := by
  rw [get?_commitOf hc, Option.isSome_or, Bool.or_eq_true]
  refine .inr ?_
  by_cases hops : (Model.commitOf (Fragments.ofPairs limit placed) deletions streams manifest).operandsOf key = []
  · rwa [mergedAt, if_pos hops]
  · obtain ⟨v, -, hv⟩ := mergedAt_commit hc hops
    rw [hv]
    rfl

/-- A batch adds the markers of the domains that it deletes. -/
theorem isSome_marker_commitOf (domain : Domain) : (s'.get? (Sweeper.marker domain)).isSome ↔
    (s.get? (Sweeper.marker domain)).isSome ∨ domain ∈ deletions := by
  have hnil : (Model.commitOf (Fragments.ofPairs limit placed) deletions streams manifest).operandsOf
      (Sweeper.marker domain) = [] := by
    by_contra hops
    obtain ⟨k, -, he, hkind⟩ := Fragments.wellFormed_of_merges hops
    rw [Key.kind_eq_of_encode_eq (l := .deletion domain) he] at hkind
    simp [Key.kind] at hkind
  rw [← valuesOf_puts_marker (Fragments.ofPairs limit placed) deletions streams manifest, get?_commitOf hc, mergedAt,
    if_pos hnil, Option.isSome_or, Bool.or_eq_true, List.getLast?_isSome, or_comm]

/-- A batch writes well-formed keys. -/
theorem wellFormed_commitOf {key value : Bytes}
    (h : ∀ {value}, s.get? key = some value → ∃ k : Key, k.WellFormed limit ∧ k.encode = key)
    (hv : s'.get? key = some value) : ∃ k : Key, k.WellFormed limit ∧ k.encode = key := by
  by_cases hputs : ∀ v, (key, v) ∉ (Model.commitOf (Fragments.ofPairs limit placed) deletions streams manifest).puts
  · rw [get?_commitOf hc, valuesOf_eq_nil_iff.2 hputs, List.getLast?_nil, Option.none_or, mergedAt] at hv
    split at hv
    · exact h hv
    · next hops =>
      obtain ⟨k, hk, he, -⟩ := Fragments.wellFormed_of_merges hops
      exact ⟨k, hk, he⟩
  · push Not at hputs
    obtain ⟨v, hp⟩ := hputs
    rcases mem_puts_commitOf.1 hp with ⟨d, -, he⟩ | he | ⟨m, -, he⟩
    · exact ⟨.deletion d, trivial, (Prod.mk.inj he).1.symm⟩
    · exact ⟨.streams, trivial, (Prod.mk.inj he).1.symm⟩
    · exact ⟨.manifest, trivial, (Prod.mk.inj he).1.symm⟩

end Committed

end Store

/-! ## A sound index -/

/-- The keys of an index are well formed, and the keys of phrases hold postings and counts. -/
structure Store.Sound (s : Store) (limit : PrefixLength) : Prop where
  wellFormed : ∀ {key value : Bytes}, s.get? key = some value → ∃ k : Key, k.WellFormed limit ∧ k.encode = key
  postings : ∀ {phrase : Phrase} {domain : Domain}, (Key.source phrase domain).WellFormed limit →
    ∃ ps, s.get? (Key.source phrase domain).encode = PostingList.record ps
  counts : ∀ {phrase : Phrase}, (Key.target phrase).WellFormed limit →
    ∃ n, s.get? (Key.target phrase).encode = Count.record n

namespace Store.Sound

variable {s s' : Store} {limit : PrefixLength} {placed : List Placement} {deletions : DomainSet} {streams : Streams}
  {manifest : Option Manifest} {stats : CommitStats}

/-- A batch of sentences can always be committed. -/
theorem exists_commit (h : s.Sound limit) (placed : List Placement) (deletions : DomainSet) (streams : Streams)
    (manifest : Option Manifest) :
    ∃ stats s', s.commit (Model.commitOf (Fragments.ofPairs limit placed) deletions streams manifest) =
      .ok (stats, s') := by
  obtain ⟨⟨stats, s'⟩, hr⟩ := Store.exists_commit s
    (Model.commitOf (Fragments.ofPairs limit placed) deletions streams manifest) fun key hkey => by
      obtain ⟨k, hk, rfl, hkind⟩ := Fragments.wellFormed_of_merges hkey
      cases k with
      | source phrase domain =>
        obtain ⟨ps, hs⟩ := h.postings hk
        exact (merge_source hk hs).2 hkey
      | target phrase =>
        obtain ⟨n, hs⟩ := h.counts hk
        exact (merge_target hk hs).2 hkey
      | streams | manifest | deletion => simp [Key.kind] at hkind
  exact ⟨stats, s', hr⟩

theorem commit (h : s.Sound limit)
    (hc : s.commit (Model.commitOf (Fragments.ofPairs limit placed) deletions streams manifest) = .ok (stats, s')) :
    s'.Sound limit where
  wellFormed hv := wellFormed_commitOf hc h.wellFormed hv
  postings hk := by
    obtain ⟨ps, hs⟩ := h.postings hk
    exact ⟨_, get?_source_commitOf hc hk hs⟩
  counts hk := by
    obtain ⟨n, hs⟩ := h.counts hk
    exact ⟨_, get?_target_commitOf hc hk hs⟩

/-- Whatever is taken away, an index stays sound. -/
theorem of_removal (h : s.Sound limit) (hr : ∀ key, s'.get? key = none ∨ s'.get? key = s.get? key) :
    s'.Sound limit where
  wellFormed {key value} hv := by
    rcases hr key with hn | he
    · rw [hn] at hv
      cases hv
    · rw [he] at hv
      exact h.wellFormed hv
  postings {phrase domain} hk := by
    rcases hr (Key.source phrase domain).encode with hn | he
    · exact ⟨[], hn⟩
    · rw [he]
      exact h.postings hk
  counts {phrase} hk := by
    rcases hr (Key.target phrase).encode with hn | he
    · exact ⟨0, hn⟩
    · rw [he]
      exact h.counts hk

end Store.Sound

/-! ## An index and its sentences -/

/-- The index holds the postings of the `live` sentences and counts the targets of `all` of them, and the `deleted`
domains have markers. -/
structure Store.Reflects (s : Store) (limit : PrefixLength) (live all : List Placement) (deleted : DomainSet) :
    Prop where
  wellFormed : ∀ {key value : Bytes}, s.get? key = some value → ∃ k : Key, k.WellFormed limit ∧ k.encode = key
  postings : ∀ {phrase : Phrase} {domain : Domain}, (Key.source phrase domain).WellFormed limit →
    s.get? (Key.source phrase domain).encode = PostingList.record (postingsOf phrase domain live)
  counts : ∀ {phrase : Phrase}, (Key.target phrase).WellFormed limit →
    s.get? (Key.target phrase).encode = Count.record (targetTotal phrase all)
  marked : ∀ domain : Domain, (s.get? (Sweeper.marker domain)).isSome ↔ domain ∈ deleted

namespace Store.Reflects

variable {s s' : Store} {limit : PrefixLength} {live all placed : List Placement} {deleted deletions : DomainSet}
  {streams : Streams} {manifest : Option Manifest} {stats : CommitStats}

/-- An index that was never written reflects no sentences. -/
theorem empty (limit : PrefixLength) (prefixLength : Option PrefixLength) :
    Reflects { prefixLength } limit [] [] ∅ where
  wellFormed h := by simp [Store.get?] at h
  postings _ := by simp [Store.get?, postingsOf, PostingList.record]
  counts _ := by simp [Store.get?, targetTotal, Count.record]
  marked _ := by simp [Store.get?]

theorem sound (h : s.Reflects limit live all deleted) : s.Sound limit where
  wellFormed := h.wellFormed
  postings hk := ⟨_, h.postings hk⟩
  counts hk := ⟨_, h.counts hk⟩

/-- The commit of a batch adds its sentences. -/
theorem commit (h : s.Reflects limit live all deleted)
    (hc : s.commit (Model.commitOf (Fragments.ofPairs limit placed) deletions streams manifest) = .ok (stats, s')) :
    s'.Reflects limit (live ++ placed) (all ++ placed) (deleted ∪ deletions) where
  wellFormed hv := wellFormed_commitOf hc h.wellFormed hv
  postings hk := by
    rw [postingsOf_append]
    exact get?_source_commitOf hc hk (h.postings hk)
  counts hk := by
    rw [targetTotal_append]
    exact get?_target_commitOf hc hk (h.counts hk)
  marked domain := by rw [isSome_marker_commitOf hc, h.marked, Std.ExtTreeSet.mem_union_iff]

end Store.Reflects

end PhraseIndex
