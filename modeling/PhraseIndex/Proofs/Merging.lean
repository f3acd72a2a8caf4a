import PhraseIndex.Proofs.Contents
import PhraseIndex.Proofs.Regrouping

/-!
# Merging in several commits

What is merged in two commits could have been merged in one: a stored value takes all operands at once as it takes them
one after the other (`Merge.full_append`), and the operand of a row of sentences does what the operands of its parts do
(`Fragments.alike_operands`). So two commits of sentences come to one commit of them all (`Store.commit_append`). The
order in which a batch lists its keys cannot be seen either (`Store.commit_of_shuffled`).
-/

namespace PhraseIndex

/-! ## Operands one after the other -/

namespace Merge

variable {key : Bytes}

/-- A merged value takes further operands like the value before with all operands. -/
theorem full_append {existing : Option Bytes} {xs : List Bytes} {value : Bytes}
    (h : full key existing xs = .ok (some value)) (ys : List Bytes) :
    full key existing (xs ++ ys) = full key (some value) ys := by
  cases happ : applies key with
  | true =>
    rw [full_bind happ, h]
    rfl
  | false =>
    rw [full_of_not_applies happ] at h
    cases h

/-- The operands do the same to whatever is stored under the key. -/
def Alike (key : Bytes) (xs ys : List Bytes) : Prop :=
  (xs = [] ↔ ys = []) ∧ ∀ existing, full key existing xs = full key existing ys

theorem alike_postings (hk : Key.kindOf? key = some .source) (ps qs : List Posting) :
    Alike key (PostingList.record (ps ++ qs)).toList
      ((PostingList.record ps).toList ++ (PostingList.record qs).toList) := by
  refine ⟨?_, fun existing => ?_⟩
  · by_cases hp : ps = [] <;> by_cases hq : qs = [] <;> simp [PostingList.record, hp, hq]
  · have hfold : ∀ acc, (PostingList.record (ps ++ qs)).toList.foldlM joinPostings acc =
        ((PostingList.record ps).toList ++ (PostingList.record qs).toList).foldlM joinPostings acc := by
      intro acc
      rw [foldlM_append_of_ok (foldlM_joinPostings acc ps), foldlM_joinPostings, foldlM_joinPostings]
      simp [PostingList.ofList]
    rw [full, full, hk]
    simp only [foldlM_append_congr hfold]

theorem alike_counts (hk : Key.kindOf? key = some .target) (m n : Nat) :
    Alike key (Count.record (m + n)).toList ((Count.record m).toList ++ (Count.record n).toList) := by
  refine ⟨?_, fun existing => ?_⟩
  · by_cases hm : m = 0 <;> by_cases hn : n = 0 <;> simp [Count.record, hm, hn]
  · have hfold : ∀ acc, (Count.record (m + n)).toList.foldlM addCount acc =
        ((Count.record m).toList ++ (Count.record n).toList).foldlM addCount acc := by
      intro acc
      rw [foldlM_append_of_ok (foldlM_addCount acc m), foldlM_addCount, foldlM_addCount, Int64.ofNat_add,
        Int64.add_assoc]
    rw [full, full, hk]
    simp only [foldlM_append_congr hfold]

end Merge

/-- The operands of a row of sentences do what those of its two parts do in order. -/
theorem Fragments.alike_operands (limit : PrefixLength) (ps qs : List Placement) (key : Bytes) :
    Merge.Alike key (valuesOf (ofPairs limit (ps ++ qs)).merges key)
      (valuesOf (ofPairs limit ps).merges key ++ valuesOf (ofPairs limit qs).merges key) := by
  by_cases hwf : ∃ k : Key, k.WellFormed limit ∧ k.encode = key ∧ (k.kind = .source ∨ k.kind = .target)
  · obtain ⟨k, hk, rfl, hkind⟩ := hwf
    cases k with
    | source phrase domain =>
      simp only [valuesOf_merges_source _ hk, postingsOf_append]
      exact Merge.alike_postings (Key.kindOf?_encode _) _ _
    | target phrase =>
      simp only [valuesOf_merges_target _ hk, targetTotal_append]
      exact Merge.alike_counts (Key.kindOf?_encode _) _ _
    | streams | manifest | deletion => simp [Key.kind] at hkind
  · have hnone : ∀ placed, valuesOf (ofPairs limit placed).merges key = [] :=
      fun placed => by_contra fun hne => hwf (wellFormed_of_merges hne)
    rw [hnone, hnone, hnone]
    exact ⟨Iff.rfl, fun existing => rfl⟩

namespace Store

variable {s s₁ s₂ : Store} {whole first second b c : WriteBatch} {key value : Bytes} {stats stats₁ stats₂ : CommitStats}

/-! ## Merging in two commits -/

theorem mergedValue_eq_ok_iff {operands : List Bytes} :
    s.mergedValue key operands = .ok value ↔ Merge.full key (s.get? key) operands = .ok (some value) := by
  rw [mergedValue, bind_eq_ok_iff]
  constructor
  · rintro ⟨merged, hfull, h⟩
    cases merged with
    | none => cases h
    | some v =>
      cases h
      exact hfull
  · intro h
    exact ⟨some value, h, rfl⟩

/-- Under a key that two commits only merge into stands what one commit of all operands leaves there. -/
theorem mergedAt_of_commits (h₁ : s.commit first = .ok (stats₁, s₁)) (h₂ : s₁.commit second = .ok (stats₂, s₂))
    (halike : Merge.Alike key (whole.operandsOf key) (first.operandsOf key ++ second.operandsOf key))
    (hfirst : s₁.get? key = s.mergedAt first key) :
    s.mergedAt whole key = s₁.mergedAt second key ∧
      (whole.operandsOf key ≠ [] → ∃ v, s.mergedValue key (whole.operandsOf key) = .ok v) := by
  obtain ⟨hnil, hsame⟩ := halike
  -- It is enough that the operands of both parts come to what the second commit leaves.
  suffices hvalue : whole.operandsOf key ≠ [] → ∃ v, s₁.mergedAt second key = some v ∧
      Merge.full key (s.get? key) (first.operandsOf key ++ second.operandsOf key) = .ok (some v) by
    by_cases hw : whole.operandsOf key = []
    · obtain ⟨hx, hy⟩ := List.append_eq_nil_iff.1 (hnil.1 hw)
      rw [mergedAt, if_pos hx] at hfirst
      rw [mergedAt, mergedAt, if_pos hw, if_pos hy, hfirst]
      exact ⟨rfl, fun hne => absurd hw hne⟩
    · obtain ⟨v, hsecond, hfull⟩ := hvalue hw
      have hmerged := mergedValue_eq_ok_iff.2 ((hsame (s.get? key)).trans hfull)
      rw [mergedAt, if_neg hw, hmerged, hsecond]
      exact ⟨rfl, fun _ => ⟨v, rfl⟩⟩
  intro hw
  by_cases hx : first.operandsOf key = []
  · have hy : second.operandsOf key ≠ [] := fun hy => hw (hnil.2 (by rw [hx, hy]; rfl))
    obtain ⟨v, hv, hat⟩ := mergedAt_commit h₂ hy
    rw [mergedAt, if_pos hx] at hfirst
    rw [mergedValue_eq_ok_iff, hfirst] at hv
    rw [hx, List.nil_append]
    exact ⟨v, hat, hv⟩
  · obtain ⟨v, hv, hat⟩ := mergedAt_commit h₁ hx
    rw [hat] at hfirst
    rw [Merge.full_append (mergedValue_eq_ok_iff.1 hv)]
    by_cases hy : second.operandsOf key = []
    · rw [mergedAt, if_pos hy, hy]
      refine ⟨v, hfirst, ?_⟩
      have happ := Merge.full_append (mergedValue_eq_ok_iff.1 hv) []
      rw [List.append_nil] at happ
      rw [← happ]
      exact mergedValue_eq_ok_iff.1 hv
    · obtain ⟨v', hv', hat'⟩ := mergedAt_commit h₂ hy
      rw [mergedValue_eq_ok_iff, hfirst] at hv'
      exact ⟨v', hat', hv'⟩

end Store

/-! ## The records of a batch, each once -/

section Keys

variable {limit : PrefixLength} {placed : List Placement} {deletions : DomainSet} {streams : Streams}
  {manifest : Option Manifest}

/-- A batch puts every key once. -/
theorem nodup_puts_commitOf (fragments : Fragments) (deletions : DomainSet) (streams : Streams)
    (manifest : Option Manifest) : ((Model.commitOf fragments deletions streams manifest).puts.map (·.1)).Nodup := by
  let keys : List Key := deletions.toList.map .deletion ++ [.streams] ++ (manifest.map fun _ => Key.manifest).toList
  have hputs : (Model.commitOf fragments deletions streams manifest).puts.map (·.1) = keys.map Key.encode := by
    cases manifest <;> simp [keys, Model.commitOf, Model.streamsRecord, Model.manifestRecord, Sweeper.marker]
  have hwf : ∀ k ∈ keys, k.WellFormed 0 := by
    cases manifest <;> simp [keys, Key.WellFormed, or_imp, forall_and]
  have hnodup : keys.Nodup := by
    have hdomains : deletions.toList.Nodup := Std.ExtTreeSet.distinct_toList.imp Std.ReflCmp.ne_of_cmp_ne_eq
    have hmarkers : (deletions.toList.map Key.deletion).Nodup := hdomains.map fun _ _ he => Key.deletion.inj he
    cases manifest <;> simp [keys, List.nodup_append, hmarkers]
  rw [hputs]
  exact hnodup.map_on fun k hk l hl he => Key.encode_inj (hwf k hk) (hwf l hl) he

/-- A batch merges into every key once. -/
theorem nodup_merges_ofPairs : ((Fragments.ofPairs limit placed).merges.map (·.1)).Nodup := by
  have hkeys : (Fragments.ofPairs limit placed).merges.map (·.1) =
      (Fragments.ofPairs limit placed).postings.toList.map (·.1) ++
        (Fragments.ofPairs limit placed).occurrences.toList.map (·.1) := by
    simp [Fragments.merges, Function.comp_def]
  rw [hkeys, List.nodup_append]
  refine ⟨nodup_map_fst_toList _, nodup_map_fst_toList _, ?_⟩
  rintro key hp other ho rfl
  obtain ⟨⟨k, ps⟩, hps, rfl⟩ := List.mem_map.1 hp
  obtain ⟨⟨k', n⟩, hn, he⟩ := List.mem_map.1 ho
  have hps' := Std.ExtTreeMap.mem_toList_iff_getElem?_eq_some.1 hps
  have hn' := Std.ExtTreeMap.mem_toList_iff_getElem?_eq_some.1 hn
  obtain ⟨phrase, domain, -, hsource⟩ := Fragments.isSome_postings_ofPairs (Option.isSome_of_eq_some hps')
  obtain ⟨phrase', -, htarget⟩ := Fragments.isSome_occurrences_ofPairs (Option.isSome_of_eq_some hn')
  cases Key.kind_eq_of_encode_eq (hsource.trans (he.symm.trans htarget.symm))

end Keys

/-- The same writes, maybe in another order. -/
structure WriteBatch.Shuffled (b c : WriteBatch) : Prop where
  puts : b.puts.Perm c.puts
  merges : b.merges.Perm c.merges
  removes : b.removes.Perm c.removes

namespace Store

variable {s s' s₁ s₂ : Store} {limit : PrefixLength} {ps qs : List Placement}
  {deletions deletions₁ deletions₂ : DomainSet}
  {streams₁ streams₂ : Streams} {manifest₁ manifest₂ : Option Manifest} {b c : WriteBatch}
  {stats stats₁ stats₂ : CommitStats}

/-- If every key is put once and merged into once, the order of the writes does not matter. -/
theorem commit_of_shuffled (hc : b.Shuffled c) (hputs : (b.puts.map (·.1)).Nodup) (hmerges : (b.merges.map (·.1)).Nodup)
    (h : s.commit c = .ok (stats, s')) : ∃ stats, s.commit b = .ok (stats, s') := by
  have hops : ∀ key, b.operandsOf key = c.operandsOf key := valuesOf_perm hc.merges hmerges
  apply commit_of_get?
  · intro key hne
    rw [hops] at hne ⊢
    obtain ⟨v, hv, -⟩ := mergedAt_commit h hne
    exact ⟨v, hv⟩
  · exact prefixLength_commit h
  · intro key
    rw [get?_commit h, mergedAt, mergedAt, hops, valuesOf_perm hc.puts hputs, if_congr hc.removes.mem_iff rfl rfl]

/-! ## Committing in two parts -/

/-- What a batch puts under a key is what its second part puts there, or else its first part. -/
theorem puts_of_commits (hd : ∀ d, d ∈ deletions ↔ d ∈ deletions₁ ∨ d ∈ deletions₂)
    (hm : manifest₂ = none → manifest₁ = none) (f f₁ f₂ : Fragments) (streams₁ streams₂ : Streams) (key : Bytes) :
    (valuesOf (Model.commitOf f deletions streams₂ manifest₂).puts key).getLast? =
      (valuesOf (Model.commitOf f₂ deletions₂ streams₂ manifest₂).puts key).getLast?.or
        (valuesOf (Model.commitOf f₁ deletions₁ streams₁ manifest₁).puts key).getLast? := by
  have hnone : ∀ {key}, (valuesOf (Model.commitOf f₂ deletions₂ streams₂ manifest₂).puts key).getLast? = none ↔
      ∀ value, (key, value) ∉ (Model.commitOf f₂ deletions₂ streams₂ manifest₂).puts := by
    intro key
    rw [List.getLast?_eq_none_iff, valuesOf_eq_nil_iff]
  apply Option.ext
  intro value
  rw [Option.or_eq_some_iff, hnone, getLast?_valuesOf_eq_some_iff (nodup_puts_commitOf ..),
    getLast?_valuesOf_eq_some_iff (nodup_puts_commitOf ..), getLast?_valuesOf_eq_some_iff (nodup_puts_commitOf ..)]
  constructor
  · intro hput
    rcases mem_puts_commitOf.1 hput with ⟨d, hdel, he⟩ | hstreams | hmanifest
    · cases he
      by_cases h₂ : d ∈ deletions₂
      · exact .inl (mem_puts_commitOf.2 (.inl ⟨d, h₂, rfl⟩))
      · refine .inr ⟨?_, mem_puts_commitOf.2 (.inl ⟨d, ((hd d).1 hdel).resolve_right h₂, rfl⟩)⟩
        rw [← valuesOf_eq_nil_iff, ← not_ne_iff, valuesOf_puts_marker]
        exact h₂
    · exact .inl (mem_puts_commitOf.2 (.inr (.inl hstreams)))
    · exact .inl (mem_puts_commitOf.2 (.inr (.inr hmanifest)))
  · rintro (hput | ⟨hnot, hput⟩)
    · refine mem_puts_commitOf.2 ((mem_puts_commitOf.1 hput).imp_left ?_)
      rintro ⟨d, hdel, he⟩
      exact ⟨d, (hd d).2 (.inr hdel), he⟩
    · -- The second part puts the streams, and a manifest if the first one does.
      rcases mem_puts_commitOf.1 hput with ⟨d, hdel, he⟩ | he | ⟨m, hman, he⟩
      · exact mem_puts_commitOf.2 (.inl ⟨d, (hd d).2 (.inl hdel), he⟩)
      · cases he
        exact absurd (mem_puts_commitOf.2 (.inr (.inl rfl))) (hnot streams₂.encode)
      · cases he
        cases hman₂ : manifest₂ with
        | none =>
          rw [hm hman₂] at hman
          cases hman
        | some m₂ => exact absurd (mem_puts_commitOf.2 (.inr (.inr ⟨m₂, hman₂, rfl⟩))) (hnot m₂.encode)

/-- Two commits of sentences come to one commit of all of them. -/
theorem commit_append
    (h₁ : s.commit (Model.commitOf (Fragments.ofPairs limit ps) deletions₁ streams₁ manifest₁) = .ok (stats₁, s₁))
    (h₂ : s₁.commit (Model.commitOf (Fragments.ofPairs limit qs) deletions₂ streams₂ manifest₂) = .ok (stats₂, s₂))
    (hd : ∀ d, d ∈ deletions ↔ d ∈ deletions₁ ∨ d ∈ deletions₂) (hm : manifest₂ = none → manifest₁ = none) :
    ∃ stats, s.commit (Model.commitOf (Fragments.ofPairs limit (ps ++ qs)) deletions streams₂ manifest₂) =
      .ok (stats, s₂) := by
  let first := Model.commitOf (Fragments.ofPairs limit ps) deletions₁ streams₁ manifest₁
  let second := Model.commitOf (Fragments.ofPairs limit qs) deletions₂ streams₂ manifest₂
  let whole := Model.commitOf (Fragments.ofPairs limit (ps ++ qs)) deletions streams₂ manifest₂
  have halike : ∀ key, Merge.Alike key (whole.operandsOf key) (first.operandsOf key ++ second.operandsOf key) :=
    Fragments.alike_operands limit ps qs
  -- A key either has operands or is put, not both.
  have hkind : ∀ key, whole.operandsOf key ≠ [] → Key.kindOf? key = some .source ∨ Key.kindOf? key = some .target := by
    intro key hne
    obtain ⟨k, -, rfl, hkind⟩ := Fragments.wellFormed_of_merges hne
    rw [Key.kindOf?_encode]
    exact hkind.imp (congrArg some) (congrArg some)
  have hmerged : ∀ key, whole.operandsOf key ≠ [] → s.mergedAt whole key = s₁.mergedAt second key ∧
      ∃ v, s.mergedValue key (whole.operandsOf key) = .ok v := by
    intro key hne
    have hfirst : s₁.get? key = s.mergedAt first key := by
      rw [get?_commitOf h₁, valuesOf_puts_commitOf (hkind key hne)]
      rfl
    obtain ⟨hat, hvalue⟩ := mergedAt_of_commits h₁ h₂ (halike key) hfirst
    exact ⟨hat, hvalue hne⟩
  refine commit_of_get? (fun key hne => (hmerged key hne).2) ((prefixLength_commit h₂).trans (prefixLength_commit h₁))
    ?_
  intro key
  have hremoves : key ∉ whole.removes := List.not_mem_nil
  rw [if_neg hremoves, get?_commitOf h₂]
  by_cases hops : whole.operandsOf key = []
  · obtain ⟨hx, hy⟩ := List.append_eq_nil_iff.1 ((halike key).1.1 hops)
    rw [mergedAt, mergedAt, if_pos hops, if_pos hy, get?_commitOf h₁, mergedAt, if_pos hx, ← Option.or_assoc,
      puts_of_commits hd hm]
  · rw [valuesOf_puts_commitOf (hkind key hops), valuesOf_puts_commitOf (hkind key hops), (hmerged key hops).1]

end Store

end PhraseIndex
