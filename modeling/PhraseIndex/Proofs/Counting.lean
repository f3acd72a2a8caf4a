import Mathlib.Algebra.BigOperators.Group.Finset.Basic
import Mathlib.Algebra.BigOperators.Group.Finset.Piecewise
import PhraseIndex.Proofs.Contents
import PhraseIndex.Proofs.Values

/-!
# What the counts answer

A cursor over a phrase takes up the posting lists of all domains in order (`Cursor.foldSteps_scanning`), a cursor of one
domain a single one (`Cursor.foldSteps_single`); each sentence belongs to one domain, so their lengths add up to the
number of occurrences in all live sources (`sum_length_postingsOf`). The answers of an index that reflects some
sentences are therefore their totals (`Store.Reflects.sourceCount`, `Store.Reflects.targetCount`).
-/

namespace PhraseIndex

/-! ## Adding up records -/

namespace Cursor

variable {c c' : Cursor} {entry : PrefixEntry} {f : β → PrefixEntry → Except Error β} {acc acc' : β}

theorem foldSteps_of_none (h : c.step = (.ok none, c')) : c.foldSteps f acc = (.ok acc, c') := by
  unfold foldSteps
  split
  · next he => simp [h] at he
  · next he =>
    rw [h] at he
    cases he
    rfl
  · next he => simp [h] at he

theorem foldSteps_of_some (h : c.step = (.ok (some entry), c')) (hf : f acc entry = .ok acc') :
    c.foldSteps f acc = c'.foldSteps f acc' := by
  conv_lhs => unfold foldSteps
  split
  · next he => simp [h] at he
  · next he => simp [h] at he
  · next he =>
    rw [h] at he
    cases he
    rw [hf]

theorem foldSteps_of_error {e : Error} (h : c.step = (.ok (some entry), c')) (hf : f acc entry = .error e) :
    c.foldSteps f acc = (.error e, c') := by
  unfold foldSteps
  split
  · next he => simp [h] at he
  · next he => simp [h] at he
  · next he =>
    rw [h] at he
    cases he
    rw [hf]

/-- A cursor at a single record takes it up, if there is one. -/
theorem foldSteps_single {limit : PrefixLength} {only : Option Domain} (f : β → PrefixEntry → Except Error β) (acc : β)
    (entry : Option PrefixEntry) : (foldSteps f acc ⟨limit, only, .single entry⟩).1 = entry.toList.foldlM f acc := by
  cases entry with
  | none =>
    rw [foldSteps_of_none rfl]
    rfl
  | some entry =>
    rw [Option.toList_some, List.foldlM_cons]
    cases hf : f acc entry with
    | error e =>
      rw [foldSteps_of_error rfl hf]
      rfl
    | ok acc' =>
      rw [foldSteps_of_some rfl hf, foldSteps_of_none rfl]
      rfl

/-- A cursor that reads the key of every record takes up its entries in order, until one of them fails. -/
theorem foldSteps_scanning {limit : PrefixLength} {only : Option Domain} {rest : List (Bytes × Bytes)}
    {domain : Bytes × Bytes → Domain} (hkey : ∀ x ∈ rest, Key.domainOf limit x.1 = .ok (domain x)) (acc : β) :
    (foldSteps f acc ⟨limit, only, .scanning rest⟩).1 =
      (rest.map fun x => PrefixEntry.mk (domain x) x.2).foldlM f acc := by
  induction rest generalizing acc with
  | nil =>
    rw [foldSteps_of_none rfl]
    rfl
  | cons x rest ih =>
    have hstep : step ⟨limit, only, .scanning (x :: rest)⟩ =
        (.ok (some ⟨domain x, x.2⟩), ⟨limit, only, .scanning rest⟩) := by
      simp only [step, hkey x List.mem_cons_self]
    rw [List.map_cons, List.foldlM_cons]
    cases hx : f acc ⟨domain x, x.2⟩ with
    | error e =>
      rw [foldSteps_of_error hstep hx]
      rfl
    | ok acc' =>
      rw [foldSteps_of_some hstep hx]
      exact ih (fun y hy => hkey y (List.mem_cons_of_mem _ hy)) acc'

/-- A cursor that reads the key of every record takes up all its entries if none of them fails. -/
theorem foldSteps_of_scanning {limit : PrefixLength} {only : Option Domain} {rest : List (Bytes × Bytes)}
    {domain : Bytes × Bytes → Domain} {g : β → Bytes × Bytes → β}
    (hkey : ∀ x ∈ rest, Key.domainOf limit x.1 = .ok (domain x))
    (hf : ∀ acc, ∀ x ∈ rest, f acc ⟨domain x, x.2⟩ = .ok (g acc x)) (acc : β) :
    (foldSteps f acc ⟨limit, only, .scanning rest⟩).1 = .ok (rest.foldl g acc) := by
  rw [foldSteps_scanning hkey, List.foldlM_map]
  exact foldlM_eq_foldl hf acc

/-- A cursor over all domains stands before the records of the phrase. -/
theorem begin_seek_none {phrase : Phrase} (s : Store) (limit : PrefixLength) (hne : phrase.take limit.toNat ≠ []) :
    (seek { prefixLength := limit, domain := none } s phrase).begin s =
      ⟨limit, none, .scanning (s.scan (Key.scan (phrase.take limit.toNat)))⟩ := by
  have hempty : (phrase.take limit.toNat).isEmpty = false := by
    rwa [Bool.eq_false_iff, ne_eq, List.isEmpty_iff]
  simp only [seek, locate, hempty, Bool.false_eq_true, ↓reduceIte, begin]

/-- A cursor of one domain stands before that domain's record of the phrase. -/
theorem begin_seek_some {phrase : Phrase} (s : Store) (limit : PrefixLength) (domain : Domain)
    (hne : phrase.take limit.toNat ≠ []) :
    (seek { prefixLength := limit, domain := some domain } s phrase).begin s = ⟨limit, some domain,
      .single ((s.get? (Key.source (phrase.take limit.toNat) domain).encode).map fun value => ⟨domain, value⟩)⟩ := by
  have hempty : (phrase.take limit.toNat).isEmpty = false := by
    rwa [Bool.eq_false_iff, ne_eq, List.isEmpty_iff]
  simp only [seek, locate, hempty, Bool.false_eq_true, ↓reduceIte, begin]

end Cursor

/-- Every list of postings is counted. -/
theorem PostingList.count_ofList (ps : List Posting) : count (ofList ps).bytes = .ok ps.length := by
  rw [count_eq, decode_ofList]
  rfl

/-! ## Domain by domain -/

section Totals

variable {phrase : Phrase} {live : List Placement}

theorem length_postingsOf_singleton (p : Placement) (domain : Domain) : (postingsOf phrase domain [p]).length =
    if domain = p.1.domain then (p.1.source.occurrences phrase).length else 0 := by
  by_cases hd : p.1.domain = domain
  · simp [postingsOf, hd]
  · simp [postingsOf, hd, Ne.symm hd]

/-- The postings of all domains are the occurrences in all sentences. -/
theorem sum_length_postingsOf {domains : List Domain} (hd : domains.Nodup)
    (h : ∀ domain, domain ∉ domains → postingsOf phrase domain live = []) :
    (domains.map fun domain => (postingsOf phrase domain live).length).sum = sourceTotal phrase live := by
  induction live with
  | nil => simp [postingsOf, sourceTotal]
  | cons p live ih =>
    have hcons : ∀ domain, postingsOf phrase domain (p :: live) =
        postingsOf phrase domain [p] ++ postingsOf phrase domain live :=
        fun domain => postingsOf_append phrase domain [p] live
    have hone : (domains.map fun domain => (postingsOf phrase domain [p]).length).sum =
        (p.1.source.occurrences phrase).length := by
      simp only [length_postingsOf_singleton]
      rw [← List.sum_toFinset _ hd, Finset.sum_ite_eq']
      split
      · rfl
      · next hp =>
        have hnil := h p.1.domain (by simpa using hp)
        rw [hcons, List.append_eq_nil_iff, ← List.length_eq_zero_iff, length_postingsOf_singleton, if_pos rfl] at hnil
        exact hnil.1.symm
    have hlive := ih fun domain hn => (List.append_eq_nil_iff.1 ((hcons domain).symm.trans (h domain hn))).2
    simp only [hcons, List.length_append, List.sum_map_add, hone, hlive]
    simp [sourceTotal]

end Totals

/-! ## The answers -/

/-- The domain that the key of a source record ends with. -/
def domainAt (x : Bytes × Bytes) : Domain := Key.wordOf (x.1.drop (x.1.length - 4))

theorem domainAt_source (phrase : Phrase) (domain : Domain) (value : Bytes) :
    domainAt ((Key.source phrase domain).encode, value) = domain := by
  have hlen : (Key.source phrase domain).encode.length - 4 = (Key.scan phrase).length := by simp [Key.encode]
  rw [domainAt, hlen, Key.encode, List.drop_left, Key.wordOf_wordBytes]

namespace Store.Reflects

variable {s : Store} {limit : PrefixLength} {live all : List Placement} {deleted : DomainSet} {phrase : Phrase}
  {m : Model}

/-- A record of the phrase is the posting list of some domain. -/
theorem of_mem_scan (h : s.Reflects limit live all deleted) (hp : 1 ≤ phrase.length ∧ phrase.length ≤ limit.toNat)
    {x : Bytes × Bytes} (hx : x ∈ s.scan (Key.scan phrase)) : postingsOf phrase (domainAt x) live ≠ [] ∧
      x = ((Key.source phrase (domainAt x)).encode,
        (PostingList.ofList (postingsOf phrase (domainAt x) live)).bytes) := by
  obtain ⟨key, value⟩ := x
  obtain ⟨hstart, hv⟩ := mem_scan.1 hx
  obtain ⟨k, hk, rfl⟩ := h.wellFormed hv
  obtain ⟨domain, rfl⟩ := (Key.scan_prefix_encode_iff hp.2 hk).1 hstart
  rw [h.postings hk, PostingList.record] at hv
  split at hv
  · cases hv
  · next hne =>
    cases hv
    rw [domainAt_source]
    exact ⟨hne, rfl⟩

/-- Every domain has one record of the phrase. -/
theorem nodup_domainAt (h : s.Reflects limit live all deleted) (hp : 1 ≤ phrase.length ∧ phrase.length ≤ limit.toNat) :
    ((s.scan (Key.scan phrase)).map domainAt).Nodup := by
  have hkeys : ((s.scan (Key.scan phrase)).map (·.1)).Nodup :=
    (nodup_map_fst_toList s.index).sublist (List.Sublist.map _ List.filter_sublist)
  have hmap : ((s.scan (Key.scan phrase)).map domainAt).map (fun domain => (Key.source phrase domain).encode) =
      (s.scan (Key.scan phrase)).map (·.1) := by
    rw [List.map_map]
    apply List.map_congr_left
    intro x hx
    rw [Function.comp_apply, (h.of_mem_scan hp hx).2, domainAt_source]
  apply List.Nodup.of_map fun domain => (Key.source phrase domain).encode
  rwa [hmap]

/-- A domain without a record of the phrase has no postings. -/
theorem postingsOf_of_not_mem (h : s.Reflects limit live all deleted)
    (hp : 1 ≤ phrase.length ∧ phrase.length ≤ limit.toNat) {domain : Domain}
    (hn : domain ∉ (s.scan (Key.scan phrase)).map domainAt) : postingsOf phrase domain live = [] := by
  by_contra hne
  have hv : s.get? (Key.source phrase domain).encode =
      some (PostingList.ofList (postingsOf phrase domain live)).bytes := by
    rw [h.postings hp, PostingList.record, if_neg hne]
  exact hn (List.mem_map.2 ⟨_, mem_scan.2 ⟨List.prefix_append _ _, hv⟩, domainAt_source _ _ _⟩)

/-- The records of the phrase list its occurrences in the live sources. -/
theorem sum_scan (h : s.Reflects limit live all deleted) (hp : 1 ≤ phrase.length ∧ phrase.length ≤ limit.toNat) :
    ((s.scan (Key.scan phrase)).map fun x => (postingsOf phrase (domainAt x) live).length).sum =
      sourceTotal phrase live := by
  have hsum := sum_length_postingsOf (h.nodup_domainAt hp) fun domain hn => h.postingsOf_of_not_mem hp hn
  rwa [List.map_map] at hsum

/-- The keys of the records of a phrase are read. -/
theorem domainOf_scan (h : s.Reflects limit live all deleted) (hp : 1 ≤ phrase.length ∧ phrase.length ≤ limit.toNat) :
    ∀ x ∈ s.scan (Key.scan phrase), Key.domainOf limit x.1 = .ok (domainAt x) := by
  intro x hx
  conv_lhs => rw [(h.of_mem_scan hp hx).2]
  exact Key.domainOf_source hp

/-- The source count of an index is the number of occurrences in the live sources. -/
theorem sourceCount (h : s.Reflects m.config.prefixLength live all deleted) (h1 : 1 ≤ phrase.length)
    (hl : phrase.length ≤ m.config.prefixLength.toNat) : m.sourceCount s phrase = .ok (sourceTotal phrase live) := by
  have hwords : phrase.take m.config.prefixLength.toNat = phrase := List.take_of_length_le hl
  have hne : phrase.take m.config.prefixLength.toNat ≠ [] := by
    rw [hwords, ← List.length_pos_iff]
    exact h1
  have hcounted : ∀ total, ∀ x ∈ s.scan (Key.scan phrase),
      (do pure (total + (← (PrefixEntry.mk (domainAt x) x.2).count)) : Except Error Nat) =
        .ok (total + (postingsOf phrase (domainAt x) live).length) := by
    intro total x hx
    have hcount : PostingList.count x.2 = .ok (postingsOf phrase (domainAt x) live).length := by
      conv_lhs => rw [(h.of_mem_scan ⟨h1, hl⟩ hx).2]
      exact PostingList.count_ofList _
    rw [PrefixEntry.count, hcount]
    rfl
  have hsum := h.sum_scan ⟨h1, hl⟩
  rw [List.sum_eq_foldl, List.foldl_map] at hsum
  rw [Model.sourceCount, Cursor.countRemaining, Cursor.foldEntries, Cursor.begin_seek_none s _ hne, hwords,
    Cursor.foldSteps_of_scanning (h.domainOf_scan ⟨h1, hl⟩) hcounted 0, hsum]

/-- The target count of an index is the number of occurrences in all targets, as long as it fits. -/
theorem targetCount (h : s.Reflects limit live all deleted) (h1 : 1 ≤ phrase.length) (hl : phrase.length ≤ limit.toNat)
    (hb : targetTotal phrase all < 2 ^ 63) : Model.targetCount s phrase = .ok (targetTotal phrase all) := by
  have hv : s.get? (Key.target phrase).encode = Count.record (targetTotal phrase all) := h.counts ⟨h1, hl⟩
  by_cases h0 : targetTotal phrase all = 0
  · rw [Count.record, if_pos h0] at hv
    rw [Model.targetCount, hv, h0]
  · rw [Count.record, if_neg h0] at hv
    have hint : (Int64.ofNat (targetTotal phrase all)).toInt = targetTotal phrase all := Int64.toInt_ofNat_of_lt hb
    rw [Model.targetCount, hv]
    simp only [Count.decode_encode]
    rw [map_eq_ok_iff]
    exact ⟨_, rfl, by rw [hint, Int.toNat_natCast]⟩

end Store.Reflects

end PhraseIndex
