import Mathlib.Algebra.GroupWithZero.Nat
import PhraseIndex.Fragments
import PhraseIndex.Proofs.Commit
import PhraseIndex.Proofs.Keys

/-!
# What a batch of sentences merges into the index

A phrase of an admissible length is a window of a sentence as often as it occurs in it, and its windows come in the
order of the occurrences (`Sentence.starts_windows`). So the one operand that a batch has for a source key are the
postings of its sentences (`Fragments.valuesOf_merges_source`), and the one for a target key is the number of
occurrences (`Fragments.valuesOf_merges_target`); a key that is neither has none (`Fragments.wellFormed_of_merges`).
-/

namespace PhraseIndex

/-- A sentence pair and its offset in the corpus. -/
abbrev Placement := SentencePair × Offset

namespace Sentence

variable {limit : Nat} {phrase : Phrase}

/-! ## Windows and occurrences -/

/-- The positions of the windows that hold the phrase. -/
def startsOf (phrase : Phrase) (ws : List (Nat × Phrase)) : List Nat := (ws.filter (·.2 == phrase)).map (·.1)

theorem startsOf_append (ws vs : List (Nat × Phrase)) :
    startsOf phrase (ws ++ vs) = startsOf phrase ws ++ startsOf phrase vs := by
  simp [startsOf]

/-- Among the heads of a sentence a phrase stands once, if the sentence begins with it, or not at all. -/
theorem filter_heads (s : Sentence) (h1 : 1 ≤ phrase.length) (hl : phrase.length ≤ limit) :
    (heads limit s).filter (· == phrase) = if phrase.isPrefixOf s then [phrase] else [] := by
  have hmem : ∀ i, i < (s.take limit).length →
      ((s.take (i + 1) == phrase) = (i == phrase.length - 1 && phrase.isPrefixOf s)) := by
    intro i hi
    rw [List.length_take] at hi
    rw [Bool.eq_iff_iff, beq_iff_eq, Bool.and_eq_true, beq_iff_eq, List.isPrefixOf_iff_prefix]
    constructor
    · rintro rfl
      refine ⟨?_, List.take_prefix _ _⟩
      rw [List.length_take]
      omega
    · rintro ⟨rfl, hp⟩
      rw [Nat.sub_add_cancel h1]
      exact (List.prefix_iff_eq_take.1 hp).symm
  unfold heads
  rw [List.filter_map]
  have hfilter : (List.range (s.take limit).length).filter ((· == phrase) ∘ fun i => s.take (i + 1)) =
      (List.range (s.take limit).length).filter fun i => i == phrase.length - 1 && phrase.isPrefixOf s := by
    apply List.filter_congr
    intro i hi
    exact hmem i (List.mem_range.1 hi)
  rw [hfilter]
  cases hp : phrase.isPrefixOf s with
  | false => simp
  | true =>
    have hpre : phrase <+: s := List.isPrefixOf_iff_prefix.1 hp
    have hle := hpre.length_le
    have hlt : phrase.length - 1 < (s.take limit).length := by
      rw [List.length_take]
      omega
    have hone : (List.range (s.take limit).length).filter (fun i => i == phrase.length - 1) = [phrase.length - 1] := by
      rw [List.filter_beq, List.count_eq_one_of_mem List.nodup_range (List.mem_range.2 hlt)]
      rfl
    simp only [Bool.and_true, hone, List.map_cons, List.map_nil, ↓reduceIte, Nat.sub_add_cancel h1]
    rw [← List.prefix_iff_eq_take.1 hpre]

theorem startsOf_heads (s : Sentence) (start : Nat) (h1 : 1 ≤ phrase.length) (hl : phrase.length ≤ limit) :
    startsOf phrase ((heads limit s).map (start, ·)) = if phrase.isPrefixOf s then [start] else [] := by
  have hf := filter_heads s h1 hl
  simp only [startsOf, List.filter_map, List.map_map]
  change ((heads limit s).filter (· == phrase)).map (fun _ => start) = _
  rw [hf]
  split <;> rfl

theorem startsOf_windowsFrom (s : Sentence) (start : Nat) (h1 : 1 ≤ phrase.length) (hl : phrase.length ≤ limit) :
    startsOf phrase (windowsFrom limit start s) = ((List.range s.length).filter (s.hasAt phrase)).map (start + ·) := by
  induction s generalizing start with
  | nil => rfl
  | cons w rest ih =>
    rw [windowsFrom, startsOf_append, startsOf_heads _ _ h1 hl, ih, List.length_cons, List.range_succ_eq_map,
      List.filter_cons, List.filter_map]
    have hshift : (hasAt (w :: rest) phrase ∘ Nat.succ) = hasAt rest phrase := rfl
    have h0 : hasAt (w :: rest) phrase 0 = phrase.isPrefixOf (w :: rest) := rfl
    rw [hshift, h0]
    have hmap : (fun i => start + 1 + i) = fun i => start + Nat.succ i := by
      funext i
      omega
    split <;> simp [hmap, Function.comp_def]

/-- The windows that hold a phrase are its occurrences, in order. -/
theorem starts_windows (s : Sentence) (h1 : 1 ≤ phrase.length) (hl : phrase.length ≤ limit) :
    startsOf phrase (s.windows limit) = s.occurrences phrase := by
  have hend : s.hasAt phrase s.length = false := by
    unfold hasAt
    cases phrase with
    | nil => simp at h1
    | cons w p => simp
  rw [windows, startsOf_windowsFrom s 0 h1 hl, occurrences, List.range_succ, List.filter_append]
  simp [hend]

/-- Windows are no longer than the limit and have at least one word. -/
theorem length_of_mem_windowsFrom {s : Sentence} {start i : Nat} {p : Phrase}
    (h : (i, p) ∈ windowsFrom limit start s) : 1 ≤ p.length ∧ p.length ≤ limit := by
  induction s generalizing start with
  | nil => cases h
  | cons w rest ih =>
    rw [windowsFrom, List.mem_append] at h
    rcases h with h | h
    · simp only [heads, List.map_map, List.mem_map, List.mem_range, Function.comp_apply, Prod.mk.injEq] at h
      obtain ⟨j, hj, -, rfl⟩ := h
      rw [List.length_take] at hj ⊢
      simp only [List.length_cons] at hj ⊢
      omega
    · exact ih h

theorem mem_occurrences {s : Sentence} {start : Nat} :
    start ∈ s.occurrences phrase ↔ start ≤ s.length ∧ phrase <+: s.drop start := by
  rw [occurrences, List.mem_filter, List.mem_range, Nat.lt_succ_iff, hasAt, List.isPrefixOf_iff_prefix]

/-- Occurrences come in increasing order. -/
theorem occurrences_pairwise (s : Sentence) (phrase : Phrase) : (s.occurrences phrase).Pairwise (· < ·) :=
  List.pairwise_lt_range.filter _

end Sentence

/-! ## Postings and counts of placed sentences -/

/-- The postings of a phrase in a domain, sentence by sentence. -/
def postingsOf (phrase : Phrase) (domain : Domain) (placed : List Placement) : List Posting :=
  (placed.filter (·.1.domain == domain)).flatMap fun (pair, offset) =>
    (pair.source.occurrences phrase).map fun start => ⟨domain, offset, UInt16.ofNat start⟩

/-- How often a phrase occurs in the targets. -/
def targetTotal (phrase : Phrase) (placed : List Placement) : Nat :=
  (placed.map fun p => (p.1.target.occurrences phrase).length).sum

/-- How often a phrase occurs in the sources. -/
def sourceTotal (phrase : Phrase) (placed : List Placement) : Nat :=
  (placed.map fun p => (p.1.source.occurrences phrase).length).sum

@[simp] theorem postingsOf_append (phrase : Phrase) (domain : Domain) (ps qs : List Placement) :
    postingsOf phrase domain (ps ++ qs) = postingsOf phrase domain ps ++ postingsOf phrase domain qs := by
  simp [postingsOf]

@[simp] theorem targetTotal_append (phrase : Phrase) (ps qs : List Placement) :
    targetTotal phrase (ps ++ qs) = targetTotal phrase ps + targetTotal phrase qs := by
  simp [targetTotal]

/-- What the index keeps of a list of postings: no record rather than an empty one. -/
def PostingList.record (ps : List Posting) : Option Bytes := if ps = [] then none else some (ofList ps).bytes

/-- What the index keeps of a number of occurrences: no record of none. -/
def Count.record (n : Nat) : Option Bytes := if n = 0 then none else some (encode (Int64.ofNat n))

namespace Fragments

variable {limit : PrefixLength} {phrase : Phrase} {domain : Domain}

/-! ## The entries of a batch -/

/-- The postings that a sentence adds, each under its key. -/
def postingEntries (limit : PrefixLength) (p : Placement) : List (Bytes × Posting) :=
  (p.1.source.windows limit.toNat).map fun (start, phrase) =>
    ((Key.source phrase p.1.domain).encode, ⟨p.1.domain, p.2, UInt16.ofNat start⟩)

/-- The target keys that a sentence adds to, once for each occurrence. -/
def targetKeys (limit : PrefixLength) (p : Placement) : List Bytes :=
  (p.1.target.windows limit.toNat).map fun (_, phrase) => (Key.target phrase).encode

/-- The keys of windows are well formed. -/
theorem wellFormed_of_mem_windows {s : Sentence} {start : Nat} {p : Phrase} (domain : Domain)
    (h : (start, p) ∈ s.windows limit.toNat) :
    (Key.source p domain).WellFormed limit ∧ (Key.target p).WellFormed limit :=
  ⟨Sentence.length_of_mem_windowsFrom h, Sentence.length_of_mem_windowsFrom h⟩

theorem mem_postingEntries {p : Placement} {key : Bytes} {x : Posting} (h : (key, x) ∈ postingEntries limit p) :
    ∃ phrase, (Key.source phrase p.1.domain).WellFormed limit ∧ (Key.source phrase p.1.domain).encode = key := by
  obtain ⟨⟨start, phrase⟩, hw, he⟩ := List.mem_map.1 h
  simp only [Prod.mk.injEq] at he
  exact ⟨phrase, (wellFormed_of_mem_windows _ hw).1, he.1⟩

theorem mem_targetKeys {p : Placement} {key : Bytes} (h : key ∈ targetKeys limit p) :
    ∃ phrase, (Key.target phrase).WellFormed limit ∧ (Key.target phrase).encode = key := by
  obtain ⟨⟨start, phrase⟩, hw, rfl⟩ := List.mem_map.1 h
  exact ⟨phrase, (wellFormed_of_mem_windows 0 hw).2, rfl⟩

/-- Under a source key a sentence of the domain adds the postings of its occurrences, another sentence none. -/
theorem valuesOf_postingEntries (p : Placement) (hk : (Key.source phrase domain).WellFormed limit) :
    valuesOf (postingEntries limit p) (Key.source phrase domain).encode = postingsOf phrase domain [p] := by
  obtain ⟨pair, offset⟩ := p
  have hmatch : ∀ w ∈ pair.source.windows limit.toNat,
      (((Key.source w.2 pair.domain).encode == (Key.source phrase domain).encode) =
        (w.2 == phrase && pair.domain == domain)) := by
    intro w hw
    have hwf := (wellFormed_of_mem_windows pair.domain hw).1
    rw [Bool.eq_iff_iff, beq_iff_eq, Bool.and_eq_true, beq_iff_eq, beq_iff_eq]
    constructor
    · intro he
      have := Key.encode_inj hwf hk he
      simpa using this
    · rintro ⟨h1, h2⟩
      rw [h1, h2]
  have hvalues : valuesOf (postingEntries limit (pair, offset)) (Key.source phrase domain).encode =
      ((pair.source.windows limit.toNat).filter (fun w => w.2 == phrase && pair.domain == domain)).map
        fun w => ⟨pair.domain, offset, UInt16.ofNat w.1⟩ := by
    simp only [valuesOf, postingEntries, List.filter_map, List.map_map]
    rw [← List.filter_congr hmatch]
    rfl
  rw [hvalues, postingsOf]
  by_cases hd : pair.domain = domain
  · subst hd
    have hs := Sentence.starts_windows pair.source hk.1 hk.2
    simp only [Sentence.startsOf] at hs
    simp [← hs]
  · simp [hd]

theorem count_targetKeys (p : Placement) (hk : (Key.target phrase).WellFormed limit) :
    (targetKeys limit p).count (Key.target phrase).encode = (p.1.target.occurrences phrase).length := by
  have hmatch : ∀ w ∈ p.1.target.windows limit.toNat,
      ((Key.target w.2).encode == (Key.target phrase).encode) = (w.2 == phrase) := by
    intro w hw
    have hwf := (wellFormed_of_mem_windows 0 hw).2
    rw [Bool.eq_iff_iff, beq_iff_eq, beq_iff_eq]
    constructor
    · intro he
      simpa using Key.encode_inj hwf hk he
    · intro h
      rw [h]
  have hs := Sentence.starts_windows p.1.target hk.1 hk.2
  rw [← hs, Sentence.startsOf, List.length_map, targetKeys, List.count, List.countP_map, List.countP_eq_length_filter]
  exact congrArg List.length (List.filter_congr hmatch)

/-! ## The maps of a batch -/

/-- Adds entries to the posting lists, each at the front of its list. -/
def addEntries (m : Std.ExtTreeMap Bytes (List Posting)) (es : List (Bytes × Posting)) :
    Std.ExtTreeMap Bytes (List Posting) :=
  es.foldl (fun m (key, p) => m.alter key fun ps => some (p :: ps.getD [])) m

def addKeys (m : Std.ExtTreeMap Bytes Nat) (keys : List Bytes) : Std.ExtTreeMap Bytes Nat :=
  keys.foldl (fun m key => m.alter key fun n => some (n.getD 0 + 1)) m

theorem getElem?_addEntries (es : List (Bytes × Posting)) (key : Bytes) :
    (addEntries ∅ es)[key]? = if valuesOf es key = [] then none else some (valuesOf es key).reverse := by
  have h := getElem?_foldr_alter es.reverse key
  rw [List.foldr_reverse, valuesOf_reverse] at h
  exact h.trans (if_congr List.reverse_eq_nil_iff rfl rfl)

theorem getElem?_addKeys (m : Std.ExtTreeMap Bytes Nat) (keys : List Bytes) (key : Bytes) :
    (addKeys m keys)[key]? = if key ∈ keys then some (m[key]?.getD 0 + keys.count key) else m[key]? := by
  induction keys generalizing m with
  | nil => simp [addKeys]
  | cons k keys ih =>
    change (addKeys (m.alter k fun n => some (n.getD 0 + 1)) keys)[key]? = _
    rw [ih, Std.ExtTreeMap.getElem?_alter, List.count_cons]
    by_cases hk : k = key
    · subst hk
      by_cases hm : k ∈ keys
      · simp [hm]
        omega
      · simp [hm, List.count_eq_zero_of_not_mem hm]
    · simp [hk, Ne.symm hk]

theorem foldWindows_addPosting (f : Fragments) (p : Placement) :
    p.1.source.foldWindows limit.toNat (fun (f : Fragments) start phrase =>
      f.addPosting (Key.source phrase p.1.domain).encode ⟨p.1.domain, p.2, UInt16.ofNat start⟩) 0 f =
      { f with postings := addEntries f.postings (postingEntries limit p) } := by
  rw [Sentence.foldWindows_eq]
  change List.foldl _ f (p.1.source.windows limit.toNat) = _
  unfold postingEntries
  generalize p.1.source.windows limit.toNat = ws
  induction ws generalizing f with
  | nil => rfl
  | cons w ws ih =>
    rw [List.foldl_cons, ih]
    rfl

theorem foldWindows_addOccurrence (f : Fragments) (p : Placement) :
    p.1.target.foldWindows limit.toNat
        (fun (f : Fragments) _ phrase => f.addOccurrence (Key.target phrase).encode) 0 f =
      { f with occurrences := addKeys f.occurrences (targetKeys limit p) } := by
  rw [Sentence.foldWindows_eq]
  change List.foldl _ f (p.1.target.windows limit.toNat) = _
  unfold targetKeys
  generalize p.1.target.windows limit.toNat = ws
  induction ws generalizing f with
  | nil => rfl
  | cons w ws ih =>
    rw [List.foldl_cons, ih]
    rfl

theorem foldl_addPair (placed : List Placement) (f : Fragments) :
    placed.foldl (fun f (pair, offset) => f.addPair limit pair offset) f =
      { postings := addEntries f.postings (placed.flatMap (postingEntries limit))
        occurrences := addKeys f.occurrences (placed.flatMap (targetKeys limit)) } := by
  induction placed generalizing f with
  | nil => rfl
  | cons p placed ih =>
    obtain ⟨pair, offset⟩ := p
    have hp : f.addPair limit pair offset =
        { postings := addEntries f.postings (postingEntries limit (pair, offset))
          occurrences := addKeys f.occurrences (targetKeys limit (pair, offset)) } := by
      unfold addPair
      dsimp only
      rw [foldWindows_addPosting f (pair, offset), foldWindows_addOccurrence _ (pair, offset)]
    rw [List.foldl_cons, ih]
    dsimp only
    rw [hp, List.flatMap_cons, List.flatMap_cons]
    simp [addEntries, addKeys]

theorem getElem?_postings_ofPairs (placed : List Placement) (hk : (Key.source phrase domain).WellFormed limit) :
    (ofPairs limit placed).postings[(Key.source phrase domain).encode]? =
      if postingsOf phrase domain placed = [] then none else some (postingsOf phrase domain placed).reverse := by
  have hv : valuesOf (placed.flatMap (postingEntries limit)) (Key.source phrase domain).encode =
      postingsOf phrase domain placed := by
    induction placed with
    | nil => rfl
    | cons p placed ih =>
      have hs : postingsOf phrase domain (p :: placed) =
          postingsOf phrase domain [p] ++ postingsOf phrase domain placed :=
        postingsOf_append phrase domain [p] placed
      rw [List.flatMap_cons, valuesOf_append, ih, valuesOf_postingEntries p hk, hs]
  rw [ofPairs, foldl_addPair]
  change (addEntries ∅ _)[_]? = _
  rw [getElem?_addEntries, hv]

theorem getElem?_occurrences_ofPairs (placed : List Placement) (hk : (Key.target phrase).WellFormed limit) :
    (ofPairs limit placed).occurrences[(Key.target phrase).encode]? =
      if targetTotal phrase placed = 0 then none else some (targetTotal phrase placed) := by
  have hc : (placed.flatMap (targetKeys limit)).count (Key.target phrase).encode = targetTotal phrase placed := by
    induction placed with
    | nil => rfl
    | cons p placed ih =>
      have hs : targetTotal phrase (p :: placed) = targetTotal phrase [p] + targetTotal phrase placed :=
        targetTotal_append phrase [p] placed
      have h1 : targetTotal phrase [p] = (p.1.target.occurrences phrase).length := by simp [targetTotal]
      rw [List.flatMap_cons, List.count_append, ih, count_targetKeys p hk, hs, h1]
  rw [ofPairs, foldl_addPair]
  change (addKeys ∅ _)[_]? = _
  rw [getElem?_addKeys, hc]
  have hpos : (Key.target phrase).encode ∈ placed.flatMap (targetKeys limit) ↔ ¬targetTotal phrase placed = 0 := by
    rw [← hc, List.count_eq_zero, not_not]
  by_cases h0 : targetTotal phrase placed = 0
  · have := mt hpos.1 (not_not.2 h0)
    simp [this, h0]
  · have := hpos.2 h0
    simp [this, h0]

/-- A key of the posting lists is a well-formed source key. -/
theorem isSome_postings_ofPairs {placed : List Placement} {key : Bytes}
    (h : (ofPairs limit placed).postings[key]?.isSome) :
    ∃ phrase domain, (Key.source phrase domain).WellFormed limit ∧ (Key.source phrase domain).encode = key := by
  rw [ofPairs, foldl_addPair] at h
  change (addEntries ∅ _)[_]?.isSome at h
  rw [getElem?_addEntries] at h
  split at h
  · cases h
  · next hne =>
    obtain ⟨x, hx⟩ := List.exists_mem_of_ne_nil _ hne
    obtain ⟨p, -, hp⟩ := List.mem_flatMap.1 (mem_valuesOf.1 hx)
    obtain ⟨phrase, hphrase⟩ := mem_postingEntries hp
    exact ⟨phrase, _, hphrase⟩

/-- A key of the counts is a well-formed target key. -/
theorem isSome_occurrences_ofPairs {placed : List Placement} {key : Bytes}
    (h : (ofPairs limit placed).occurrences[key]?.isSome) :
    ∃ phrase, (Key.target phrase).WellFormed limit ∧ (Key.target phrase).encode = key := by
  rw [ofPairs, foldl_addPair] at h
  change (addKeys ∅ _)[_]?.isSome at h
  rw [getElem?_addKeys] at h
  split at h
  · next hmem =>
    obtain ⟨p, -, hp⟩ := List.mem_flatMap.1 hmem
    exact mem_targetKeys hp
  · cases h

/-! ## The operands of a batch -/

theorem valuesOf_merges (f : Fragments) (key : Bytes) :
    valuesOf f.merges key =
      f.postings[key]?.toList.map (fun ps => (PostingList.ofList ps.reverse).bytes) ++
        f.occurrences[key]?.toList.map fun n => Count.encode (Int64.ofNat n) := by
  rw [merges, valuesOf_append, ← valuesOf_toList, ← valuesOf_toList, ← valuesOf_map, ← valuesOf_map]

theorem valuesOf_merges_source (placed : List Placement) (hk : (Key.source phrase domain).WellFormed limit) :
    valuesOf (ofPairs limit placed).merges (Key.source phrase domain).encode =
      (PostingList.record (postingsOf phrase domain placed)).toList := by
  have hnone : (ofPairs limit placed).occurrences[(Key.source phrase domain).encode]? = none := by
    rw [← Option.not_isSome_iff_eq_none]
    intro h
    obtain ⟨q, -, he⟩ := isSome_occurrences_ofPairs h
    cases Key.kind_eq_of_encode_eq he
  rw [valuesOf_merges, hnone, getElem?_postings_ofPairs placed hk, PostingList.record]
  split <;> simp

theorem valuesOf_merges_target (placed : List Placement) (hk : (Key.target phrase).WellFormed limit) :
    valuesOf (ofPairs limit placed).merges (Key.target phrase).encode =
      (Count.record (targetTotal phrase placed)).toList := by
  have hnone : (ofPairs limit placed).postings[(Key.target phrase).encode]? = none := by
    rw [← Option.not_isSome_iff_eq_none]
    intro h
    obtain ⟨q, d, -, he⟩ := isSome_postings_ofPairs h
    cases Key.kind_eq_of_encode_eq he
  rw [valuesOf_merges, hnone, getElem?_occurrences_ofPairs placed hk, Count.record]
  split <;> simp

/-- Operands go to well-formed keys of phrases. -/
theorem wellFormed_of_merges {placed : List Placement} {key : Bytes}
    (h : valuesOf (ofPairs limit placed).merges key ≠ []) :
    ∃ k : Key, k.WellFormed limit ∧ k.encode = key ∧ (k.kind = .source ∨ k.kind = .target) := by
  rw [valuesOf_merges] at h
  cases hp : (ofPairs limit placed).postings[key]? with
  | some ps =>
    obtain ⟨phrase, domain, hk, he⟩ := isSome_postings_ofPairs (Option.isSome_of_eq_some hp)
    exact ⟨_, hk, he, .inl rfl⟩
  | none =>
    cases ho : (ofPairs limit placed).occurrences[key]? with
    | some n =>
      obtain ⟨phrase, hk, he⟩ := isSome_occurrences_ofPairs (Option.isSome_of_eq_some ho)
      exact ⟨_, hk, he, .inr rfl⟩
    | none => simp [hp, ho] at h

end Fragments

end PhraseIndex
