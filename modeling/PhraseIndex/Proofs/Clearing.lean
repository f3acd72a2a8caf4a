import PhraseIndex.Proofs.Sweeping

/-!
# A sweep is exact

`Store.Clears` says what a sweep comes to: the postings and the markers of the domains are gone, and every other record
is as it was. There is one such index only (`Store.Clears.unique`), so the size of the commits cannot be seen in it:
a sweep of an index whose source keys are well formed ends there whatever the size is (`Sweeper.sweep_exact`).
-/

namespace PhraseIndex

/-! ## The records of domains -/

/-- The domain that a record belongs to. -/
def Key.domain? : Key → Option Domain
  | source _ domain | deletion domain => some domain
  | streams | manifest | target _ => none

/-- The key is that of postings or of the marker of one of the domains. -/
def Key.Among (limit : PrefixLength) (domains : DomainSet) (key : Bytes) : Prop :=
  ∃ k : Key, k.WellFormed limit ∧ k.encode = key ∧ ∃ domain ∈ domains, k.domain? = some domain

/-- The source keys of the index are well formed. -/
def Store.Addressed (s : Store) (limit : PrefixLength) : Prop :=
  ∀ key ∈ s.keysOf .source, ∃ phrase domain,
    (Key.source phrase domain).WellFormed limit ∧ (Key.source phrase domain).encode = key

/-- The second index is the first one without the records of the domains. -/
structure Store.Clears (limit : PrefixLength) (domains : DomainSet) (s s' : Store) : Prop where
  pinned : s'.prefixLength = s.prefixLength
  gone {key : Bytes} : Key.Among limit domains key → s'.get? key = none
  kept {key : Bytes} : ¬Key.Among limit domains key → s'.get? key = s.get? key

variable {limit : PrefixLength} {domains : DomainSet} {domain : Domain} {phrase : Phrase} {key : Bytes}
  {s s' s₁ s₂ : Store} {w : Sweeper}

namespace Key

theorem among_source (hk : (source phrase domain).WellFormed limit) :
    Among limit domains (source phrase domain).encode ↔ domain ∈ domains := by
  constructor
  · rintro ⟨k, hwf, he, d, hd, hdom⟩
    rw [encode_inj hwf hk he] at hdom
    cases hdom
    exact hd
  · intro hd
    exact ⟨_, hk, rfl, domain, hd, rfl⟩

end Key

namespace Store

/-- Source keys are well formed if they can be read. -/
theorem addressed_iff : s.Addressed limit ↔ Sweeper.Readable limit (s.keysOf .source) := by
  constructor
  · intro h key hkey
    obtain ⟨phrase, domain, hk, rfl⟩ := h key hkey
    exact ⟨domain, Key.domainOf_source hk⟩
  · intro h key hkey
    obtain ⟨domain, hdom⟩ := h key hkey
    obtain ⟨phrase, hk, he⟩ := Key.exists_source_of_domainOf (Store.mem_keysOf.1 hkey).1 hdom
    exact ⟨phrase, domain, hk, he⟩

/-- Source keys are well formed if they are those of some phrases of an indexed length. -/
theorem addressed_of_keysOf {places : List (Phrase × Domain)}
    (hkeys : s.keysOf .source = places.map fun x => (Key.source x.1 x.2).encode)
    (hplaces : ∀ x ∈ places, 1 ≤ x.1.length ∧ x.1.length ≤ limit.toNat) : s.Addressed limit := by
  intro key hkey
  rw [hkeys] at hkey
  obtain ⟨x, hx, rfl⟩ := List.mem_map.1 hkey
  exact ⟨x.1, x.2, hplaces x hx, rfl⟩

/-- What is cleared of domains is determined. -/
theorem Clears.unique (h₁ : s.Clears limit domains s₁) (h₂ : s.Clears limit domains s₂) : s₁ = s₂ := by
  apply ext_get? (h₁.pinned.trans h₂.pinned.symm)
  intro key
  by_cases hk : Key.Among limit domains key
  · rw [h₁.gone hk, h₂.gone hk]
  · rw [h₁.kept hk, h₂.kept hk]

end Store

namespace Sweeper

/-! ## What a sweep removes -/

/-- The records of the domains are those under a well-formed source key of one of them. -/
theorem doomed_iff : Doomed limit domains key ↔
    ∃ phrase, ∃ domain ∈ domains, (Key.source phrase domain).WellFormed limit ∧
    (Key.source phrase domain).encode = key := by
  constructor
  · rintro ⟨hkind, domain, hd, hdom⟩
    obtain ⟨phrase, hk, he⟩ := Key.exists_source_of_domainOf hkind hdom
    exact ⟨phrase, domain, hd, hk, he⟩
  · rintro ⟨phrase, domain, hd, hk, rfl⟩
    exact ⟨Key.kindOf?_encode _, domain, hd, Key.domainOf_source hk⟩

/-- A sweep removes the records and the markers of the domains. -/
theorem purged_iff : Purged limit domains key ↔ Key.Among limit domains key := by
  constructor
  · rintro (hdoomed | ⟨domain, hd, rfl⟩)
    · obtain ⟨phrase, domain, hd, hk, rfl⟩ := doomed_iff.1 hdoomed
      exact ⟨_, hk, rfl, domain, hd, rfl⟩
    · exact ⟨.deletion domain, trivial, rfl, domain, hd, rfl⟩
  · rintro ⟨k, hk, rfl, d, hd, hdom⟩
    cases k with
    | source phrase domain =>
      cases hdom
      exact (purged_source hk).2 hd
    | deletion domain =>
      cases hdom
      exact purged_marker.2 hd
    | streams | manifest | target => cases hdom

/-- The source records of the domains are those that are missing afterwards. -/
theorem recordsOf_eq (h : s.Addressed limit) (hc : s.Clears limit domains s') :
    recordsOf limit domains s = (s.keysOf .source).filter fun key => (s'.get? key).isNone := by
  apply List.filter_congr
  intro key hkey
  have hs := (Store.mem_keysOf.1 hkey).2
  obtain ⟨phrase, domain, hk, rfl⟩ := h key hkey
  rw [Bool.eq_iff_iff, belongs_iff, Key.domainOf_source hk]
  by_cases hd : domain ∈ domains
  · rw [hc.gone ((Key.among_source hk).2 hd)]
    simpa using hd
  · rw [hc.kept (mt (Key.among_source hk).1 hd), Option.isNone_iff_eq_none]
    simp [hd, Option.isSome_iff_ne_none.1 hs]

/-! ## The result of a sweep -/

/-- A sweep over well-formed source keys comes to its end at the index that is cleared of the pending domains. -/
theorem exists_clears (h : s.Addressed w.prefixLength) (hb : 0 < w.batchSize) :
    ∃ s', s.Clears w.prefixLength w.pending s' ∧ w.sweep s = (.ok (w.report s), { w with pending := ∅ }, s') := by
  obtain ⟨s', hs, hl, hgone, hrest⟩ := sweep_of_readable (Store.addressed_iff.1 h) hb
  exact ⟨s', ⟨hl, fun hk => hgone _ (purged_iff.2 hk), fun hk => hrest _ (mt purged_iff.1 hk)⟩, hs⟩

/-- A sweep is exact. If the source keys are well formed, a sweep ends in the index without the postings and markers
of the pending domains, for every size of its commits, and tells how many postings went. The commits before the last one
remove each of them once, no commit is empty and none is too large. -/
theorem sweep_exact (limit : PrefixLength) (domains : DomainSet) (s : Store) (h : s.Addressed limit) :
    ∃ s', s.Clears limit domains s' ∧ ∀ (batch : Nat) (stopped : Bool),
      let w : Sweeper := { prefixLength := limit, batchSize := max batch 1, pending := domains, stopped }
      let removed := (s.keysOf .source).filter fun key => (s'.get? key).isNone
      w.sweep s =
        (.ok (if domains.isEmpty then {}
          else ⟨domains.size, removed.length, (removed.length + max batch 1 - 1) / max batch 1 + 1⟩),
          { w with pending := ∅ }, s') ∧
      (w.plan domains s).1.flatten = removed ∧
      ∀ before piece, before ++ [piece] <+: (w.plan domains s).1 → ∃ stats next,
        (removeAll s before).2.commit (removal piece) = .ok (stats, next) ∧
        1 ≤ stats.removes ∧ stats.removes ≤ max batch 1 := by
  obtain ⟨s', hclear, -⟩ :=
    exists_clears (w := { prefixLength := limit, batchSize := 1, pending := domains }) h Nat.one_pos
  refine ⟨s', hclear, ?_⟩
  intro batch stopped w removed
  have hb : 0 < w.batchSize := Nat.lt_of_lt_of_le Nat.one_pos (Nat.le_max_right batch 1)
  obtain ⟨s₁, hclear₁, hs⟩ := exists_clears (w := w) h hb
  obtain ⟨pieces, hplan, hflatten, -, hsizes⟩ := plan_of_readable (w := w) domains (Store.addressed_iff.1 h) hb
  have hremoved : recordsOf limit domains s = removed := recordsOf_eq h hclear
  rw [hplan]
  refine ⟨?_, hflatten.trans hremoved, ?_⟩
  · rw [hs, hclear₁.unique hclear, report, ← hremoved]
  · intro before piece hcut
    obtain ⟨stats, next, hc⟩ := Store.exists_commit_removes (removeAll s before).2 piece
    refine ⟨stats, next, hc, ?_⟩
    rw [Store.removes_commit hc]
    exact hsizes piece (hcut.subset (List.mem_append_right _ List.mem_cons_self))

/-- A phrase that two domains share, a longer one of the first domain only, its marker, and a record of a later kind. -/
def sharedPhrase : Store where
  index := Store.putAll ∅ [((Key.source [7] 1).encode, [1]), ((Key.source [7] 2).encode, [2]),
    ((Key.source [8] 1).encode, [3]), ((Key.source [7, 8] 1).encode, [4]), ((Key.target [7]).encode, [5]),
    (marker 1, []), ([9, 9], [6])]

theorem addressed_sharedPhrase : sharedPhrase.Addressed 4 := by
  have hkeys : sharedPhrase.keysOf .source =
      [([7], 1), ([7], 2), ([8], 1), ([7, 8], 1)].map fun x => (Key.source x.1 x.2).encode := by decide +kernel
  exact Store.addressed_of_keysOf hkeys (by decide)

theorem sweep_exact_sharedPhrase : ∃ s', sharedPhrase.Clears 4 {1} s' ∧
    sweep { prefixLength := 4, batchSize := 2, pending := {1} } sharedPhrase =
      (.ok ⟨1, 3, 3⟩, { prefixLength := 4, batchSize := 2 }, s') ∧
    sweep { prefixLength := 4, batchSize := 1, pending := {1} } sharedPhrase =
      (.ok ⟨1, 3, 4⟩, { prefixLength := 4, batchSize := 1 }, s') := by
  obtain ⟨s', hclear, hsweep⟩ := sweep_exact 4 {1} sharedPhrase addressed_sharedPhrase
  have hthree : ((sharedPhrase.keysOf .source).filter fun key => (s'.get? key).isNone).length = 3 := by
    rw [← recordsOf_eq addressed_sharedPhrase hclear]
    decide +kernel
  obtain ⟨htwo, -⟩ := hsweep 2 false
  obtain ⟨hone, -⟩ := hsweep 0 false
  rw [hthree] at htwo hone
  exact ⟨s', hclear, htwo, hone⟩

end Sweeper

end PhraseIndex
