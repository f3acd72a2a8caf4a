import PhraseIndex.Proofs.Clearing

/-!
# Sweeps that stop on the way

A sweep stops before its last commit because the process ends or because a key cannot be read (`Sweeper.Stops`). Until
then it has removed postings of the pending domains only (`Store.Thinned`); the markers go last. So a sweeper that is
made afterwards waits for the same domains, and its sweep ends where the first one would have
(`Sweeper.resumes_of_stops`).
-/

namespace PhraseIndex

variable {limit : PrefixLength} {domains : DomainSet} {s s' last : Store} {w w' : Sweeper} {batch : Nat}

/-! ## An index in the middle of a sweep -/

/-- The second index is the first one without some of the postings of the domains. -/
structure Store.Thinned (limit : PrefixLength) (domains : DomainSet) (s s' : Store) : Prop where
  pinned : s'.prefixLength = s.prefixLength
  records (key : Bytes) : s'.get? key = s.get? key ∨ s'.get? key = none ∧ Sweeper.Doomed limit domains key

namespace Store.Thinned

/-- Records of other kinds stay. -/
theorem get?_eq (h : s.Thinned limit domains s') {key : Bytes} (hk : Key.kindOf? key ≠ some .source) :
    s'.get? key = s.get? key :=
  (h.records key).resolve_right fun hdoomed => hk hdoomed.2.1

theorem addressed (h : s.Thinned limit domains s') (ha : s.Addressed limit) : s'.Addressed limit := by
  intro key hkey
  obtain ⟨hkind, hsome⟩ := mem_keysOf.1 hkey
  refine ha key (mem_keysOf.2 ⟨hkind, ?_⟩)
  rcases h.records key with he | ⟨hn, -⟩
  · rwa [← he]
  · rw [hn] at hsome
    cases hsome

/-- Clearing the rest clears the whole. -/
theorem clears (h : s.Thinned limit domains s') (hc : s'.Clears limit domains last) : s.Clears limit domains last where
  pinned := hc.pinned.trans h.pinned
  gone := hc.gone
  kept {key} hk := by
    rw [hc.kept hk]
    exact (h.records key).resolve_right fun hdoomed => hk (Sweeper.purged_iff.1 (.inl hdoomed.2))

/-- The markers are read as before. -/
theorem markedDomains (h : s.Thinned limit domains s') :
    Sweeper.markedDomains limit s' = Sweeper.markedDomains limit s := by
  have hkeys : s'.keysOf .deletion = s.keysOf .deletion := keysOf_congr fun key hk => h.get?_eq (by simp [hk])
  rw [Sweeper.markedDomains, Sweeper.markedDomains, hkeys]

end Store.Thinned

namespace Sweeper

/-! ## Stopping -/

/-- How a sweep stops before its last commit. -/
inductive Stops (w : Sweeper) (s : Store) : Sweeper → Store → Prop
  /-- The process ends when some of the planned commits are made. -/
  | ended (commits : Nat) : Stops w s w (removeAll s ((w.plan w.pending s).1.take commits)).2
  /-- The sweep fails. -/
  | failed {e : Error} {w' : Sweeper} {s' : Store} (h : w.sweep s = (.error e, w', s')) : Stops w s w' s'

/-- A sweep that fails has made the planned commits. -/
theorem removeAll_of_sweep_error {e : Error} (h : w.sweep s = (.error e, w', s')) :
    w' = w ∧ removeAll s (w.plan w.pending s).1 = (.ok (), s') := by
  rcases sweep_cases w s with ⟨-, hs⟩ | ⟨s₁, hall, ⟨cause, hs⟩ | ⟨stats, commit, s₂, -, -, hs⟩⟩
  · rw [hs] at h
    cases h
  · rw [hs] at h
    cases h
    exact ⟨rfl, hall⟩
  · rw [hs] at h
    cases h

/-- Wherever a sweep stops, it still has all domains pending, and it has made some of the planned commits. -/
theorem Stops.removeAll_eq (h : w.Stops s w' s') :
    w' = w ∧ ∃ pieces, pieces ⊆ (w.plan w.pending s).1 ∧ removeAll s pieces = (.ok (), s') := by
  cases h with
  | ended commits =>
    obtain ⟨s₁, hall, -, -⟩ := Sweeper.removeAll_eq s ((w.plan w.pending s).1.take commits)
    refine ⟨rfl, _, List.take_subset commits _, ?_⟩
    rw [hall]
  | failed h =>
    obtain ⟨hw, hall⟩ := removeAll_of_sweep_error h
    exact ⟨hw, _, List.Subset.refl _, hall⟩

/-- Until it stops a sweep has removed postings of the pending domains only. -/
theorem Stops.thinned (h : w.Stops s w' s') : s.Thinned w.prefixLength w.pending s' := by
  obtain ⟨-, pieces, hpieces, hall⟩ := h.removeAll_eq
  obtain ⟨s₁, hall₁, hl, hg⟩ := Sweeper.removeAll_eq s pieces
  rw [hall] at hall₁
  cases hall₁
  refine ⟨hl, fun key => ?_⟩
  rw [hg]
  split
  · next hmem =>
    obtain ⟨piece, hp, hk⟩ := List.mem_flatten.1 hmem
    exact .inr ⟨rfl, (mem_plan (hpieces hp) hk).1⟩
  · exact .inl rfl

/-! ## Going on -/

/-- A sweeper that is made waits for the domains with markers. -/
theorem resume_eq_ok_iff : resume s limit batch = .ok w ↔
    ∃ pending, markedDomains limit s = .ok pending ∧
    w = { prefixLength := limit, batchSize := max batch 1, pending } := by
  rw [resume, bind_eq_ok_iff]
  simp only [pure, Except.pure, Except.ok.injEq, eq_comm (b := w)]

/-- A sweep that stops loses nothing. If the pending domains are those with markers, a sweep that stops before its last
commit has removed postings of these domains only, and they still have their markers and are pending. A sweeper that is
made afterwards, with any size of commits, is the one that could have been made before: it waits for all of them, and if
the source keys are well formed, its sweep ends in the index in which the whole sweep would have ended. -/
theorem resumes_of_stops (w w' : Sweeper) (s s' : Store) (hb : 0 < w.batchSize)
    (hpending : ∀ domain, domain ∈ w.pending ↔ (s.get? (marker domain)).isSome) (h : w.Stops s w' s') :
    (∀ key, s'.get? key = s.get? key ∨ s'.get? key = none ∧ ∃ phrase, ∃ domain ∈ w.pending,
      (Key.source phrase domain).WellFormed w.prefixLength ∧ (Key.source phrase domain).encode = key) ∧
    (∀ domain ∈ w.pending, (s'.get? (marker domain)).isSome) ∧
    w'.pending = w.pending ∧
    ∀ batch, resume s' w.prefixLength batch = resume s w.prefixLength batch ∧
      ((∀ key ∈ s.keysOf .deletion, ∃ domain, marker domain = key) → (resume s' w.prefixLength batch).isOk) ∧
      ∀ resumed, resume s' w.prefixLength batch = .ok resumed → resumed.pending = w.pending ∧
        (s.Addressed w.prefixLength → ∃ stats stats' last,
          w.sweep s = (.ok stats, { w with pending := ∅ }, last) ∧
          resumed.sweep s' = (.ok stats', { resumed with pending := ∅ }, last)) := by
  have hthin := h.thinned
  refine ⟨fun key => (hthin.records key).imp_right fun hgone => ⟨hgone.1, doomed_iff.1 hgone.2⟩, ?_,
    congrArg pending h.removeAll_eq.1, fun batch => ⟨?_, ?_, ?_⟩⟩
  · intro domain hd
    have hkind : Key.kindOf? (marker domain) = some .deletion := Key.kindOf?_encode _
    rw [hthin.get?_eq (by simp [hkind])]
    exact (hpending domain).1 hd
  · rw [resume, resume, hthin.markedDomains]
  · intro hmarkers
    obtain ⟨marked, hmarked⟩ := exists_markedDomains w.prefixLength hmarkers
    rw [resume_eq_ok_iff.2 ⟨marked, hthin.markedDomains.trans hmarked, rfl⟩]
    rfl
  · intro resumed hr
    obtain ⟨marked, hmarked, rfl⟩ := resume_eq_ok_iff.1 hr
    have hsame : marked = w.pending := by
      apply Std.ExtTreeSet.ext_mem
      intro domain
      rw [mem_markedDomains (hthin.markedDomains.symm.trans hmarked), hpending]
    subst hsame
    refine ⟨rfl, fun haddr => ?_⟩
    obtain ⟨last, hclear, hsweep⟩ := exists_clears haddr hb
    let again : Sweeper := { prefixLength := w.prefixLength, batchSize := max batch 1, pending := w.pending }
    have hagain : 0 < again.batchSize := Nat.lt_of_lt_of_le Nat.one_pos (Nat.le_max_right batch 1)
    obtain ⟨last', hclear', hsweep'⟩ := exists_clears (w := again) (hthin.addressed haddr) hagain
    rw [(hthin.clears hclear').unique hclear] at hsweep'
    exact ⟨_, _, last, hsweep, hsweep'⟩

/-- A sweep of one record a commit stops after the second one. -/
theorem resumes_of_stops_sharedPhrase :
    let w : Sweeper := { prefixLength := 4, batchSize := 1, pending := {1} }
    ∃ s' resumed stats stats' last, w.Stops sharedPhrase w s' ∧
      s'.keysOf .source = [(Key.source [7] 2).encode, (Key.source [7, 8] 1).encode] ∧
      resume s' 4 100 = .ok resumed ∧ resumed.pending = {1} ∧
      w.sweep sharedPhrase = (.ok stats, { w with pending := ∅ }, last) ∧
      resumed.sweep s' = (.ok stats', { resumed with pending := ∅ }, last) := by
  intro w
  have hkeys : sharedPhrase.keysOf .deletion = [marker 1] := by decide +kernel
  have hpending : ∀ domain, domain ∈ w.pending ↔ (sharedPhrase.get? (marker domain)).isSome := by
    intro domain
    have hmem : marker domain ∈ sharedPhrase.keysOf .deletion ↔ _ := Store.mem_keysOf
    rw [hkeys, List.mem_singleton] at hmem
    have hsingle : domain ∈ w.pending ↔ 1 = domain := by simp [w]
    rw [hsingle]
    constructor
    · rintro rfl
      exact (hmem.1 rfl).2
    · intro hsome
      exact (Key.deletion_encode_inj (hmem.2 ⟨Key.kindOf?_encode _, hsome⟩)).symm
  have hstops : w.Stops sharedPhrase w _ := .ended 2
  obtain ⟨-, -, -, hresume⟩ := resumes_of_stops w w sharedPhrase _ Nat.one_pos hpending hstops
  obtain ⟨-, hok, hagain⟩ := hresume 100
  have hmarkers : ∀ key ∈ sharedPhrase.keysOf .deletion, ∃ domain, marker domain = key := by
    rw [hkeys]
    simp
  have hisOk := hok hmarkers
  cases hr : resume (removeAll sharedPhrase ((w.plan w.pending sharedPhrase).1.take 2)).2 w.prefixLength 100 with
  | error e =>
    rw [hr] at hisOk
    cases hisOk
  | ok resumed =>
    obtain ⟨hsame, hend⟩ := hagain resumed hr
    obtain ⟨stats, stats', last, hsweep, hsweep'⟩ := hend addressed_sharedPhrase
    exact ⟨_, resumed, stats, stats', last, hstops, by decide +kernel, hr, hsame, hsweep, hsweep'⟩

end Sweeper

end PhraseIndex
