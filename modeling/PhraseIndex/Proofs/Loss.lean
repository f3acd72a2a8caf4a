import Mathlib.Data.List.Infix
import PhraseIndex.Proofs.Marks
import PhraseIndex.Proofs.Uninterrupted

/-!
# Marks that come too late

When a sweep has taken the markers of a batch away and forgotten their domains before the writer marks them, the mark
leaves domains pending that are not deleted any more. What is committed to such a domain is lost at the next sweep
(`Stale.exists_unjustified`), so sweeps remove deleted postings only exactly if all marks are timely
(`justified_iff_timely`).
-/

namespace PhraseIndex.Shared

variable {start s s' : Shared} {a : Action} {actions past more : List Action} {domain : Domain} {key : Bytes}

/-! ## Stale domains -/

/-- The domain is pending without a marker, and the sweep that runs will leave it so. -/
structure Stale (s : Shared) (domain : Domain) : Prop where
  pending : domain ∈ s.sweeper.pending
  unmarked : ¬s.Marked domain
  left : match s.phase with
    | .idle => True
    | .begun domains | .removing domains _ => domain ∉ domains
    | .releasing domains _ again => domain ∉ domains ∨ domain ∈ again

/-- An untimely mark leaves a stale domain. -/
theorem Safe.stale (h : s.Safe) (hs : s.step .mark = some s') (ho : s.Owes domain) (hm : ¬s.Marked domain)
    (hd : domain ∉ s.dropped) : s'.Stale domain := by
  obtain ⟨deletions, howed, rfl⟩ := step_mark.1 hs
  rw [Owes, howed] at ho
  refine ⟨Std.ExtTreeSet.mem_union_iff.2 (.inr ho), hm, ?_⟩
  have hrelied := mt (h.relied domain) hm
  rw [mem_dropped] at hd
  unfold Relied at hrelied
  dsimp only
  cases hp : s.phase with
  | idle => trivial
  | begun domains | removing domains pieces =>
    rw [hp] at hrelied
    exact hrelied
  | releasing domains unread again =>
    by_cases hin : domain ∈ domains
    · refine .inr ?_
      by_contra hout
      exact hd ⟨domains, unread, again, hp, hin, hout⟩
    · exact .inl hin

/-- A sweep that runs leaves what is stale. -/
theorem Stale.step (h : s.Stale domain) (ha : a.Sweeps) (hne : a ≠ .snapshot) (hs : s.step a = some s') :
    s'.Stale domain := by
  obtain ⟨hpending, hunmarked, hleft⟩ := h
  have hunmarked' : ¬s'.Marked domain := mt (marked_of_step hs (.inl ha)) hunmarked
  cases a with
  | commit | mark => cases ha
  | snapshot => exact absurd rfl hne
  | scan =>
    obtain ⟨domains, pieces, hp, -, rfl⟩ := step_scan.1 hs
    rw [hp] at hleft
    exact ⟨hpending, hunmarked', hleft⟩
  | remove =>
    obtain ⟨domains, piece, pieces, stats, store, hp, -, rfl⟩ := step_remove.1 hs
    rw [hp] at hleft
    exact ⟨hpending, hunmarked', hleft⟩
  | removeMarkers =>
    obtain ⟨domains, stats, store, hp, -, rfl⟩ := step_removeMarkers.1 hs
    rw [hp] at hleft
    exact ⟨hpending, hunmarked', .inl hleft⟩
  | look d =>
    obtain ⟨domains, unread, again, hp, -, rfl⟩ := step_look.1 hs
    rw [hp] at hleft
    exact ⟨hpending, hunmarked', hleft.imp_right fun hin => mem_lookUp.2 (.inl hin)⟩
  | retain =>
    obtain ⟨domains, again, hp, rfl⟩ := step_retain.1 hs
    rw [hp] at hleft
    exact ⟨Sweeper.mem_release.2 ⟨hpending, hleft⟩, hunmarked', trivial⟩

/-! ## A sweep can always go on -/

theorem sound_run (h : s.store.Sound s.sweeper.prefixLength) (hr : s.run actions = some s') :
    s'.store.Sound s'.sweeper.prefixLength := by
  have hstep : ∀ {t a t'}, t.store.Sound t.sweeper.prefixLength → True → step t a = some t' →
      t'.store.Sound t'.sweeper.prefixLength := by
    intro t a t' ht _ hs
    rw [(config_step hs).1]
    cases a with
    | commit placed deletions streams manifest =>
      obtain ⟨-, stats, store, hc, rfl⟩ := step_commit.1 hs
      exact ht.commit hc
    | mark => exact ht.of_removal (get?_step hs (.inr rfl))
    | snapshot | scan | remove | removeMarkers | look | retain => exact ht.of_removal (get?_step hs (.inl trivial))
  exact Steps.run_invariant (P := fun t : Shared => t.store.Sound t.sweeper.prefixLength) hstep h
    (Steps.always_of_forall fun _ _ _ => trivial) hr

theorem owed_run (hr : s.run more = some s') (hm : ∀ a ∈ more, a.Sweeps) : s'.owed = s.owed := by
  have hstep : ∀ {t a t'}, Shared.owed t = s.owed → Action.Sweeps a → step t a = some t' → t'.owed = s.owed := by
    intro t a t' ht ha hs
    rw [← ht]
    cases a with
    | commit | mark => cases ha
    | snapshot =>
      obtain ⟨-, -, rfl⟩ := step_snapshot.1 hs
      rfl
    | scan =>
      obtain ⟨domains, pieces, -, -, rfl⟩ := step_scan.1 hs
      rfl
    | remove =>
      obtain ⟨domains, piece, pieces, stats, store, -, -, rfl⟩ := step_remove.1 hs
      rfl
    | removeMarkers =>
      obtain ⟨domains, stats, store, -, -, rfl⟩ := step_removeMarkers.1 hs
      rfl
    | look d =>
      obtain ⟨domains, unread, again, -, -, rfl⟩ := step_look.1 hs
      rfl
    | retain =>
      obtain ⟨domains, again, -, rfl⟩ := step_retain.1 hs
      rfl
  exact Steps.run_invariant (P := fun t : Shared => t.owed = s.owed) hstep rfl
    (Steps.always_of_forall fun _ a ha => hm a ha) hr

theorem marked_of_run (hr : s.run more = some s') (hm : ∀ a ∈ more, a.Sweeps) (h : s'.Marked domain) :
    s.Marked domain := by
  have hstep : ∀ {t a t'}, (Marked t domain → s.Marked domain) → Action.Sweeps a → step t a = some t' →
      t'.Marked domain → s.Marked domain :=
    fun ht ha hs hm' => ht (marked_of_step hs (.inl ha) hm')
  exact Steps.run_invariant hstep id (Steps.always_of_forall fun _ a ha => hm a ha) hr h

theorem Stale.run (h : s.Stale domain) (hr : s.run more = some s') (hm : ∀ a ∈ more, a.Sweeps ∧ a ≠ .snapshot) :
    s'.Stale domain := by
  have hstep : ∀ {t a t'}, Stale t domain → a.Sweeps ∧ a ≠ Action.snapshot → Shared.step t a = some t' →
      t'.Stale domain :=
    fun ht ha hs => ht.step ha.1 ha.2 hs
  exact Steps.run_invariant (P := fun t : Shared => t.Stale domain) hstep h
    (Steps.always_of_forall fun _ a ha => hm a ha) hr

/-- The planned commits can be made. -/
theorem exists_removed {domains : DomainSet} {pieces : List (List Bytes)} (hp : s.phase = .removing domains pieces) :
    ∃ more s', s.run more = some s' ∧ (∀ a ∈ more, a.Sweeps ∧ a ≠ .snapshot) ∧ s'.phase = .removing domains [] := by
  obtain ⟨store, hall, -, -⟩ := Sweeper.removeAll_eq s.store pieces
  refine ⟨_, _, run_removes hp hall, ?_, rfl⟩
  intro a ha
  rw [(List.mem_replicate.1 ha).2]
  exact ⟨trivial, nofun⟩

/-- A scan and its commits can be made. -/
theorem exists_scanned {domains : DomainSet} (h : s.store.Sound s.sweeper.prefixLength) (hb : 0 < s.sweeper.batchSize)
    (hp : s.phase = .begun domains) :
    ∃ more s', s.run more = some s' ∧ (∀ a ∈ more, a.Sweeps ∧ a ≠ .snapshot) ∧ s'.phase = .removing domains [] := by
  obtain ⟨pieces, hplan, -⟩ := Sweeper.plan_of_readable domains (Sweeper.readable_of_sound h) hb
  let s₁ : Shared := { s with phase := .removing domains pieces }
  obtain ⟨more, s', hr, hm, hp'⟩ := exists_removed (s := s₁) rfl
  refine ⟨.scan :: more, s', Steps.run_cons.2 ⟨s₁, step_scan.2 ⟨domains, pieces, hp, hplan, rfl⟩, hr⟩, ?_, hp'⟩
  intro a ha
  rcases List.mem_cons.1 ha with rfl | ha
  · exact ⟨trivial, nofun⟩
  · exact hm a ha

/-- The markers can be removed and the domains released. -/
theorem exists_finished {domains : DomainSet} (h : s.store.Sound s.sweeper.prefixLength)
    (hp : s.phase = .removing domains []) :
    ∃ more s', s.run more = some s' ∧ (∀ a ∈ more, a.Sweeps ∧ a ≠ .snapshot) ∧ s'.phase = .idle := by
  obtain ⟨stats, store, hc, -⟩ := Sweeper.commitWith_finalRemoval (w := s.sweeper) domains (Sweeper.readable_of_sound h)
  refine ⟨_, _, run_release hp hc, ?_, rfl⟩
  intro a ha
  simp only [List.mem_cons, List.mem_append, List.mem_map, List.not_mem_nil, or_false] at ha
  obtain rfl | ⟨d, -, rfl⟩ | rfl := ha <;> exact ⟨trivial, nofun⟩

/-- A sweep that has begun can come to its end. -/
theorem exists_idle (h : s.store.Sound s.sweeper.prefixLength) (hb : 0 < s.sweeper.batchSize) :
    ∃ more s', s.run more = some s' ∧ (∀ a ∈ more, a.Sweeps ∧ a ≠ .snapshot) ∧ s'.phase = .idle := by
  have hfinish : ∀ {more₁ s₁ domains}, s.run more₁ = some s₁ → (∀ a ∈ more₁, a.Sweeps ∧ a ≠ .snapshot) →
      s₁.phase = .removing domains [] →
      ∃ more s', s.run more = some s' ∧ (∀ a ∈ more, a.Sweeps ∧ a ≠ .snapshot) ∧ s'.phase = .idle := by
    intro more₁ s₁ domains hr₁ hm₁ hp₁
    obtain ⟨more₂, s₂, hr₂, hm₂, hp₂⟩ := exists_finished (sound_run h hr₁) hp₁
    refine ⟨more₁ ++ more₂, s₂, Steps.run_append.2 ⟨s₁, hr₁, hr₂⟩, ?_, hp₂⟩
    intro a ha
    exact (List.mem_append.1 ha).elim (hm₁ a) (hm₂ a)
  cases hp : s.phase with
  | idle => exact ⟨[], s, rfl, nofun, hp⟩
  | begun domains =>
    obtain ⟨more₁, s₁, hr₁, hm₁, hp₁⟩ := exists_scanned h hb hp
    exact hfinish hr₁ hm₁ hp₁
  | removing domains pieces =>
    obtain ⟨more₁, s₁, hr₁, hm₁, hp₁⟩ := exists_removed hp
    exact hfinish hr₁ hm₁ hp₁
  | releasing domains unread again =>
    obtain ⟨found, hr, -⟩ := run_looks hp
    refine ⟨unread.map .look ++ [.retain], _,
      Steps.run_append.2 ⟨_, hr, Steps.run_singleton.2 (step_retain.2 ⟨domains, found, rfl, rfl⟩)⟩, fun a ha => ?_, rfl⟩
    simp only [List.mem_append, List.mem_map, List.mem_singleton] at ha
    obtain ⟨d, -, rfl⟩ | rfl := ha <;> exact ⟨trivial, nofun⟩

/-! ## The loss -/

/-- After its last merge into the record nothing vouches for a domain that has no marker any more. -/
theorem not_vouched {hist : List Action} {c : Action} {s₁ : Shared} (hr₁ : start.run (hist ++ [c]) = some s₁)
    (hm : ¬s₁.Marked domain) (hc : c.Merges start.sweeper.prefixLength key) :
    ¬start.Vouched (hist ++ [c] ++ [.mark]) key domain := by
  -- The moment can only be after the commit or after the mark, and the marker is at neither.
  rintro ⟨before, since, s, he, hrun, hmarked, hnone⟩
  rcases List.eq_nil_or_concat since with rfl | ⟨since, last, rfl⟩
  · rw [List.append_nil] at he
    rw [← he, Steps.run_append] at hrun
    obtain ⟨s₁', hr₁', hs'⟩ := hrun
    cases hr₁.symm.trans hr₁'
    exact hm (marked_of_step (Steps.run_singleton.1 hs') (.inr rfl) hmarked)
  · rw [List.concat_eq_append, ← List.append_assoc] at he
    obtain ⟨he, -⟩ := List.append_inj' he rfl
    rcases List.eq_nil_or_concat since with rfl | ⟨since, last', rfl⟩
    · rw [List.append_nil] at he
      rw [← he, hr₁] at hrun
      cases hrun
      exact hm hmarked
    · rw [List.concat_eq_append, ← List.append_assoc] at he
      obtain ⟨-, he⟩ := List.append_inj' he rfl
      cases he
      exact hnone c (by simp) hc

/-- A batch of one sentence of one word. -/
def oneWord (domain : Domain) : List Placement := [(⟨domain, [0], [], []⟩, 0)]

theorem postingsOf_oneWord (domain : Domain) : postingsOf [0] domain (oneWord domain) = [⟨domain, 0, 0⟩] := by
  simp [postingsOf, oneWord, Sentence.occurrences, Sentence.hasAt, List.range_succ]

theorem merges_oneWord {limit : PrefixLength} (hk : (Key.source [0] domain).WellFormed limit) (deletions : DomainSet)
    (streams : Streams) (manifest : Option Manifest) :
    (Action.commit (oneWord domain) deletions streams manifest).Merges limit (Key.source [0] domain).encode := by
  show valuesOf (Fragments.ofPairs limit (oneWord domain)).merges _ ≠ []
  rw [Fragments.valuesOf_merges_source _ hk, postingsOf_oneWord]
  exact nofun

/-- The sweep that runs comes to its end, and the next one to its last commit, which takes the stale domain along. -/
theorem Stale.exists_removing (h : s.Stale domain) (hsound : s.store.Sound s.sweeper.prefixLength)
    (hb : 0 < s.sweeper.batchSize) : ∃ more s' domains, s.run more = some s' ∧ (∀ a ∈ more, a.Sweeps) ∧
      s'.phase = .removing domains [] ∧ domain ∈ domains := by
  obtain ⟨more₁, s₁, hr₁, hm₁, hidle⟩ := exists_idle hsound hb
  have hpending := (h.run hr₁ hm₁).pending
  have hne : s₁.sweeper.pending ≠ ∅ := by
    intro he
    rw [he] at hpending
    exact Std.ExtTreeSet.not_mem_empty hpending
  let s₂ : Shared := { s₁ with phase := .begun s₁.sweeper.pending }
  have hs₂ : s₁.step .snapshot = some s₂ := step_snapshot.2 ⟨hidle, hne, rfl⟩
  have hb₂ : 0 < s₂.sweeper.batchSize := by
    rw [← (config_run hr₁).2] at hb
    exact hb
  have hsound₁ := sound_run hsound hr₁
  obtain ⟨more₂, s₃, hr₂, hm₂, hp⟩ := exists_scanned (s := s₂) hsound₁ hb₂ rfl
  refine ⟨more₁ ++ .snapshot :: more₂, s₃, s₁.sweeper.pending,
    Steps.run_append.2 ⟨s₁, hr₁, Steps.run_cons.2 ⟨s₂, hs₂, hr₂⟩⟩, fun a ha => ?_, hp, hpending⟩
  rcases List.mem_append.1 ha with ha | ha
  · exact (hm₁ a ha).1
  · rcases List.mem_cons.1 ha with rfl | ha
    · trivial
    · exact (hm₂ a ha).1

/-- A sentence that is committed just before the last commit of a sweep goes with it. -/
theorem exists_removes {domains : DomainSet} (hsound : s.store.Sound s.sweeper.prefixLength)
    (hk : (Key.source [0] domain).WellFormed s.sweeper.prefixLength) (ho : s.owed = none)
    (hp : s.phase = .removing domains []) (hd : domain ∈ domains) :
    ∃ s₁ s₂ s₃, s.step (.commit (oneWord domain) ∅ .empty none) = some s₁ ∧ s₁.step .mark = some s₂ ∧
      s₂.step .removeMarkers = some s₃ ∧ s₁.owed = some ∅ ∧ Removes s₂ s₃ (Key.source [0] domain).encode domain := by
  obtain ⟨stats, store, hc⟩ := hsound.exists_commit (oneWord domain) ∅ .empty none
  have hreadable := Sweeper.readable_of_sound (hsound.commit hc)
  obtain ⟨stats', store', hfinal, -, hgone, -⟩ :=
    Sweeper.commitWith_finalRemoval (w := s.sweeper.mark ∅) domains hreadable
  obtain ⟨ps, hps⟩ := hsound.postings hk
  have hsome : (store.get? (Key.source [0] domain).encode).isSome := by
    rw [Store.get?_source_commitOf hc hk hps, postingsOf_oneWord]
    simp [PostingList.record]
  let s₁ : Shared := { s with store, owed := some ∅ }
  let s₂ : Shared := { s₁ with sweeper := s.sweeper.mark ∅, owed := none }
  refine ⟨s₁, s₂, _, step_commit.2 ⟨ho, stats, store, hc, rfl⟩, step_mark.2 ⟨∅, rfl, rfl⟩,
    step_removeMarkers.2 ⟨domains, stats', store', hp, hfinal, rfl⟩, rfl, Key.kindOf?_encode _, Key.domainOf_source hk,
    hsome, ?_⟩
  exact hgone _ ((Sweeper.purged_source hk).2 hd)

theorem timely_of_sweeps (ha : a.Sweeps) : s.Timely a := by
  cases a with
  | mark => cases ha
  | commit | snapshot | scan | remove | removeMarkers | look | retain => trivial

/-- Once a domain is stale, timely marks do not help: a batch and two sweeps lose a sentence of it. -/
theorem Stale.exists_unjustified (h : s.Stale domain) (hrun : start.run past = some s)
    (hsound : s.store.Sound s.sweeper.prefixLength) (hl : 1 ≤ s.sweeper.prefixLength.toNat)
    (hb : 0 < s.sweeper.batchSize) (ho : s.owed = none) :
    ∃ more, (s.run more).isSome ∧ Always Timely s more ∧ ¬start.Justified (past ++ more) := by
  obtain ⟨more, s₀, domains, hr, hm, hp, hd⟩ := h.exists_removing hsound hb
  have hlimit := (config_run hr).1
  have hk : (Key.source [0] domain).WellFormed s₀.sweeper.prefixLength := by
    rw [hlimit]
    exact ⟨Nat.le_refl 1, hl⟩
  obtain ⟨s₁, s₂, s₃, hs₁, hs₂, hs₃, howed, hremoves⟩ :=
    exists_removes (sound_run hsound hr) hk ((owed_run hr hm).trans ho) hp hd
  have hunmarked : ¬s₁.Marked domain := by
    rw [marked_commit hs₁, not_or]
    exact ⟨mt (marked_of_run hr hm) h.unmarked, Std.ExtTreeSet.not_mem_empty⟩
  have hr₁ : start.run (past ++ more ++ [.commit (oneWord domain) ∅ .empty none]) = some s₁ :=
    Steps.run_append.2 ⟨s₀, Steps.run_append.2 ⟨s, hrun, hr⟩, Steps.run_singleton.2 hs₁⟩
  have hlast : s₀.run [.commit (oneWord domain) ∅ .empty none, .mark, .removeMarkers] = some s₃ :=
    Steps.run_cons.2 ⟨s₁, hs₁, Steps.run_cons.2 ⟨s₂, hs₂, Steps.run_singleton.2 hs₃⟩⟩
  refine ⟨more ++ [.commit (oneWord domain) ∅ .empty none, .mark, .removeMarkers], ?_, Steps.always_append.2 ⟨?_, ?_⟩,
    ?_⟩
  · exact Option.isSome_iff_exists.2 ⟨s₃, Steps.run_append.2 ⟨s₀, hr, hlast⟩⟩
  · exact Steps.always_of_forall fun _ a ha => timely_of_sweeps (hm a ha)
  · intro s' hs'
    cases hr.symm.trans hs'
    refine ⟨trivial, fun t ht => ⟨?_, fun _ _ => ⟨trivial, fun _ _ => trivial⟩⟩⟩
    intro d hd
    rw [Option.mem_def, hs₁] at ht
    cases ht
    rw [Owes, howed] at hd
    exact absurd hd Std.ExtTreeSet.not_mem_empty
  · intro hj
    have hmerges := merges_oneWord hk ∅ .empty none
    rw [hlimit, (config_run hrun).1] at hmerges
    refine not_vouched hr₁ hunmarked hmerges (hj _ .removeMarkers s₂ s₃ _ domain ⟨[], ?_⟩ ?_ hs₃ hremoves)
    · simp
    · exact Steps.run_append.2 ⟨s₁, hr₁, Steps.run_singleton.2 hs₂⟩

/-- All marks of a run are timely exactly if no part of it, continued with timely marks, removes a record of a domain
that had no marker since the last merge into the record. -/
theorem justified_iff_timely (h : start.Opens) (hsound : start.store.Sound start.sweeper.prefixLength)
    (hl : 1 ≤ start.sweeper.prefixLength.toNat) (hb : 0 < start.sweeper.batchSize)
    (hr : (start.run actions).isSome) : Always Timely start actions ↔
      ∀ past s more, past <+: actions → start.run past = some s → (s.run more).isSome → Always Timely s more →
        start.Justified (past ++ more) := by
  constructor
  · rintro ha past s more ⟨rest, rfl⟩ hs - hmore
    refine justified_of_timely h (Steps.always_append.2 ⟨(Steps.always_append.1 ha).1, ?_⟩)
    intro s' hs'
    cases hs.symm.trans hs'
    exact hmore
  · intro hall
    apply Steps.always_of_past
    intro past a s hp hs hbefore
    cases a with
    | mark =>
      intro domain ho
      by_contra hn
      rw [not_or] at hn
      obtain ⟨s', hs'⟩ := Steps.exists_run_of_le hr hp
      obtain ⟨s₁, hs₁, hstep⟩ := Steps.run_append.1 hs'
      cases hs.symm.trans hs₁
      have hmark := Steps.run_singleton.1 hstep
      have hstale := (Steps.run_invariant Safe.step h.safe hbefore hs).stale hmark ho hn.1 hn.2
      have howed : s'.owed = none := by
        obtain ⟨deletions, -, rfl⟩ := step_mark.1 hmark
        rfl
      obtain ⟨hlimit, hbatch⟩ := config_run hs'
      obtain ⟨more, hrun, hmore, hj⟩ := hstale.exists_unjustified hs' (sound_run hsound hs') (by rwa [hlimit])
        (by rwa [hbatch]) howed
      exact hj (hall _ s' more hp hs' hrun hmore)
    | commit | snapshot | scan | remove | removeMarkers | look | retain => trivial

/-! ## Runs -/

/-- A domain is deleted and swept with its sentence, and then it is used again. -/
def sweptInTime : List Action :=
  [.commit (oneWord 1) {1} .empty none, .mark, .snapshot, .scan, .remove, .removeMarkers, .look 1, .retain,
    .commit (oneWord 1) ∅ .empty none, .mark]

theorem justified_sweptInTime : Always Timely blank sweptInTime ∧ blank.Justified sweptInTime := by
  have htimely : Always Timely blank sweptInTime := by decide +kernel
  have hrun : (blank.run sweptInTime).isSome := by decide +kernel
  have hsound : blank.store.Sound blank.sweeper.prefixLength := (Store.Reflects.empty 4 none).sound
  have hall := (justified_iff_timely opens_blank hsound (by decide) (by decide) hrun).1 htimely
  exact ⟨htimely, hall [] blank sweptInTime List.nil_prefix rfl hrun htimely⟩

/-- The second deletion of the domain is marked after a whole sweep; then the domain is used again. -/
def markedLate : List Action :=
  [.commit [] {1} .empty none, .mark, .commit [] {1} .empty none, .snapshot, .scan, .removeMarkers, .look 1, .retain,
    .mark, .commit (oneWord 1) ∅ .empty none, .mark, .snapshot, .scan]

/-- The next sweep removes the sentence, though the domain has had no marker since it was committed. -/
theorem unjustified_markedLate : blank.Opens ∧ (blank.run (markedLate ++ [.remove])).isSome ∧
    ¬blank.Justified (markedLate ++ [.remove]) := by
  refine ⟨opens_blank, by decide +kernel, ?_⟩
  intro hj
  have hlost : (blank.run markedLate).any fun s => (s.step .remove).any fun s' =>
      (s.store.get? (Key.source [0] 1).encode).isSome ∧ s'.store.get? (Key.source [0] 1).encode = none := by
    decide +kernel
  obtain ⟨s, hs, hstep⟩ := (Option.any_eq_true _ _).1 hlost
  obtain ⟨s', hs', h⟩ := (Option.any_eq_true _ _).1 hstep
  obtain ⟨hbefore, hafter⟩ := of_decide_eq_true h
  have hdomain : Key.domainOf s.sweeper.prefixLength (Key.source [0] 1).encode = .ok 1 := by
    rw [(config_run hs).1]
    exact Key.domainOf_source ⟨by decide, by decide⟩
  obtain ⟨before, since, t, he, ht, hm, hnone⟩ :=
    hj markedLate .remove s s' _ 1 List.prefix_rfl hs hs' ⟨Key.kindOf?_encode _, hdomain, hbefore, hafter⟩
  have hmerged : ∀ before ∈ markedLate.inits, (blank.run before).any (fun t => t.Marked 1) →
      ∃ a ∈ markedLate.drop before.length, a.Merges 4 (Key.source [0] 1).encode := by decide +kernel
  have hprefix : before <+: markedLate := ⟨since, he.symm⟩
  obtain ⟨a, ha, hmerges⟩ := hmerged before ((List.mem_inits _ _).2 hprefix) (by rw [ht]; exact decide_eq_true hm)
  rw [he, List.drop_left] at ha
  exact hnone a ha hmerges

end PhraseIndex.Shared
