import PhraseIndex.Proofs.Interleaving

/-!
# Marks in time

A sweep is to remove deleted postings only: a record of a domain whose marker stood in the index after the last merge
into it (`Justified`). The writer marks the domains of a batch after its commit. While each mark finds the marker in the
index, or the sweep that took it away about to forget the domain, no sweep removes anything else
(`justified_of_timely`).
-/

namespace PhraseIndex.Shared

variable {start s s' : Shared} {a : Action} {actions past more : List Action} {domain : Domain} {key : Bytes}

/-! ## Removals -/

/-- The step takes the source record of the key away, which belongs to the domain. -/
structure Removes (s s' : Shared) (key : Bytes) (domain : Domain) : Prop where
  kind : Key.kindOf? key = some .source
  domainOf : Key.domainOf s.sweeper.prefixLength key = .ok domain
  before : (s.store.get? key).isSome
  after : s'.store.get? key = none

/-- The commit merges postings into the record of the key. -/
def Action.Merges (limit : PrefixLength) (key : Bytes) : Action → Prop
  | .commit placed _ _ _ => valuesOf (Fragments.ofPairs limit placed).merges key ≠ []
  | _ => False

instance (limit : PrefixLength) (key : Bytes) (a : Action) : Decidable (a.Merges limit key) :=
  match a with
  | .commit placed _ _ _ => inferInstanceAs (Decidable (valuesOf (Fragments.ofPairs limit placed).merges key ≠ []))
  | .mark | .snapshot | .scan | .remove | .removeMarkers | .look _ | .retain => isFalse id

/-- At some moment of the past, and not before the last merge into the record of the key, the domain had a marker. -/
def Vouched (start : Shared) (past : List Action) (key : Bytes) (domain : Domain) : Prop :=
  ∃ before since s, past = before ++ since ∧ start.run before = some s ∧ s.Marked domain ∧
    ∀ a ∈ since, ¬a.Merges start.sweeper.prefixLength key

/-- Whatever source records a run takes away, their domains had markers. -/
def Justified (start : Shared) (actions : List Action) : Prop :=
  ∀ past a s s' key domain, past ++ [a] <+: actions → start.run past = some s → s.step a = some s' →
    Removes s s' key domain → Vouched start past key domain

/-! ## Planned removals -/

/-- The commits that a sweep has still to make before the last one remove records of its domains only. -/
def Planned (s : Shared) : Prop :=
  ∀ domains pieces, s.phase = .removing domains pieces →
    ∀ piece ∈ pieces, ∀ key ∈ piece, Sweeper.Doomed s.sweeper.prefixLength domains key

theorem Planned.step (h : s.Planned) (hs : s.step a = some s') : s'.Planned := by
  cases a with
  | commit placed deletions streams manifest =>
    obtain ⟨-, stats, store, -, rfl⟩ := step_commit.1 hs
    exact h
  | mark =>
    obtain ⟨deletions, -, rfl⟩ := step_mark.1 hs
    exact h
  | snapshot =>
    obtain ⟨-, -, rfl⟩ := step_snapshot.1 hs
    exact nofun
  | scan =>
    obtain ⟨domains, pieces, -, hplan, rfl⟩ := step_scan.1 hs
    intro domains' pieces' hp' piece hpiece key hkey
    cases hp'
    refine (Sweeper.mem_plan (s := s.store) ?_ hkey).1
    rwa [hplan]
  | remove =>
    obtain ⟨domains, piece, pieces, stats, store, hp, -, rfl⟩ := step_remove.1 hs
    intro domains' pieces' hp'
    cases hp'
    intro piece' hpiece
    exact h domains _ hp piece' (List.mem_cons_of_mem _ hpiece)
  | removeMarkers =>
    obtain ⟨domains, stats, store, -, -, rfl⟩ := step_removeMarkers.1 hs
    exact nofun
  | look domain =>
    obtain ⟨domains, unread, again, -, -, rfl⟩ := step_look.1 hs
    exact nofun
  | retain =>
    obtain ⟨domains, again, -, rfl⟩ := step_retain.1 hs
    exact nofun

/-- A planned commit leaves all markers. -/
theorem Planned.marked_remove (h : s.Planned) (hs : s.step .remove = some s') (hm : s.Marked domain) :
    s'.Marked domain := by
  obtain ⟨domains, piece, pieces, stats, store, hp, hc, rfl⟩ := step_remove.1 hs
  show (store.get? (Sweeper.marker domain)).isSome
  rw [Sweeper.get?_removal hc, if_neg]
  · exact hm
  · intro hmem
    have hkind := (h domains _ hp piece List.mem_cons_self _ hmem).1
    rw [Sweeper.marker, Key.kindOf?_encode] at hkind
    cases hkind

/-! ## Timely marks -/

/-- A mark is timely if each domain that it makes pending has a marker, or the sweep that took its marker away is still
to forget the domain. -/
def Timely (s : Shared) : Action → Prop
  | .mark => ∀ domain, s.Owes domain → s.Marked domain ∨ domain ∈ s.dropped
  | _ => True

instance (s : Shared) (a : Action) : Decidable (s.Timely a) :=
  match a with
  | .mark =>
    decidable_of_iff ((s.owed.getD ∅).toList.all fun domain => decide (s.Marked domain ∨ domain ∈ s.dropped)) (by
      simp only [Timely, Owes, List.all_eq_true, Std.ExtTreeSet.mem_toList, decide_eq_true_eq])
  | .commit .. | .snapshot | .scan | .remove | .removeMarkers | .look _ | .retain => isTrue trivial

/-- The domains on whose markers the sweep counts: it is to purge them, or it has found them marked again. -/
def Relied (s : Shared) (domain : Domain) : Prop :=
  match s.phase with
  | .idle => False
  | .begun domains | .removing domains _ => domain ∈ domains
  | .releasing _ _ again => domain ∈ again

/-- Pending domains have markers, or they are on their way out; and a sweep removes only records of domains with
markers. -/
structure Safe (s : Shared) : Prop where
  pending : ∀ domain ∈ s.sweeper.pending, s.Marked domain ∨ domain ∈ s.dropped
  relied : ∀ domain, s.Relied domain → s.Marked domain
  planned : ∀ domains pieces, s.phase = .removing domains pieces →
    ∀ piece ∈ pieces, ∀ key ∈ piece, Sweeper.Doomed s.sweeper.prefixLength domains key

theorem dropped_of_releasing {domains again : DomainSet} {unread : List Domain}
    (hp : s.phase = .releasing domains unread again) : domain ∈ s.dropped ↔ domain ∈ domains ∧ domain ∉ again := by
  rw [mem_dropped]
  constructor
  · rintro ⟨domains', unread', again', hp', h⟩
    rw [hp] at hp'
    cases hp'
    exact h
  · intro h
    exact ⟨domains, unread, again, hp, h⟩

/-- But for a release, all pending domains have markers. -/
theorem Safe.marked_of_pending (h : s.Safe) (hp : ∀ domains unread again, s.phase ≠ .releasing domains unread again) :
    ∀ domain ∈ s.sweeper.pending, s.Marked domain := by
  intro domain hd
  apply (h.pending domain hd).resolve_right
  intro hdrop
  obtain ⟨domains, unread, again, hphase, -⟩ := mem_dropped.1 hdrop
  exact hp domains unread again hphase

theorem Opens.safe (h : start.Opens) : start.Safe where
  pending domain hd := .inl ((h.pending domain).1 hd)
  relied domain hd := by
    rw [Relied, h.phase] at hd
    exact hd.elim
  planned domains pieces hp := by
    rw [h.phase] at hp
    cases hp

theorem Safe.commit {placed : List Placement} {deletions : DomainSet} {streams : Streams} {manifest : Option Manifest}
    (h : s.Safe) (hs : s.step (.commit placed deletions streams manifest) = some s') : s'.Safe := by
  have hkeep : ∀ domain, s.Marked domain → s'.Marked domain := fun domain hm => (marked_commit hs).2 (.inl hm)
  obtain ⟨ho, stats, store, -, rfl⟩ := step_commit.1 hs
  exact ⟨fun domain hd => (h.pending domain hd).imp_left (hkeep domain),
    fun domain hd => hkeep domain (h.relied domain hd), h.planned⟩

theorem Safe.mark (h : s.Safe) (hok : s.Timely .mark) (hs : s.step .mark = some s') : s'.Safe := by
  obtain ⟨deletions, ho, rfl⟩ := step_mark.1 hs
  refine ⟨?_, h.relied, h.planned⟩
  intro domain hd
  rcases Std.ExtTreeSet.mem_union_iff.1 hd with hd | hd
  · exact h.pending domain hd
  · exact hok domain (by rwa [Owes, ho])

theorem Safe.snapshot (h : s.Safe) (hs : s.step .snapshot = some s') : s'.Safe := by
  obtain ⟨hp, -, rfl⟩ := step_snapshot.1 hs
  have hmarked : ∀ domain ∈ s.sweeper.pending, s.Marked domain := h.marked_of_pending (by simp [hp])
  exact ⟨fun domain hd => .inl (hmarked domain hd), hmarked, nofun⟩

theorem Safe.scan (h : s.Safe) (hs : s.step .scan = some s') : s'.Safe := by
  obtain ⟨domains, pieces, hp, -, rfl⟩ := step_scan.1 hs
  have hrelied : ∀ domain ∈ domains, s.Marked domain := fun domain hd => h.relied domain (by rwa [Relied, hp])
  have hmarked : ∀ domain ∈ s.sweeper.pending, s.Marked domain := h.marked_of_pending (by simp [hp])
  exact ⟨fun domain hd => .inl (hmarked domain hd), hrelied, Planned.step h.planned hs⟩

/-- Removing planned records leaves all markers. -/
theorem Safe.remove (h : s.Safe) (hs : s.step .remove = some s') : s'.Safe := by
  have hkeep : ∀ domain, s.Marked domain → s'.Marked domain := fun domain => Planned.marked_remove h.planned hs
  obtain ⟨domains, piece, pieces, stats, store, hp, -, rfl⟩ := step_remove.1 hs
  have hmarked : ∀ domain ∈ s.sweeper.pending, s.Marked domain := h.marked_of_pending (by simp [hp])
  refine ⟨fun domain hd => .inl (hkeep domain (hmarked domain hd)), ?_, Planned.step h.planned hs⟩
  intro domain hd
  exact hkeep domain (h.relied domain (by rwa [Relied, hp]))

theorem Safe.removeMarkers (h : s.Safe) (hs : s.step .removeMarkers = some s') : s'.Safe := by
  obtain ⟨domains, stats, store, hp, hc, rfl⟩ := step_removeMarkers.1 hs
  obtain ⟨batch, hb, hc⟩ := bind_eq_ok_iff.1 hc
  have hkeep : ∀ domain ∉ domains, s.Marked domain → (store.get? (Sweeper.marker domain)).isSome := by
    intro domain hout hm
    obtain ⟨doomed, -, rfl⟩ := Sweeper.finalRemoval_eq_ok_iff.1 hb
    rw [Sweeper.get?_removal hc, if_neg]
    · exact hm
    · intro hmem
      exact hout (Sweeper.purged_marker.1 (Sweeper.mem_finalRemoval hb hmem))
  have hmarked : ∀ domain ∈ s.sweeper.pending, s.Marked domain := h.marked_of_pending (by simp [hp])
  refine ⟨?_, ?_, nofun⟩
  · intro domain hd
    by_cases hin : domain ∈ domains
    · refine .inr ((dropped_of_releasing rfl).2 ⟨hin, ?_⟩)
      exact Std.ExtTreeSet.not_mem_empty
    · exact .inl (hkeep domain hin (hmarked domain hd))
  · intro domain hd
    exact absurd hd Std.ExtTreeSet.not_mem_empty

theorem Safe.look (h : s.Safe) (hs : s.step (.look domain) = some s') : s'.Safe := by
  obtain ⟨domains, unread, again, hp, -, rfl⟩ := step_look.1 hs
  have hfound : ∀ d ∈ s.lookUp domain again, s.Marked d := by
    intro d hd
    rcases mem_lookUp.1 hd with hd | ⟨-, hm⟩
    · exact h.relied d (by rwa [Relied, hp])
    · exact hm
  refine ⟨?_, hfound, nofun⟩
  intro d hd
  rcases h.pending d hd with hm | hdrop
  · exact .inl hm
  · by_cases hin : d ∈ s.lookUp domain again
    · exact .inl (hfound d hin)
    · exact .inr ((dropped_of_releasing rfl).2 ⟨((dropped_of_releasing hp).1 hdrop).1, hin⟩)

theorem Safe.retain (h : s.Safe) (hs : s.step .retain = some s') : s'.Safe := by
  obtain ⟨domains, again, hp, rfl⟩ := step_retain.1 hs
  refine ⟨?_, nofun, nofun⟩
  intro domain hd
  obtain ⟨hpending, hstays⟩ := Sweeper.mem_release.1 hd
  rcases h.pending domain hpending with hm | hdrop
  · exact .inl hm
  · obtain ⟨hin, hout⟩ := (dropped_of_releasing hp).1 hdrop
    rcases hstays with hn | ha
    · exact absurd hin hn
    · exact absurd ha hout

theorem Safe.step (h : s.Safe) (hok : s.Timely a) (hs : s.step a = some s') : s'.Safe := by
  cases a with
  | commit => exact h.commit hs
  | mark => exact h.mark hok hs
  | snapshot => exact h.snapshot hs
  | scan => exact h.scan hs
  | remove => exact h.remove hs
  | removeMarkers => exact h.removeMarkers hs
  | look => exact h.look hs
  | retain => exact h.retain hs

/-! ## Timely marks are enough -/

/-- Records are removed by the planned commits of a sweep and by its last one, which takes those of its domains. -/
theorem Removes.cases (hr : Removes s s' key domain) (hs : s.step a = some s') :
    ∃ domains pieces, s.phase = .removing domains pieces ∧
      ((∃ piece ∈ pieces, key ∈ piece) ∨ Sweeper.Doomed s.sweeper.prefixLength domains key) := by
  obtain ⟨hkind, -, hbefore, hafter⟩ := hr
  have hchanged : s'.store.get? key ≠ s.store.get? key := by
    intro he
    rw [← he, hafter] at hbefore
    cases hbefore
  cases a with
  | commit placed deletions streams manifest =>
    obtain ⟨-, stats, store, hc, rfl⟩ := step_commit.1 hs
    have hsome : (store.get? key).isSome := Store.isSome_commitOf hc hbefore
    rw [hafter] at hsome
    cases hsome
  | remove =>
    obtain ⟨domains, piece, pieces, stats, store, hp, hc, rfl⟩ := step_remove.1 hs
    rw [Sweeper.get?_removal hc] at hchanged
    refine ⟨domains, _, hp, .inl ⟨piece, List.mem_cons_self, ?_⟩⟩
    by_contra hn
    exact hchanged (if_neg hn)
  | removeMarkers =>
    obtain ⟨domains, stats, store, hp, hc, rfl⟩ := step_removeMarkers.1 hs
    obtain ⟨batch, hb, hc⟩ := bind_eq_ok_iff.1 hc
    have hmem : key ∈ batch.removes := by
      obtain ⟨doomed, -, rfl⟩ := Sweeper.finalRemoval_eq_ok_iff.1 hb
      rw [Sweeper.get?_removal hc] at hchanged
      by_contra hn
      exact hchanged (if_neg hn)
    rcases Sweeper.mem_finalRemoval hb hmem with hd | ⟨d, -, rfl⟩
    · exact ⟨domains, [], hp, .inr hd⟩
    · rw [Sweeper.marker, Key.kindOf?_encode] at hkind
      cases hkind
  | mark | snapshot | scan | look | retain =>
    rw [store_step hs id] at hchanged
    exact absurd rfl hchanged

/-- A step that removes a record finds the marker of its domain. -/
theorem Safe.marked_of_removes (h : s.Safe) (hs : s.step a = some s') (hr : Removes s s' key domain) :
    s.Marked domain := by
  obtain ⟨domains, pieces, hp, hcase⟩ := hr.cases hs
  have hdoomed : Sweeper.Doomed s.sweeper.prefixLength domains key := by
    rcases hcase with ⟨piece, hpiece, hkey⟩ | hd
    · exact h.planned domains pieces hp piece hpiece key hkey
    · exact hd
  obtain ⟨-, d, hd, he⟩ := hdoomed
  rw [hr.domainOf] at he
  cases he
  exact h.relied domain (by rwa [Relied, hp])

/-- While marks are timely, records go at a moment when the marker is there. -/
theorem justified_of_timely (h : start.Opens) (ha : Always Timely start actions) : start.Justified actions := by
  rintro past a s s' key domain ⟨rest, rfl⟩ hrun hs hr
  have hpast := (Steps.always_append.1 (Steps.always_append.1 ha).1).1
  have hm := (Steps.run_invariant Safe.step h.safe hpast hrun).marked_of_removes hs hr
  exact ⟨past, [], s, (List.append_nil _).symm, hrun, hm, nofun⟩

end PhraseIndex.Shared
