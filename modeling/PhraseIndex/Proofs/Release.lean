import PhraseIndex.Proofs.Interleaving

/-!
# What a release forgets

A sweep looks its domains up one by one and then takes those without a marker out of the pending ones. A batch that
comes between the two has its deletion forgotten until the index is opened again. Domains with a marker stay pending
exactly if no release is taken by surprise in this way (`pending_iff_fresh`).
-/

namespace PhraseIndex.Shared

variable {start s s' : Shared} {a : Action} {actions past : List Action} {domain : Domain}

/-- A release is fresh if no domain that it forgets has a marker, unless the writer is about to mark it. -/
def Fresh (s : Shared) : Action → Prop
  | .retain => ∀ domain ∈ s.dropped, s.Marked domain → s.Owes domain
  | _ => True

instance (s : Shared) (a : Action) : Decidable (s.Fresh a) :=
  match a with
  | .retain => decidable_of_iff (s.dropped.toList.all fun domain => decide (s.Marked domain → s.Owes domain)) (by
    simp only [Fresh, List.all_eq_true, Std.ExtTreeSet.mem_toList, decide_eq_true_eq])
  | .commit .. | .mark | .snapshot | .scan | .remove | .removeMarkers | .look _ => isTrue trivial

/-- The sweeper knows every domain with a marker, or will be told of it. -/
def Known (s : Shared) : Prop := ∀ domain, s.Marked domain → domain ∈ s.sweeper.pending ∨ s.Owes domain

theorem Known.step (h : s.Known) (hok : s.Fresh a) (hs : s.step a = some s') : s'.Known := by
  intro domain hm
  cases a with
  | commit placed deletions streams manifest =>
    rw [marked_commit hs] at hm
    obtain ⟨ho, stats, store, -, rfl⟩ := step_commit.1 hs
    rcases hm with hm | hd
    · rcases h domain hm with hp | howes
      · exact .inl hp
      · simp [Owes, ho] at howes
    · exact .inr hd
  | mark =>
    have hold := h domain (marked_of_step hs (.inr rfl) hm)
    obtain ⟨deletions, ho, rfl⟩ := step_mark.1 hs
    rw [Owes, ho] at hold
    exact .inl (Std.ExtTreeSet.mem_union_iff.2 hold)
  | snapshot =>
    obtain ⟨-, -, rfl⟩ := step_snapshot.1 hs
    exact h domain hm
  | scan =>
    obtain ⟨domains, pieces, -, -, rfl⟩ := step_scan.1 hs
    exact h domain hm
  | remove =>
    have hold := h domain (marked_of_step hs (.inl trivial) hm)
    obtain ⟨domains, piece, pieces, stats, store, -, -, rfl⟩ := step_remove.1 hs
    exact hold
  | removeMarkers =>
    have hold := h domain (marked_of_step hs (.inl trivial) hm)
    obtain ⟨domains, stats, store, -, -, rfl⟩ := step_removeMarkers.1 hs
    exact hold
  | look domain =>
    obtain ⟨domains, unread, again, -, -, rfl⟩ := step_look.1 hs
    exact h _ hm
  | retain =>
    obtain ⟨domains, again, hp, rfl⟩ := step_retain.1 hs
    by_cases hd : domain ∈ s.dropped
    · exact .inr (hok domain hd hm)
    · rcases h domain hm with hpending | howes
      · refine .inl (Sweeper.mem_release.2 ⟨hpending, ?_⟩)
        by_contra hn
        rw [not_or, not_not] at hn
        exact hd (mem_dropped.2 ⟨domains, [], again, hp, hn⟩)
      · exact .inr howes

theorem Opens.known (h : start.Opens) : start.Known := fun domain hm => .inl ((h.pending domain).2 hm)

/-- The writer does the mark that it owes. -/
def settle (s : Shared) : Shared :=
  match s.owed with
  | none => s
  | some deletions => { s with sweeper := s.sweeper.mark deletions, owed := none }

theorem known_iff : s.Known ↔ ∀ domain, s.settle.Marked domain → domain ∈ s.settle.sweeper.pending := by
  unfold Known settle Owes
  cases ho : s.owed with
  | none => simp
  | some deletions =>
    simp only [Option.getD_some, ← Std.ExtTreeSet.mem_union_iff]
    rfl

/-- After every step of a run, once the writer has done the mark that it owes, all domains with a marker are pending:
this is so exactly if every release of the run is fresh. -/
theorem pending_iff_fresh (h : start.Opens) (hr : (start.run actions).isSome) : Always Fresh start actions ↔
    ∀ past s, past <+: actions → start.run past = some s →
      ∀ domain, s.settle.Marked domain → domain ∈ s.settle.sweeper.pending := by
  constructor
  · rintro ha past s ⟨rest, rfl⟩ hs
    exact known_iff.1 (Steps.run_invariant Known.step h.known (Steps.always_append.1 ha).1 hs)
  · intro hall
    apply Steps.always_of_past
    intro past a s hp hs _
    cases a with
    | retain =>
      intro domain hd hm
      obtain ⟨s', hs'⟩ := Steps.exists_run_of_le hr hp
      have hknown := known_iff.2 (hall _ s' hp hs')
      obtain ⟨s₁, hs₁, hstep⟩ := Steps.run_append.1 hs'
      cases hs.symm.trans hs₁
      obtain ⟨domains, again, hphase, rfl⟩ := step_retain.1 (Steps.run_singleton.1 hstep)
      obtain ⟨domains', unread, again', hphase', hin, hout⟩ := mem_dropped.1 hd
      rw [hphase] at hphase'
      cases hphase'
      rcases hknown domain hm with hpending | howes
      · rcases (Sweeper.mem_release.1 hpending).2 with hn | hn
        · exact absurd hin hn
        · exact absurd hn hout
      · exact howes
    | commit | mark | snapshot | scan | remove | removeMarkers | look => trivial

/-- A domain is deleted, swept and deleted again. -/
def deletedTwice : List Action :=
  [.commit [] {1} .empty none, .mark, .snapshot, .scan, .removeMarkers, .look 1, .retain, .commit [] {1} .empty none,
    .mark]

theorem pending_deletedTwice : Always Fresh blank deletedTwice ∧ ∀ past s, past <+: deletedTwice →
    blank.run past = some s → ∀ domain, s.settle.Marked domain → domain ∈ s.settle.sweeper.pending := by
  have hfresh : Always Fresh blank deletedTwice := by decide +kernel
  exact ⟨hfresh, (pending_iff_fresh opens_blank (by decide +kernel)).1 hfresh⟩

/-- The second deletion comes between the look at the domain and its release. -/
def deletedUnseen : List Action :=
  [.commit [] {1} .empty none, .mark, .snapshot, .scan, .removeMarkers, .look 1, .commit [] {1} .empty none, .mark,
    .retain]

/-- The marker stands, the writer owes nothing, and the domain is not pending. -/
theorem forgotten_deletedUnseen : blank.Opens ∧ ∃ s, blank.run deletedUnseen = some s ∧ s.owed = none ∧ s.Marked 1 ∧
    1 ∉ s.sweeper.pending := by
  have hrun : (blank.run deletedUnseen).any fun s => s.owed = none ∧ s.Marked 1 ∧ 1 ∉ s.sweeper.pending := by
    decide +kernel
  obtain ⟨s, hs, h⟩ := (Option.any_eq_true _ _).1 hrun
  exact ⟨opens_blank, s, hs, of_decide_eq_true h⟩

end PhraseIndex.Shared
