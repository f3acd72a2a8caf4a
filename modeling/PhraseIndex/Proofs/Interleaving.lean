import PhraseIndex.Proofs.Operations
import PhraseIndex.Proofs.Steps

/-!
# A writer and a sweeper side by side

The writer commits a batch to the index and hands the deleted domains to the sweeper in a second step. A sweep is made
of several commits and readings. `Shared.step` makes one such step of either, with an inversion lemma for each, and a
run is any order of them (`Shared.run`).
-/

namespace PhraseIndex

/-- How far a sweep has come. -/
inductive Phase
  | idle
  /-- It has taken over the pending domains. -/
  | begun (domains : DomainSet)
  /-- It has read the keys and has these commits to make before the one of the markers. -/
  | removing (domains : DomainSet) (pieces : List (List Bytes))
  /-- The markers are gone. It has these domains still to look up and has found these marked again. -/
  | releasing (domains : DomainSet) (unread : List Domain) (again : DomainSet)

/-- What the writer and the sweeper share. -/
structure Shared where
  store : Store
  sweeper : Sweeper
  /-- The deletions of a committed batch of which the writer has not yet told the sweeper. -/
  owed : Option DomainSet := none
  phase : Phase := .idle

namespace Shared

inductive Action
  | commit (placed : List Placement) (deletions : DomainSet) (streams : Streams) (manifest : Option Manifest)
  | mark
  | snapshot
  | scan
  | remove
  | removeMarkers
  | look (domain : Domain)
  | retain

/-- The domain has a marker in the index. -/
def Marked (s : Shared) (domain : Domain) : Prop := (s.store.get? (Sweeper.marker domain)).isSome

instance (s : Shared) (domain : Domain) : Decidable (s.Marked domain) :=
  inferInstanceAs (Decidable ((s.store.get? (Sweeper.marker domain)).isSome = true))

/-- The domains that were found marked, once this one has been looked up too. -/
def lookUp (s : Shared) (domain : Domain) (again : DomainSet) : DomainSet :=
  if s.Marked domain then again.insert domain else again

/-- The steps of a sweep. -/
def Action.Sweeps : Action → Prop
  | .commit .. | .mark => False
  | _ => True

/-- One step of the writer or of the sweeper, if it is their turn to make it. There is one sweep at a time. -/
def step (s : Shared) : Action → Option Shared
  | .commit placed deletions streams manifest =>
    let batch := Model.commitOf (Fragments.ofPairs s.sweeper.prefixLength placed) deletions streams manifest
    match s.owed, s.store.commit batch with
    | none, .ok (_, store) => some { s with store, owed := some deletions }
    | _, _ => none
  | .mark => s.owed.map fun deletions => { s with sweeper := s.sweeper.mark deletions, owed := none }
  | .snapshot =>
    match s.phase with
    | .idle => if s.sweeper.pending.isEmpty then none else some { s with phase := .begun s.sweeper.pending }
    | _ => none
  | .scan =>
    match s.phase with
    | .begun domains =>
      match s.sweeper.plan domains s.store with
      | (pieces, none) => some { s with phase := .removing domains pieces }
      | (_, some _) => none
    | _ => none
  | .remove =>
    match s.phase with
    | .removing domains (piece :: pieces) =>
      match s.store.commit (Sweeper.removal piece) with
      | .ok (_, store) => some { s with store, phase := .removing domains pieces }
      | .error _ => none
    | _ => none
  | .removeMarkers =>
    match s.phase with
    | .removing domains [] =>
      match s.store.commitWith (s.sweeper.finalRemoval domains) with
      | .ok (_, store) => some { s with store, phase := .releasing domains domains.toList ∅ }
      | .error _ => none
    | _ => none
  | .look domain =>
    match s.phase with
    | .releasing domains unread again =>
      if domain ∈ unread then
        some { s with phase := .releasing domains (unread.erase domain) (s.lookUp domain again) }
      else none
    | _ => none
  | .retain =>
    match s.phase with
    | .releasing domains [] again => some { s with sweeper := s.sweeper.release domains again, phase := .idle }
    | _ => none

/-- The steps in this order, if all of them can be made. -/
abbrev run (s : Shared) (actions : List Action) : Option Shared := Steps.run step s actions

/-- Whenever a step is made, the condition holds. -/
abbrev Always (ok : Shared → Action → Prop) : Shared → List Action → Prop := Steps.Always step ok

/-- A sweeper that has just taken up the markers, with the writer at rest. -/
structure Opens (s : Shared) : Prop where
  pending : ∀ domain, domain ∈ s.sweeper.pending ↔ s.Marked domain
  owed : s.owed = none
  phase : s.phase = .idle

variable {s s' s'' : Shared} {a : Action} {actions past more : List Action} {domains deletions : DomainSet}
  {domain : Domain}

/-! ## What a step can do -/

theorem step_commit {placed : List Placement} {streams : Streams} {manifest : Option Manifest} :
    s.step (.commit placed deletions streams manifest) = some s' ↔ s.owed = none ∧ ∃ stats store,
      s.store.commit (Model.commitOf (Fragments.ofPairs s.sweeper.prefixLength placed) deletions streams manifest) =
        .ok (stats, store) ∧ { s with store, owed := some deletions } = s' := by
  unfold step
  cases hc : s.store.commit
      (Model.commitOf (Fragments.ofPairs s.sweeper.prefixLength placed) deletions streams manifest) with
  | error e => cases s.owed <;> simp [hc]
  | ok r =>
    obtain ⟨stats, store⟩ := r
    cases s.owed <;> simp [hc]

theorem step_mark : s.step .mark = some s' ↔
    ∃ deletions, s.owed = some deletions ∧ { s with sweeper := s.sweeper.mark deletions, owed := none } = s' :=
  Option.map_eq_some_iff

theorem step_snapshot : s.step .snapshot = some s' ↔
    s.phase = .idle ∧ s.sweeper.pending ≠ ∅ ∧ { s with phase := .begun s.sweeper.pending } = s' := by
  unfold step
  cases s.phase with
  | idle => by_cases h : s.sweeper.pending = ∅ <;> simp [h]
  | begun | removing | releasing => simp

theorem step_scan : s.step .scan = some s' ↔ ∃ domains pieces, s.phase = .begun domains ∧
    s.sweeper.plan domains s.store = (pieces, none) ∧ { s with phase := .removing domains pieces } = s' := by
  unfold step
  cases s.phase with
  | begun domains =>
    cases hp : s.sweeper.plan domains s.store with
    | mk pieces failure => cases failure <;> simp [hp]
  | idle | removing | releasing => simp

theorem step_remove : s.step .remove = some s' ↔ ∃ domains piece pieces stats store,
    s.phase = .removing domains (piece :: pieces) ∧ s.store.commit (Sweeper.removal piece) = .ok (stats, store) ∧
      { s with store, phase := .removing domains pieces } = s' := by
  unfold step
  cases s.phase with
  | removing domains pieces =>
    cases pieces with
    | nil => simp
    | cons piece pieces =>
      cases hc : s.store.commit (Sweeper.removal piece) with
      | error e => simp [hc]
      | ok r =>
        obtain ⟨stats, store⟩ := r
        simp [hc]
  | idle | begun | releasing => simp

theorem step_removeMarkers : s.step .removeMarkers = some s' ↔ ∃ domains stats store,
    s.phase = .removing domains [] ∧ s.store.commitWith (s.sweeper.finalRemoval domains) = .ok (stats, store) ∧
      { s with store, phase := .releasing domains domains.toList ∅ } = s' := by
  unfold step
  cases s.phase with
  | removing domains pieces =>
    cases pieces with
    | cons piece pieces => simp
    | nil =>
      cases hc : s.store.commitWith (s.sweeper.finalRemoval domains) with
      | error e => simp [hc]
      | ok r =>
        obtain ⟨stats, store⟩ := r
        simp [hc]
  | idle | begun | releasing => simp

theorem step_look : s.step (.look domain) = some s' ↔ ∃ domains unread again,
    s.phase = .releasing domains unread again ∧ domain ∈ unread ∧
      { s with phase := .releasing domains (unread.erase domain) (s.lookUp domain again) } = s' := by
  unfold step
  cases s.phase with
  | releasing domains unread again => by_cases h : domain ∈ unread <;> simp [h]
  | idle | begun | removing => simp

theorem mem_lookUp {d : Domain} {again : DomainSet} :
    d ∈ s.lookUp domain again ↔ d ∈ again ∨ d = domain ∧ s.Marked d := by
  unfold lookUp
  split
  · next hm =>
    rw [Std.ExtTreeSet.mem_insert, Std.LawfulEqCmp.compare_eq_iff_eq]
    constructor
    · rintro (rfl | h)
      · exact .inr ⟨rfl, hm⟩
      · exact .inl h
    · rintro (h | ⟨rfl, -⟩)
      · exact .inr h
      · exact .inl rfl
  · next hm =>
    refine ⟨.inl, ?_⟩
    rintro (h | ⟨rfl, h⟩)
    · exact h
    · exact absurd h hm

theorem step_retain : s.step .retain = some s' ↔ ∃ domains again, s.phase = .releasing domains [] again ∧
    { s with sweeper := s.sweeper.release domains again, phase := .idle } = s' := by
  unfold step
  cases s.phase with
  | releasing domains unread again => cases unread <;> simp
  | idle | begun | removing => simp

/-- The configuration of the sweeper stays. -/
theorem config_step (h : s.step a = some s') :
    s'.sweeper.prefixLength = s.sweeper.prefixLength ∧ s'.sweeper.batchSize = s.sweeper.batchSize := by
  cases a with
  | commit placed deletions streams manifest =>
    obtain ⟨-, stats, store, -, rfl⟩ := step_commit.1 h
    exact ⟨rfl, rfl⟩
  | mark =>
    obtain ⟨deletions, -, rfl⟩ := step_mark.1 h
    exact ⟨rfl, rfl⟩
  | snapshot =>
    obtain ⟨-, -, rfl⟩ := step_snapshot.1 h
    exact ⟨rfl, rfl⟩
  | scan =>
    obtain ⟨domains, pieces, -, -, rfl⟩ := step_scan.1 h
    exact ⟨rfl, rfl⟩
  | remove =>
    obtain ⟨domains, piece, pieces, stats, store, -, -, rfl⟩ := step_remove.1 h
    exact ⟨rfl, rfl⟩
  | removeMarkers =>
    obtain ⟨domains, stats, store, -, -, rfl⟩ := step_removeMarkers.1 h
    exact ⟨rfl, rfl⟩
  | look domain =>
    obtain ⟨domains, unread, again, -, -, rfl⟩ := step_look.1 h
    exact ⟨rfl, rfl⟩
  | retain =>
    obtain ⟨domains, again, -, rfl⟩ := step_retain.1 h
    exact ⟨rfl, rfl⟩

/-! ### The index -/

/-- The steps that write to the index. -/
def Action.Writes : Action → Prop
  | .commit .. | .remove | .removeMarkers => True
  | _ => False

theorem store_step (h : s.step a = some s') (ha : ¬a.Writes) : s'.store = s.store := by
  cases a with
  | commit | remove | removeMarkers => exact absurd trivial ha
  | mark =>
    obtain ⟨deletions, -, rfl⟩ := step_mark.1 h
    rfl
  | snapshot =>
    obtain ⟨-, -, rfl⟩ := step_snapshot.1 h
    rfl
  | scan =>
    obtain ⟨domains, pieces, -, -, rfl⟩ := step_scan.1 h
    rfl
  | look domain =>
    obtain ⟨domains, unread, again, -, -, rfl⟩ := step_look.1 h
    rfl
  | retain =>
    obtain ⟨domains, again, -, rfl⟩ := step_retain.1 h
    rfl

/-- Only the commit of a batch adds to the index. Every other step leaves what a key holds or takes it away. -/
theorem get?_step (h : s.step a = some s') (ha : a.Sweeps ∨ a = .mark) (key : Bytes) :
    s'.store.get? key = none ∨ s'.store.get? key = s.store.get? key := by
  cases a with
  | commit => rcases ha with ha | ha <;> cases ha
  | remove =>
    obtain ⟨domains, piece, pieces, stats, store, -, hc, rfl⟩ := step_remove.1 h
    rw [Sweeper.get?_removal hc]
    split
    · exact .inl rfl
    · exact .inr rfl
  | removeMarkers =>
    obtain ⟨domains, stats, store, -, hc, rfl⟩ := step_removeMarkers.1 h
    obtain ⟨batch, hb, hc⟩ := bind_eq_ok_iff.1 hc
    obtain ⟨doomed, -, rfl⟩ := Sweeper.finalRemoval_eq_ok_iff.1 hb
    rw [Sweeper.get?_removal hc]
    split
    · exact .inl rfl
    · exact .inr rfl
  | mark | snapshot | scan | look | retain =>
    rw [store_step h id]
    exact .inr rfl

theorem marked_of_step (h : s.step a = some s') (ha : a.Sweeps ∨ a = .mark) (hm : s'.Marked domain) :
    s.Marked domain := by
  rcases get?_step h ha (Sweeper.marker domain) with hn | he
  · rw [Marked, hn] at hm
    cases hm
  · rwa [Marked, he] at hm

/-- The markers after a step of the writer. -/
theorem marked_commit {placed : List Placement} {deletions : DomainSet} {streams : Streams} {manifest : Option Manifest}
    (h : s.step (.commit placed deletions streams manifest) = some s') :
    s'.Marked domain ↔ s.Marked domain ∨ domain ∈ deletions := by
  obtain ⟨-, stats, store, hc, rfl⟩ := step_commit.1 h
  exact Store.isSome_marker_commitOf hc domain

/-! ### What is about to happen -/

/-- The writer has still to mark the domain. -/
def Owes (s : Shared) (domain : Domain) : Prop := domain ∈ s.owed.getD ∅

instance (s : Shared) (domain : Domain) : Decidable (s.Owes domain) := inferInstanceAs (Decidable (_ ∈ _))

/-- The domains that the sweep is about to forget. -/
def dropped (s : Shared) : DomainSet :=
  match s.phase with
  | .releasing domains _ again => domains.filter fun domain => !again.contains domain
  | _ => ∅

theorem mem_dropped : domain ∈ s.dropped ↔
    ∃ domains unread again, s.phase = .releasing domains unread again ∧ domain ∈ domains ∧ domain ∉ again := by
  unfold dropped
  cases s.phase with
  | releasing domains unread again => simp [Bool.eq_false_iff, Std.ExtTreeSet.contains_iff_mem]
  | idle | begun | removing => simp

/-! ## Runs -/

theorem config_run (hr : s.run actions = some s') :
    s'.sweeper.prefixLength = s.sweeper.prefixLength ∧ s'.sweeper.batchSize = s.sweeper.batchSize := by
  let same (t : Shared) : Prop :=
    t.sweeper.prefixLength = s.sweeper.prefixLength ∧ t.sweeper.batchSize = s.sweeper.batchSize
  have hstep : ∀ {t a t'}, same t → True → step t a = some t' → same t' := by
    intro t a t' ht _ h
    obtain ⟨hl, hb⟩ := config_step h
    exact ⟨hl.trans ht.1, hb.trans ht.2⟩
  exact Steps.run_invariant (P := same) hstep ⟨rfl, rfl⟩ (Steps.always_of_forall fun _ _ _ => trivial) hr

/-- An empty index, to begin with. -/
def blank : Shared := { store := {}, sweeper := { prefixLength := 4, batchSize := 1 } }

theorem opens_blank : blank.Opens where
  pending domain := by simp [blank, Marked, Store.get?]
  owed := rfl
  phase := rfl

end Shared

end PhraseIndex
