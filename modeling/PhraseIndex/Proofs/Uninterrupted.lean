import PhraseIndex.Proofs.Interleaving

/-!
# The writer or the sweeper alone

What the steps come to when the other party does nothing is what the index does: the two steps of the writer store a
batch (`run_commitBatch`), and those of a sweep are `Sweeper.sweep` (`run_sweep`).
-/

namespace PhraseIndex

namespace Shared

variable {s : Shared} {domains : DomainSet}

/-! ## The writer -/

/-- A commit and the mark after it store a batch. -/
theorem run_commitBatch {m m' : Model} {d d' : Durable} {batch : UpdateBatch} {size : Nat} (hd : d.store = s.store)
    (hl : s.sweeper.prefixLength = m.config.prefixLength) (ho : s.owed = none)
    (hc : m.commitBatch d batch = (.ok size, m', d')) : ∃ placed manifest,
      s.run [.commit (batch.entries.zip placed) batch.deletions (m.streams.merge batch.streams) manifest, .mark] =
        some { s with store := d'.store, sweeper := s.sweeper.mark batch.deletions } := by
  rcases m.commitBatch_cases d batch with
    ⟨pair, -, -, he⟩ | ⟨-, offsets, corpus, disk, -, ⟨e, -, he⟩ | ⟨placed, stats, store, size', -, hcommit, he⟩⟩
  · rw [he] at hc
    cases hc
  · rw [he] at hc
    cases hc
  · rw [he] at hc
    cases hc
    rw [Model.commitFor, ← hl, hd] at hcommit
    refine ⟨placed, _, Steps.run_cons.2 ⟨_, step_commit.2 ⟨ho, stats, store, hcommit, rfl⟩, Steps.run_singleton.2 ?_⟩⟩
    rw [step_mark]
    exact ⟨batch.deletions, rfl, by rw [← ho]⟩

/-! ## A sweep -/

theorem run_removes {pieces : List (List Bytes)} {store : Store} (hp : s.phase = .removing domains pieces)
    (hr : Sweeper.removeAll s.store pieces = (.ok (), store)) :
    s.run (List.replicate pieces.length .remove) = some { s with store, phase := .removing domains [] } := by
  induction pieces generalizing s with
  | nil =>
    cases hr
    rw [← hp]
    rfl
  | cons piece pieces ih =>
    unfold Sweeper.removeAll at hr
    cases hc : s.store.commit (Sweeper.removal piece) with
    | error e =>
      rw [hc] at hr
      cases hr
    | ok r =>
      obtain ⟨stats, store₁⟩ := r
      rw [hc] at hr
      rw [List.length_cons, List.replicate_succ, Steps.run_cons]
      exact ⟨_, step_remove.2 ⟨domains, piece, pieces, stats, store₁, hp, hc, rfl⟩, ih rfl hr⟩

/-- All domains that are left are looked up, in any order. -/
theorem run_looks {unread : List Domain} {again : DomainSet} (hp : s.phase = .releasing domains unread again) :
    ∃ found, s.run (unread.map .look) = some { s with phase := .releasing domains [] found } ∧
      ∀ d, d ∈ found ↔ d ∈ again ∨ d ∈ unread ∧ s.Marked d := by
  induction unread generalizing s again with
  | nil =>
    refine ⟨again, ?_, fun d => by simp⟩
    rw [← hp]
    rfl
  | cons domain unread ih =>
    let s₁ : Shared := { s with phase := .releasing domains unread (s.lookUp domain again) }
    obtain ⟨found, hrun, hfound⟩ := @ih s₁ (s.lookUp domain again) rfl
    refine ⟨found, ?_, ?_⟩
    · rw [List.map_cons, Steps.run_cons]
      refine ⟨s₁, step_look.2 ⟨domains, domain :: unread, again, hp, List.mem_cons_self, ?_⟩, hrun⟩
      rw [List.erase_cons_head]
    · intro d
      have hm : s₁.Marked d ↔ s.Marked d := Iff.rfl
      rw [hfound, hm, mem_lookUp, List.mem_cons]
      tauto

/-- From the markers on, the steps of a sweep look the domains up and release them. -/
theorem run_release {stats : CommitStats} {store : Store} (hp : s.phase = .removing domains [])
    (hc : s.store.commitWith (s.sweeper.finalRemoval domains) = .ok (stats, store)) :
    s.run (.removeMarkers :: (domains.toList.map .look ++ [.retain])) = some
      { s with store, sweeper := s.sweeper.release domains (Sweeper.remarked domains store), phase := .idle } := by
  let s₁ : Shared := { s with store, phase := .releasing domains domains.toList ∅ }
  obtain ⟨found, hrun, hfound⟩ := @run_looks s₁ domains domains.toList ∅ rfl
  have hagain : found = Sweeper.remarked domains store := Std.ExtTreeSet.ext_mem fun d => by
    rw [hfound, Sweeper.mem_remarked, Std.ExtTreeSet.mem_toList]
    simp [s₁, Marked]
  rw [← hagain]
  refine Steps.run_cons.2 ⟨s₁, step_removeMarkers.2 ⟨domains, stats, store, hp, hc, rfl⟩,
    Steps.run_append.2 ⟨_, hrun, ?_⟩⟩
  exact Steps.run_singleton.2 (step_retain.2 ⟨domains, found, rfl, rfl⟩)

/-- The steps of a sweep that nothing comes between are `Sweeper.sweep`. -/
theorem run_sweep {stats : SweepStats} {sweeper : Sweeper} {store : Store} (hp : s.phase = .idle)
    (hs : s.sweeper.sweep s.store = (.ok stats, sweeper, store)) (hne : s.sweeper.pending ≠ ∅) :
    ∃ actions, (∀ a ∈ actions, a.Sweeps) ∧ s.run actions = some { s with store, sweeper } := by
  rcases Sweeper.sweep_cases s.sweeper s.store with
    ⟨hidle, -⟩ | ⟨store₁, hall, ⟨e, he⟩ | ⟨stats, commit, store₂, hnone, hc, hdone⟩⟩
  · exact absurd (Std.ExtTreeSet.isEmpty_iff.1 hidle) hne
  · rw [he] at hs
    cases hs
  · rw [hdone] at hs
    cases hs
    obtain ⟨pieces, hplan⟩ : ∃ pieces, s.sweeper.plan s.sweeper.pending s.store = (pieces, none) :=
      ⟨_, Prod.ext rfl hnone⟩
    rw [hplan] at hall
    refine ⟨.snapshot :: .scan :: (List.replicate pieces.length .remove ++
      .removeMarkers :: (s.sweeper.pending.toList.map .look ++ [.retain])), ?_, ?_⟩
    · intro a ha
      simp only [List.mem_cons, List.mem_append, List.mem_replicate, List.mem_map,
        List.not_mem_nil, or_false] at ha
      obtain rfl | rfl | ⟨-, rfl⟩ | rfl | ⟨d, -, rfl⟩ | rfl := ha <;> trivial
    · refine Steps.run_cons.2 ⟨_, step_snapshot.2 ⟨hp, hne, rfl⟩, Steps.run_cons.2
        ⟨_, step_scan.2 ⟨_, pieces, rfl, hplan, rfl⟩, Steps.run_append.2 ⟨_, run_removes rfl hall, ?_⟩⟩⟩
      rw [hp]
      exact run_release rfl hc

end Shared

end PhraseIndex
