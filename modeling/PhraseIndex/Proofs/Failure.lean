import PhraseIndex.Proofs.Accounts
import PhraseIndex.Proofs.Adoption
import PhraseIndex.Proofs.Regrouping

/-!
# A batch that fails

A batch can fail because a sentence is too long, while its sentences are appended, in the commit, or because the system
refuses a write (`Model.Fails`). The three kinds of errors are told apart by their kind (`Corpus.kind_of_append`,
`Store.concernsIndex_of_commit`). Whatever the cause, nothing of the batch can be seen: the index, the stream positions
and the pending domains are what they were, and the corpus has only grown (`Model.unchanged_of_fails`).
-/

namespace PhraseIndex

/-! ## The errors of a batch -/

section Errors

variable {c c' : Corpus} {disk disk' : Disk} {pair : SentencePair} {s : Store} {b : WriteBatch} {e : Error}

theorem Corpus.kind_of_prepare {size : Nat} (h : c.prepare disk size = .error e) : e.kind = .storage := by
  unfold prepare at h
  split at h
  · unfold roll at h
    cases ho : disk.openOrCreate (filePath c.dir (c.active.id + 1)).place with
    | error cause =>
      simp only [ho, Except.mapError, bind, Except.bind] at h
      cases h
      rfl
    | ok created =>
      simp only [ho, Except.mapError, bind, Except.bind] at h
      cases h
  · cases h

/-- A sentence pair that cannot be appended is a failure of the corpus. -/
theorem Corpus.kind_of_append (h : c.append disk pair = (.error e, c', disk')) : e.kind = .storage := by
  unfold append at h
  dsimp only at h
  split at h
  · cases h
    rfl
  · split at h
    · next hp =>
      cases h
      exact kind_of_prepare hp
    · cases h

theorem Corpus.kind_of_appendAll {pairs : List SentencePair}
    (h : Model.appendAll c disk pairs = (.error e, c', disk')) :
    e.kind = .storage := by
  induction pairs generalizing c disk with
  | nil => cases h
  | cons pair pairs ih =>
    unfold Model.appendAll at h
    cases hone : c.append disk pair with
    | mk first rest =>
      obtain ⟨c₁, disk₁⟩ := rest
      rw [hone] at h
      cases first with
      | error e' =>
        cases h
        exact kind_of_append hone
      | ok offset =>
        cases hrest : Model.appendAll c₁ disk₁ pairs with
        | mk offsets rest =>
          obtain ⟨c₂, disk₂⟩ := rest
          simp only [hrest, Prod.mk.injEq] at h
          obtain ⟨hoffsets, rfl, rfl⟩ := h
          rw [map_eq_error_iff.1 hoffsets] at hrest
          exact ih hrest

/-- A commit that fails is a failure of the index. -/
theorem Store.concernsIndex_of_commit (h : s.commit b = .error e) : e.kind.concernsIndex = true := by
  rcases bind_eq_error_iff.1 h with hmerged | ⟨merged, -, hpure⟩
  · obtain ⟨⟨key, operands⟩, -, hvalue⟩ := mapM_error hmerged
    rcases bind_eq_error_iff.1 (map_eq_error_iff.1 hvalue) with hfull | ⟨value, -, hnone⟩
    · rw [Merge.kind_of_full hfull]
      rfl
    · cases value with
      | none =>
        cases hnone
        rfl
      | some value => cases hnone
  · cases hpure

end Errors

/-! ## Open indexes hold their files -/

namespace Session

variable {s : Session} {m : Model} {path : Path}

/-- An open index holds its files. -/
def Held (s : Session) : Prop := ∀ m ∈ s.model, m.corpus.Held s.durable.disk

theorem held_openAt (d : Durable) (config : Config) {m : Model} (h : (Model.openAt d path config).1 = .ok m) :
    m.corpus.Held (Model.openAt d path config).2.disk := by
  obtain ⟨disk, manifest, ho⟩ := Model.exists_openAt_corpus h
  exact (Corpus.measured_openAt ho).2.1

/-- Whatever is done to an index, it holds its files while it is open. -/
theorem held_step (h : s.Held) (op : Operation) : (s.step path op).Held := by
  intro m' hm'
  have hopen : ∀ config, op = .openAt config → m'.corpus.Held (s.step path op).durable.disk := by
    rintro config rfl
    have hok : (Model.openAt s.durable path config).1.toOption = some m' := hm'
    exact held_openAt s.durable config (toOption_eq_some_iff.1 hok)
  cases hm : s.model with
  | none =>
    cases op with
    | openAt config => exact hopen config rfl
    | close => cases hm'
    | put | refuse | compact | sweep | sweepInBackground =>
      simp only [step, act, hm] at hm'
      cases hm'
  | some m =>
    rcases grows_cases path hm op with ⟨config, ho⟩ | rfl | ⟨m₁, hm₁, -, hgrows⟩
    · exact hopen config ho
    · cases hm'
    · rw [hm₁] at hm'
      cases hm'
      exact hgrows.held (h m hm)

end Session

/-! ## Failing -/

namespace Model

variable {m m' : Model} {d d' : Durable} {batch : UpdateBatch}

/-- How a batch can fail: with an error of the index, or because the system refuses to write the corpus or the
commit. -/
inductive Fails (m : Model) (d : Durable) (batch : UpdateBatch) : Option Error → Model → Durable → Prop
  | answered {seconds : Float} {e : Error} {m' : Model} {d' : Durable}
      (h : m.put d batch seconds = (.error e, m', d')) :
    Fails m d batch (some e) m' d'
  | refused {sentences : Nat} {torn : Option Nat} {m' : Model} {d' : Durable}
    (h : m.breakOff d batch sentences torn = (m', d')) : Fails m d batch none m' d'

/-- Only a batch that is refused for a sentence that is too long says so. -/
theorem put_error (h : m.put d batch seconds = (.error e, m', d')) : d'.store = d.store ∧ m'.streams = m.streams ∧
    m'.sweeper = m.sweeper ∧ m.corpus.Grows d.disk m'.corpus d'.disk ∧
      ∀ words, e = .sentenceTooLong words → m'.corpus = m.corpus ∧ d'.disk = d.disk := by
  rcases m.put_cases d batch seconds with
    ⟨e', m₁, disk, hput, -, hstreams, hsweeper, hcause⟩ | ⟨m₁, placed, disk, stats, store, -, -, -, -, -, -, hput⟩
  · rw [hput] at h
    cases h
    refine ⟨rfl, hstreams, hsweeper, ?_⟩
    rcases hcause with ⟨-, hcorpus, rfl⟩ | ⟨offsets, ha, hcause⟩
    · rw [hcorpus]
      exact ⟨.refl _ _, fun _ _ => ⟨rfl, rfl⟩⟩
    · refine ⟨Corpus.grows_appendAll ha, ?_⟩
      rintro words rfl
      rcases hcause with rfl | ⟨placed, -, hcommit⟩
      · cases Corpus.kind_of_appendAll ha
      · cases Store.concernsIndex_of_commit hcommit
  · rw [hput] at h
    cases h

/-- Of a batch that fails nothing can be seen, whatever the cause: index, stream positions and pending domains are what
they were. The corpus has only grown, and what was retrieved is retrieved. A sentence that is too long leaves the
corpus, too. -/
theorem unchanged_of_fails (m m' : Model) (d d' : Durable) (batch : UpdateBatch) (e : Option Error)
    (hheld : m.corpus.Held d.disk) (h : m.Fails d batch e m' d') :
    d'.store = d.store ∧ m'.streams = m.streams ∧ m'.sweeper.pending = m.sweeper.pending ∧
      m.corpus.Grows d.disk m'.corpus d'.disk ∧
      (∀ offset pair, m.corpus.retrieve d.disk offset = .ok pair → m'.corpus.retrieve d'.disk offset = .ok pair) ∧
      ∀ words, e = some (.sentenceTooLong words) → m'.corpus = m.corpus ∧ d'.disk = d.disk := by
  cases h with
  | answered h =>
    obtain ⟨hstore, hstreams, hsweeper, hgrows, hlong⟩ := put_error h
    refine ⟨hstore, hstreams, by rw [hsweeper], hgrows, fun offset pair => hgrows.retrieve hheld, ?_⟩
    intro words he
    exact hlong words (Option.some.inj he)
  | refused h =>
    obtain ⟨corpus, disk, hb, hgrows⟩ := m.breakOff_eq d batch _ _
    cases hb.symm.trans h
    exact ⟨rfl, rfl, rfl, hgrows, fun offset pair => hgrows.retrieve hheld, nofun⟩

end Model

/-! ### A failing batch -/

namespace Run

/-- In every run an open index holds its files. -/
theorem held_after (disk : Disk) (path : Path) (ops : List Operation) : (after disk path ops).session.Held := by
  refine List.foldlRecOn (motive := fun r : Run => r.session.Held) ops (step path) Session.of_closed ?_
  intro r h op _
  exact Session.held_step h op

/-- One sentence is in the index, but one of its posting lists is no longer one. -/
def spoiled : Session :=
  let s := (after emptyDisk modelPath [.openAt {}, .put (sevens 1 ∅) 0]).session
  let index := s.durable.store.index.insert (Key.source [7] 1).encode [0]
  { s with durable := { s.durable with store := { s.durable.store with index } } }

theorem unchanged_of_fails_spoiled : ∃ m m' d', spoiled.model = some m ∧
    m.Fails spoiled.durable (sevens 1 ∅) (some (.postingsSize 1)) m' d' ∧ d'.store = spoiled.durable.store ∧
      m'.corpus.retrieve d'.disk 0 = .ok ⟨1, [7, 7, 7], [9, 7], []⟩ := by
  obtain ⟨m, hm⟩ : ∃ m, spoiled.model = some m := Option.isSome_iff_exists.1 (by decide +kernel)
  have hput : spoiled.model.map (fun m => (m.put spoiled.durable (sevens 1 ∅) 0).1) =
      some (.error (.postingsSize 1)) := by
    decide +kernel
  have hretrieve : spoiled.model.map (fun m => m.corpus.retrieve spoiled.durable.disk 0) =
      some (.ok ⟨1, [7, 7, 7], [9, 7], []⟩) := by
    decide +kernel
  rw [hm] at hput hretrieve
  have hfails : m.Fails spoiled.durable (sevens 1 ∅) (some (.postingsSize 1)) _ _ :=
    .answered (Prod.ext (Option.some.inj hput) rfl)
  obtain ⟨hstore, -, -, -, hstays, -⟩ :=
    Model.unchanged_of_fails m _ spoiled.durable _ (sevens 1 ∅) _ (held_after _ _ _ m hm) hfails
  exact ⟨m, _, _, hm, hfails, hstore, hstays 0 _ (Option.some.inj hretrieve)⟩

end Run

end PhraseIndex
