import Mathlib.Data.List.Infix
import PhraseIndex.Proofs.Marks
import PhraseIndex.Proofs.Reading
import PhraseIndex.Proofs.Sampling

/-!
# Deletions are seen at once

A batch that deletes a domain writes a marker, and the postings of the domain go later, in many commits. A sweep takes
the marker away in the same commit as the last of them (`Shared.marked_or_unlisted`). So at any time after the batch
either the marker is still there or all that is listed of the domain was committed later (`Service.Guarded`). A sampler
leaves out the domains that are marked when it is made, and what is committed later it may answer: hence it never
answers a sentence that the batch has deleted, whatever the writer and the sweeper do meanwhile
(`Service.unseen_after`).
-/

namespace PhraseIndex

/-! ## What is listed of a domain -/

/-- All that the index lists of the domain are postings of these sentences. -/
def Store.Within (s : Store) (limit : PrefixLength) (domain : Domain) (placed : List Placement) : Prop :=
  ∀ words ps, s.Lists limit words domain ps → ps ⊆ postingsOf words domain placed

namespace Store

variable {s s' : Store} {limit : PrefixLength} {domain : Domain} {live all placed more : List Placement}
  {deleted deletions : DomainSet} {streams : Streams} {manifest : Option Manifest} {stats : CommitStats}

theorem Reflects.within (h : s.Reflects limit live all deleted) (hlive : live ⊆ all) (domain : Domain) :
    s.Within limit domain all := by
  intro words ps hps p hp
  rw [h.eq_of_lists hps] at hp
  obtain ⟨pair, start, hmem, hrest⟩ := mem_postingsOf.1 hp
  exact mem_postingsOf.2 ⟨pair, start, hlive hmem, hrest⟩

/-- A batch adds its own sentences. -/
theorem Within.commit (h : s.Within limit domain placed) (hs : s.Sound limit)
    (hc : s.commit (Model.commitOf (Fragments.ofPairs limit more) deletions streams manifest) = .ok (stats, s')) :
    s'.Within limit domain (placed ++ more) := by
  rintro words ps ⟨hk, hv⟩
  obtain ⟨old, hold⟩ := hs.postings hk
  rw [get?_source_commitOf hc hk hold, PostingList.record] at hv
  split at hv
  · cases hv
  · rw [← PostingList.bytes_ofList_inj (Option.some.inj hv), postingsOf_append]
    intro p hp
    rcases List.mem_append.1 hp with hp | hp
    · rw [PostingList.record, if_neg (List.ne_nil_of_mem hp)] at hold
      exact List.mem_append_left _ (h words old ⟨hk, hold⟩ hp)
    · exact List.mem_append_right _ hp

/-- Removing records adds nothing. -/
theorem Within.of_removal (h : s.Within limit domain placed)
    (hr : ∀ key, s'.get? key = none ∨ s'.get? key = s.get? key) : s'.Within limit domain placed := by
  rintro words ps ⟨hk, hv⟩
  rcases hr (Key.source words domain).encode with hn | he
  · rw [hn] at hv
    cases hv
  · rw [he] at hv
    exact h words ps ⟨hk, hv⟩

end Store

/-- A sweep takes the marker of a domain away only together with the last postings of the domain. -/
theorem Shared.marked_or_unlisted {s s' : Shared} {a : Action} {domain : Domain} (hs : s.step a = some s')
    (ha : a.Sweeps ∨ a = .mark) (hp : s.Planned) (hsound : s.store.Sound s.sweeper.prefixLength)
    (hm : s.Marked domain) :
    s'.Marked domain ∨ s'.store.Within s.sweeper.prefixLength domain [] := by
  cases a with
  | commit => rcases ha with ha | ha <;> cases ha
  | remove => exact .inl (hp.marked_remove hs hm)
  | removeMarkers =>
    obtain ⟨domains, stats, store, -, hc, rfl⟩ := step_removeMarkers.1 hs
    obtain ⟨stats', store', hc', -, hgone, hrest⟩ :=
      Sweeper.commitWith_finalRemoval (w := s.sweeper) domains (Sweeper.readable_of_sound hsound)
    rw [hc] at hc'
    cases hc'
    -- This commit reads the keys itself, so it misses no record of a domain whose marker it takes.
    by_cases hd : domain ∈ domains
    · refine .inr ?_
      rintro words ps ⟨hk, hv⟩
      rw [hgone _ ((Sweeper.purged_source hk).2 hd)] at hv
      cases hv
    · refine .inl ?_
      rwa [Marked, hrest _ fun hpurged => hd (Sweeper.purged_marker.1 hpurged)]
  | mark | snapshot | scan | look | retain =>
    refine .inl ?_
    rwa [Marked, store_step hs id]

/-! ## An index in use -/

/-- An open index while a batch is written, a sweep goes on and samplers look at it. -/
structure Service where
  shared : Shared
  corpus : Corpus
  disk : Disk
  /-- The sentences of the present batch that are in the corpus. -/
  appended : List Placement := []
  /-- The sentences of all committed batches. -/
  committed : List Placement

namespace Service

inductive Action
  /-- The next sentence pair of a batch goes to the corpus. If it cannot, the batch fails. -/
  | append (pair : SentencePair)
  /-- The system refuses to write the batch, so many bytes into the record of a sentence pair if its write had begun.
  The batch fails. -/
  | refuse (torn : Option (SentencePair × Nat))
  | commit (deletions : DomainSet) (streams : Streams) (manifest : Option Manifest)
  /-- The writer marks the deletions of its batch, or the sweep goes on. -/
  | share (a : Shared.Action) (ha : a.Sweeps ∨ a = .mark)
  /-- The sweep fails for a cause outside the index. -/
  | giveUp

def append (s : Service) (pair : SentencePair) : Service :=
  match s.corpus.append s.disk pair with
  | (.ok offset, corpus, disk) => { s with corpus, disk, appended := s.appended ++ [(pair, offset)] }
  | (.error _, corpus, disk) => { s with corpus, disk, appended := [] }

def refuse (s : Service) : Option (SentencePair × Nat) → Service
  | none => { s with appended := [] }
  | some (pair, bytes) =>
    { s with
      corpus := (s.corpus.tear s.disk pair bytes).1
      disk := (s.corpus.tear s.disk pair bytes).2
      appended := [] }

/-- One step of the writer or of the sweeper, if it can be made. -/
def step (s : Service) : Action → Option Service
  | .append pair => some (s.append pair)
  | .refuse torn => some (s.refuse torn)
  | .commit deletions streams manifest =>
    (s.shared.step (.commit s.appended deletions streams manifest)).map fun shared =>
      { s with shared, appended := [], committed := s.committed ++ s.appended }
  | .share a _ => (s.shared.step a).map fun shared => { s with shared }
  | .giveUp => some { s with shared := { s.shared with phase := .idle } }

/-- The steps in this order, if all of them can be made. -/
abbrev run (s : Service) (actions : List Action) : Option Service := Steps.run step s actions

/-- A sentence pair is appended. -/
def Action.Appends : Action → Prop
  | append _ => True
  | _ => False

instance : ∀ a : Action, Decidable a.Appends
  | .append _ => .isTrue trivial
  | .refuse _ | .commit .. | .share .. | .giveUp => .isFalse id

/-- A write is refused within a record. -/
def Action.Tears : Action → Prop
  | refuse (some (_, bytes)) => 0 < bytes
  | _ => False

/-- The corpus counts all bytes of its last file. -/
def Whole (s : Service) : Prop := s.corpus.Whole s.disk

instance (s : Service) : Decidable s.Whole := inferInstanceAs (Decidable (s.corpus.Whole s.disk))

/-- Sentences are appended to a whole corpus only. -/
def Mended (s : Service) (actions : List Action) : Prop := Steps.Always step (fun s a => a.Appends → s.Whole) s actions

instance (s : Service) (actions : List Action) : Decidable (s.Mended actions) :=
  inferInstanceAs (Decidable (Steps.Always _ _ _ _))

/-- Some steps lead from one state to the other, with sentences that are appended to a whole corpus only. -/
def Leads (s s' : Service) : Prop := ∃ actions, s.run actions = some s' ∧ s.Mended actions

/-- The open index of a history, before any of these steps. -/
def ofHistory (h : History) (m : Model) : Service where
  shared := { store := h.run.session.durable.store, sweeper := m.sweeper }
  corpus := m.corpus
  disk := h.disk
  committed := h.run.ledger.all

variable {s s' s'' : Service} {a : Action} {actions : List Action} {limit : PrefixLength} {domain : Domain}
  {old : List Placement}

/-! ### The corpus -/

/-- The disk only grows. -/
theorem le_step (hs : s.step a = some s') : s.disk.Le s'.disk := by
  cases a with
  | append pair =>
    cases hs
    unfold append
    split
    · next ha => exact Corpus.le_append ha
    · next ha => exact Corpus.le_append ha
  | refuse torn =>
    cases hs
    cases torn with
    | none => exact .refl _
    | some torn => exact (Corpus.grows_tear s.corpus s.disk torn.1 torn.2).le
  | commit deletions streams manifest =>
    obtain ⟨shared, -, rfl⟩ := Option.map_eq_some_iff.1 hs
    exact .refl _
  | share a ha =>
    obtain ⟨shared, -, rfl⟩ := Option.map_eq_some_iff.1 hs
    exact .refl _
  | giveUp =>
    cases hs
    exact .refl _

/-- The sentences of the committed batches and of the present one are stored. -/
def Stored (s : Service) : Prop := ∃ entries, s.corpus.Retains s.disk entries (s.committed ++ s.appended)

theorem Stored.step (h : s.Stored) (hw : a.Appends → s.Whole) (hs : s.step a = some s') (hfit : s'.disk.Fits) :
    s'.Stored := by
  obtain ⟨entries, hretains⟩ := h
  have hcommitted : (s.committed ++ []).Sublist (s.committed ++ s.appended) := by
    rw [List.append_nil]
    exact List.sublist_append_left _ _
  cases a with
  | append pair =>
    have hkept := hretains.kept_of_whole (hw trivial)
    cases hs
    unfold append at hfit ⊢
    split at hfit
    · next ha =>
      obtain ⟨-, ⟨⟨e, he⟩, -⟩ | ⟨offset, hok, hkept'⟩⟩ := hkept.append hfit ha
      · cases he
      · cases hok
        rw [List.append_assoc] at hkept'
        exact ⟨entries, hkept'.retains⟩
    · next ha =>
      obtain ⟨-, ⟨-, hkept'⟩ | ⟨offset, hok, -⟩⟩ := hkept.append hfit ha
      · exact ⟨entries, hkept'.retains.sublist hcommitted⟩
      · cases hok
  | refuse torn =>
    have hle := le_step hs
    cases hs
    cases torn with
    | none => exact ⟨entries, hretains.sublist hcommitted⟩
    | some torn => exact ⟨entries, (hretains.tear (hfit.of_le hle) torn.1 torn.2).sublist hcommitted⟩
  | commit deletions streams manifest =>
    obtain ⟨shared, -, rfl⟩ := Option.map_eq_some_iff.1 hs
    refine ⟨entries, ?_⟩
    rwa [List.append_nil]
  | share a ha =>
    obtain ⟨shared, -, rfl⟩ := Option.map_eq_some_iff.1 hs
    exact ⟨entries, hretains⟩
  | giveUp =>
    cases hs
    exact ⟨entries, hretains⟩

/-- A corpus goes on to count all bytes unless a write is refused within a record. -/
theorem exact_step (h : s.corpus.Exact s.disk) (ha : ¬a.Tears) (hs : s.step a = some s') :
    s'.corpus.Exact s'.disk := by
  cases a with
  | append pair =>
    cases hs
    unfold append
    split
    · next happend => exact h.append happend
    · next happend => exact h.append happend
  | refuse torn =>
    cases hs
    rcases torn with - | ⟨pair, bytes⟩
    · exact h
    · obtain rfl : bytes = 0 := Nat.eq_zero_of_not_pos ha
      exact h.tear_zero pair
  | commit deletions streams manifest =>
    obtain ⟨shared, -, rfl⟩ := Option.map_eq_some_iff.1 hs
    exact h
  | share a ha =>
    obtain ⟨shared, -, rfl⟩ := Option.map_eq_some_iff.1 hs
    exact h
  | giveUp =>
    cases hs
    exact h

/-! ### The index -/

/-- What a step comes to in the index. -/
inductive Moves (s s' : Service) : Prop
  | commit {deletions : DomainSet} {streams : Streams} {manifest : Option Manifest}
      (hs : s.shared.step (.commit s.appended deletions streams manifest) = some s'.shared)
      (hc : s'.committed = s.committed ++ s.appended)
  | share {a : Shared.Action} (ha : a.Sweeps ∨ a = .mark) (hs : s.shared.step a = some s'.shared)
      (hc : s'.committed = s.committed)
  | rest (hs : s'.shared = s.shared ∨ s'.shared = { s.shared with phase := .idle }) (hc : s'.committed = s.committed)

theorem moves_step (hs : s.step a = some s') : s.Moves s' := by
  cases a with
  | append pair =>
    cases hs
    unfold append
    split <;> exact .rest (.inl rfl) rfl
  | refuse torn =>
    cases hs
    cases torn <;> exact .rest (.inl rfl) rfl
  | commit deletions streams manifest =>
    obtain ⟨shared, hshared, rfl⟩ := Option.map_eq_some_iff.1 hs
    exact .commit hshared rfl
  | share a ha =>
    obtain ⟨shared, hshared, rfl⟩ := Option.map_eq_some_iff.1 hs
    exact .share ha hshared rfl
  | giveUp =>
    cases hs
    exact .rest (.inr rfl) rfl

/-- The index can be read with the prefix length, and the sweep keeps to its plan. -/
structure Orderly (limit : PrefixLength) (s : Service) : Prop where
  prefixLength : s.shared.sweeper.prefixLength = limit
  sound : s.shared.store.Sound limit
  planned : s.shared.Planned

theorem Orderly.step (h : s.Orderly limit) (hs : s.step a = some s') : s'.Orderly limit := by
  obtain ⟨rfl, hsound, hplanned⟩ := h
  cases moves_step hs with
  | commit hs hc =>
    refine ⟨(Shared.config_step hs).1, ?_, hplanned.step hs⟩
    obtain ⟨-, stats, store, hcommit, hs'⟩ := Shared.step_commit.1 hs
    rw [← hs']
    exact hsound.commit hcommit
  | share ha hs hc =>
    exact ⟨(Shared.config_step hs).1, hsound.of_removal (Shared.get?_step hs ha), hplanned.step hs⟩
  | rest hs hc =>
    rcases hs with hs | hs
    · exact ⟨by rw [hs], by rwa [hs], by rwa [hs]⟩
    · exact ⟨by rw [hs], by rwa [hs], by rw [hs]; exact nofun⟩

/-- All that is listed of the domain was committed after these sentences. -/
def Confined (limit : PrefixLength) (domain : Domain) (old : List Placement) (s : Service) : Prop :=
  ∃ new, s.committed = old ++ new ∧ s.shared.store.Within limit domain new

/-- The domain is marked, or all that is listed of it was committed after these sentences. -/
def Guarded (limit : PrefixLength) (domain : Domain) (old : List Placement) (s : Service) : Prop :=
  ∃ new, s.committed = old ++ new ∧ (s.shared.Marked domain ∨ s.shared.store.Within limit domain new)

theorem Confined.step (h : s.Confined limit domain old) (ho : s.Orderly limit) (hs : s.step a = some s') :
    s'.Confined limit domain old := by
  obtain ⟨new, hnew, hwithin⟩ := h
  obtain ⟨rfl, hsound, -⟩ := ho
  cases moves_step hs with
  | commit hs hc =>
    refine ⟨new ++ s.appended, by rw [hc, hnew, List.append_assoc], ?_⟩
    obtain ⟨-, stats, store, hcommit, hs'⟩ := Shared.step_commit.1 hs
    rw [← hs']
    exact hwithin.commit hsound hcommit
  | share ha hs hc => exact ⟨new, hc.trans hnew, hwithin.of_removal (Shared.get?_step hs ha)⟩
  | rest hs hc =>
    refine ⟨new, hc.trans hnew, ?_⟩
    rcases hs with hs | hs <;> rwa [hs]

theorem Guarded.step (h : s.Guarded limit domain old) (ho : s.Orderly limit) (hs : s.step a = some s') :
    s'.Guarded limit domain old := by
  obtain ⟨new, hnew, hm | hwithin⟩ := h
  · obtain ⟨rfl, hsound, hplanned⟩ := ho
    cases moves_step hs with
    | commit hs hc =>
      exact ⟨new ++ s.appended, by rw [hc, hnew, List.append_assoc], .inl ((Shared.marked_commit hs).2 (.inl hm))⟩
    | share ha hs hc =>
      refine ⟨new, hc.trans hnew, (Shared.marked_or_unlisted hs ha hplanned hsound hm).imp_right fun hnone => ?_⟩
      intro words ps hps p hp
      exact absurd (hnone words ps hps hp) List.not_mem_nil
    | rest hs hc =>
      refine ⟨new, hc.trans hnew, .inl ?_⟩
      rcases hs with hs | hs <;> rwa [hs]
  · obtain ⟨new', hnew', hwithin'⟩ := Confined.step ⟨new, hnew, hwithin⟩ ho hs
    exact ⟨new', hnew', .inr hwithin'⟩

/-! ### Runs -/

namespace Leads

theorem refl (s : Service) : s.Leads s := ⟨[], rfl, trivial⟩

theorem of_step (hs : s.step a = some s') (hw : a.Appends → s.Whole) : s.Leads s' :=
  ⟨[a], Steps.run_singleton.2 hs, hw, fun _ _ => trivial⟩

theorem trans (h : s.Leads s') (h' : s'.Leads s'') : s.Leads s'' := by
  obtain ⟨first, hfirst, hmended⟩ := h
  obtain ⟨rest, hrest, hmended'⟩ := h'
  refine ⟨first ++ rest, Steps.run_append.2 ⟨s', hfirst, hrest⟩, Steps.always_append.2 ⟨hmended, ?_⟩⟩
  intro t ht
  cases hfirst.symm.trans ht
  exact hmended'

/-- What every step keeps, a run keeps. -/
theorem keeps {P : Service → Prop} (hstep : ∀ {s a s'}, P s → s.step a = some s' → P s') (h : s.Leads s') (hs : P s) :
    P s' := by
  obtain ⟨actions, hr, hmended⟩ := h
  exact Steps.run_invariant (fun hP _ ht => hstep hP ht) hs hmended hr

/-- Committed sentences stay so. -/
theorem committed (h : s.Leads s') : s.committed <+: s'.committed := by
  refine h.keeps (P := fun t => s.committed <+: t.committed) (fun hp ht => ?_) List.prefix_rfl
  cases moves_step ht with
  | commit ht hc =>
    rw [hc]
    exact hp.trans (List.prefix_append _ _)
  | share ha ht hc => rwa [hc]
  | rest ht hc => rwa [hc]

theorem stored (h : s.Leads s') (hs : s.Stored) (hfit : s'.disk.Fits) : s'.Stored := by
  obtain ⟨actions, hr, hmended⟩ := h
  refine Steps.run_invariant (P := fun t : Service => t.disk.Fits → t.Stored) ?_ (fun _ => hs) hmended hr hfit
  intro t a t' hstored hw ht hfit
  exact (hstored (hfit.of_le (le_step ht))).step hw ht hfit

theorem orderly (h : s.Leads s') (ho : s.Orderly limit) : s'.Orderly limit := h.keeps Orderly.step ho

theorem confined (h : s.Leads s') (ho : s.Orderly limit) (hc : s.Confined limit domain old) :
    s'.Confined limit domain old :=
  (h.keeps (P := fun t => t.Orderly limit ∧ t.Confined limit domain old)
    (fun ⟨ho, hc⟩ ht => ⟨ho.step ht, hc.step ho ht⟩) ⟨ho, hc⟩).2

theorem guarded (h : s.Leads s') (ho : s.Orderly limit) (hg : s.Guarded limit domain old) :
    s'.Guarded limit domain old :=
  (h.keeps (P := fun t => t.Orderly limit ∧ t.Guarded limit domain old)
    (fun ⟨ho, hg⟩ ht => ⟨ho.step ht, hg.step ho ht⟩) ⟨ho, hg⟩).2

end Leads

/-- Steps that refuse no write within a record lead on from a corpus that counts all bytes. -/
theorem leads_of_untorn (hs : s.Stored) (hw : s.Whole) (hu : ∀ a ∈ actions, ¬a.Tears) (hr : s.run actions = some s')
    (hfit : s'.disk.Fits) : s.Leads s' := by
  obtain ⟨entries, hretains⟩ := hs
  have hexact : s.corpus.Exact s.disk := fun _ => (hretains.kept_of_whole hw).filed
  clear hretains hw
  induction actions generalizing s with
  | nil =>
    cases hr
    exact .refl _
  | cons a actions ih =>
    obtain ⟨t, hs, hrest⟩ := Steps.run_cons.1 hr
    have hall : Steps.Always step (fun _ _ => True) t actions := Steps.always_of_forall fun _ _ _ => trivial
    have hle : t.disk.Le s'.disk :=
      Steps.run_invariant (P := fun u : Service => t.disk.Le u.disk) (fun h _ hs => h.trans (le_step hs)) (.refl _) hall
        hrest
    have hwhole : s.Whole := (hexact ((hfit.of_le hle).of_le (le_step hs))).whole
    have ht := exact_step hexact (hu a List.mem_cons_self) hs
    exact (Leads.of_step hs fun _ => hwhole).trans (ih (fun b hb => hu b (List.mem_cons_of_mem _ hb)) hrest ht)

/-! ## What samplers see -/

/-- The open index of a history lists what was committed, and it is stored. -/
theorem ofHistory_spec {path : Path} {h : History} {m : Model} (hc : History.Coherent path h)
    (hm : h.run.session.model = some m) : (ofHistory h m).Orderly m.config.prefixLength ∧ (ofHistory h m).Stored ∧
      ∀ domain, (ofHistory h m).Confined m.config.prefixLength domain [] := by
  have ho := hc.accounts.opened m hm
  have hr := ho.reflects hc.accounts.indexed
  obtain ⟨-, manifest, -, hretains⟩ := hc.kept.opened hm
  refine ⟨⟨ho.sweeps, hr.sound, nofun⟩, ⟨manifest.files, ?_⟩, fun domain => ⟨_, rfl, ?_⟩⟩
  · rwa [ofHistory, List.append_nil]
  · exact hr.within hc.kept.live.subset domain

/-- The commit of a batch guards the domains that it deletes. -/
theorem guarded_commit {deletions : DomainSet} {streams : Streams} {manifest : Option Manifest}
    (hs : s.step (.commit deletions streams manifest) = some s') (hd : domain ∈ deletions) :
    s'.Guarded limit domain s'.committed := by
  obtain ⟨shared, hshared, rfl⟩ := Option.map_eq_some_iff.1 hs
  exact ⟨[], (List.append_nil _).symm, .inl ((Shared.marked_commit hshared).2 (.inr hd))⟩

section Views

variable {w : Sampler} {t u : Service}

/-- A posting that is listed for some of the committed sentences leads to one of them, now or later. -/
theorem exists_retrieve {words : Phrase} {ps : List Posting} {p : Posting} (hc : t.Confined limit domain old)
    (htu : t.Leads u) (hu : u.Stored) (hps : t.shared.store.Lists limit words domain ps) (hp : p ∈ ps) :
    ∃ new pair, t.committed = old ++ new ∧ (pair, p.offset) ∈ new ∧ pair.domain = domain ∧
      u.corpus.retrieve u.disk p.offset = .ok pair := by
  obtain ⟨new, hnew, hwithin⟩ := hc
  obtain ⟨entries, hretains⟩ := hu
  obtain ⟨pair, start, hmem, hdomain, -⟩ := mem_postingsOf.1 (hwithin words ps hps hp)
  have hcommitted : (pair, p.offset) ∈ u.committed := by
    apply htu.committed.subset
    rw [hnew]
    exact List.mem_append_right _ hmem
  have hpair := hretains.retrieved _ (List.mem_append_left _ hcommitted)
  exact ⟨new, pair, hnew, hmem, hdomain, hpair⟩

/-- The corpus may be looked at later than the index. -/
theorem serves (hw : w.prefixLength = limit) (ho : t.Orderly limit) (hc : ∀ domain, t.Confined limit domain [])
    (htu : t.Leads u) (hu : u.Stored) : w.Serves ⟨t.shared.store, u.corpus, u.disk⟩ := by
  subst hw
  refine ⟨ho.sound, ?_⟩
  rintro domain p ⟨-, words, ps, hps, hp⟩
  obtain ⟨-, pair, -, -, hdomain, hpair⟩ := exists_retrieve (hc domain) htu hu hps hp
  exact ⟨pair, hdomain, hpair⟩

/-- What a sampler finds of a domain that it does not leave out is one of the sentences that the index lists of it, and
lies behind the others. -/
theorem new_of_finds {x : Placement} (hw : w.prefixLength = limit)
    (hd : x.1.domain ∈ w.deleted ∨ t.Confined limit x.1.domain old) (htu : t.Leads u) (hu : u.Stored)
    (hf : w.Finds ⟨t.shared.store, u.corpus, u.disk⟩ x) :
    ∃ new, t.committed = old ++ new ∧ x ∈ new ∧ ∀ y ∈ old, y.2 < x.2 := by
  subst hw
  obtain ⟨pair, offset⟩ := x
  obtain ⟨p, ⟨hkey, words, ps, hps, hp⟩, rfl, hretrieve⟩ := hf
  obtain ⟨new, pair', hnew, hmem, -, hretrieve'⟩ := exists_retrieve (hd.resolve_left hkey) htu hu hps hp
  cases hretrieve.symm.trans hretrieve'
  refine ⟨new, hnew, hmem, fun y hy => ?_⟩
  obtain ⟨entries, hretains⟩ := hu
  have hordered := (List.pairwise_append.1 hretains.kept.ordered).1.sublist htu.committed.sublist
  rw [hnew] at hordered
  exact (List.pairwise_append.1 hordered).2.2 y hy _ hmem

end Views

/-- A sampler that is made after the commit of a batch that deletes a domain, at whatever moment of a sweep, always
answers, though each of its searches may see the index and the corpus at later moments. What it answers are different
sentences, and those of the domain were committed after the batch and lie behind all that was committed before. -/
theorem unseen_after {disk : Disk} {path : Path} (hfresh : Corpus.Unused disk (Model.storagePath path))
    (events : List History.Event) (hfit : ∀ before, before <+: events → (History.after disk path before).disk.Fits)
    (hmended : History.Mended disk path events) (m : Model)
    (hm : (History.after disk path events).run.session.model = some m) (s₁ s₂ s : Service) (deletions : DomainSet)
    (streams : Streams) (manifest : Option Manifest) (domain : Domain)
    (hbefore : (ofHistory (History.after disk path events) m).Leads s₁)
    (hcommit : s₁.step (.commit deletions streams manifest) = some s₂) (hdomain : domain ∈ deletions)
    (hafter : s₂.Leads s) (context : Context) (background : Bool) :
    ∃ w, Sampler.create s.shared.store m.config.prefixLength context background = .ok w ∧
      ∀ t u : Nat → Service, (∀ i, s.Leads (t i) ∧ (t i).Leads (u i) ∧ (u i).disk.Fits) →
        ∀ (spoken : Phrase) (shuffle : Shuffle) (phrase : Phrase) (limit : Nat),
          ∃ (samples : List Sample) (picked : List Placement), (Sampler.extendThrough { w with phrase := spoken }
              (fun i => ⟨(t i).shared.store, (u i).corpus, (u i).disk⟩) shuffle phrase limit).1 = .ok samples ∧
            samples.map (·.pair) = picked.map (·.1) ∧ picked.Nodup ∧
            ∀ x ∈ picked, x.1.domain = domain →
              ∃ i new, (t i).committed = s₂.committed ++ new ∧ x ∈ new ∧ ∀ y ∈ s₂.committed, y.2 < x.2 := by
  obtain ⟨horderly₀, hstored₀, hconfined₀⟩ := ofHistory_spec (History.coherent_after hfresh events hfit hmended) hm
  have hs₂ := hbefore.trans (.of_step hcommit nofun)
  have hs := hs₂.trans hafter
  have horderly := hs.orderly horderly₀
  obtain ⟨w, hw, hlimit, hdeleted⟩ := horderly.sound.exists_create context background
  have hcontext := Sampler.nodup_create hw
  refine ⟨w, hw, fun t u hviews spoken shuffle phrase limit => ?_⟩
  have hstored : ∀ i, (u i).Stored := fun i =>
    ((hs.trans (hviews i).1).trans (hviews i).2.1).stored hstored₀ (hviews i).2.2
  have hconfined : ∀ i domain, (t i).Confined m.config.prefixLength domain [] := fun i domain =>
    (hs.trans (hviews i).1).confined horderly₀ (hconfined₀ domain)
  -- The sampler leaves the domain out, or whatever is still listed of it when the sampler is made is new.
  have hguarded : ∀ i, domain ∈ w.deleted ∨ (t i).Confined m.config.prefixLength domain s₂.committed := fun i => by
    obtain ⟨new, hnew, hm | hwithin⟩ := hafter.guarded (hs₂.orderly horderly₀) (guarded_commit hcommit hdomain)
    · exact .inl ((hdeleted domain).2 hm)
    · exact .inr ((hviews i).1.confined horderly ⟨new, hnew, hwithin⟩)
  obtain ⟨samples, picked, hsamples, hdraws, hnodup⟩ := Sampler.extendThrough_spec (w := { w with phrase := spoken })
    (fun i => serves hlimit ((hs.trans (hviews i).1).orderly horderly₀) (hconfined i) (hviews i).2.1 (hstored i))
    shuffle phrase limit
  refine ⟨samples, picked, hsamples, hdraws.pairs, hnodup hcontext, ?_⟩
  rintro x hx rfl
  obtain ⟨i, hfind⟩ := hdraws.finds x hx
  exact ⟨i, new_of_finds hlimit (hguarded i) (hviews i).2.1 (hstored i) hfind⟩

/-! ### A run -/

/-- After a batch that is refused within a record the index is opened again, and the domain gets a sentence. -/
def filled : List History.Event :=
  [.operation (.openAt {}), .operation (.refuse (Run.sevens 2 ∅) 0 (some 5)), .operation (.openAt {}),
    .operation (.put (Run.sevens 1 ∅) 0)]

/-- The batch that deletes the domain adds to it. -/
def adding : List Action := [.append ⟨1, [7, 7, 8], [9], []⟩]

/-- The sweep takes the marker away together with a sentence that came in meanwhile, and is not yet at its end. -/
def sweeping : List Action :=
  [.share .mark (.inr rfl), .share .snapshot (.inl trivial), .share .scan (.inl trivial), .share .remove (.inl trivial),
    .append ⟨1, [7, 7, 9], [9], []⟩, .commit ∅ .empty none, .share .mark (.inr rfl),
    .share .removeMarkers (.inl trivial)]

/-- The sentence of the beginning is added again, and a write is refused within a record. -/
def refilling : List Action :=
  [.append ⟨1, [7, 7, 7], [9, 7], []⟩, .commit ∅ .empty none, .share .mark (.inr rfl),
    .refuse (some (⟨1, [7, 7, 6], [9], []⟩, 5))]

/-- What a sampler answers that is made after the first steps and asked after the others too. -/
def answered (h : History) (before later : List Action) : Option (List SentencePair) := do
  let m ← h.run.session.model
  let s ← (ofHistory h m).run before
  let t ← s.run later
  let w ← (Sampler.create s.shared.store m.config.prefixLength [] true).toOption
  let samples ← (w.extend t.shared.store t.corpus t.disk .none [7, 7] 0).1.toOption
  if t.disk.Fits ∧ (ofHistory h m).Mended before ∧ s.Mended later then some (samples.map (·.pair)) else none

theorem of_answered {h : History} {before later : List Action} {pairs : List SentencePair}
    (ha : answered h before later = some pairs) : ∃ m s t w samples, h.run.session.model = some m ∧
      (ofHistory h m).run before = some s ∧ s.run later = some t ∧
      (t.disk.Fits ∧ (ofHistory h m).Mended before ∧ s.Mended later) ∧
      Sampler.create s.shared.store m.config.prefixLength [] true = .ok w ∧
      (w.extend t.shared.store t.corpus t.disk .none [7, 7] 0).1 = .ok samples ∧ samples.map (·.pair) = pairs := by
  obtain ⟨m, hm, ha⟩ := Option.bind_eq_some_iff.1 ha
  obtain ⟨s, hs, ha⟩ := Option.bind_eq_some_iff.1 ha
  obtain ⟨t, ht, ha⟩ := Option.bind_eq_some_iff.1 ha
  obtain ⟨w, hw, ha⟩ := Option.bind_eq_some_iff.1 ha
  obtain ⟨samples, hsamples, ha⟩ := Option.bind_eq_some_iff.1 ha
  obtain ⟨hholds, hpairs⟩ := Option.ite_none_right_eq_some.1 ha
  exact ⟨m, s, t, w, samples, hm, hs, ht, hholds, toOption_eq_some_iff.1 hw, toOption_eq_some_iff.1 hsamples,
    Option.some.inj hpairs⟩

/-- Of the four sentences of the domain the last one is answered, though the first one is equal to it. -/
theorem unseen_after_refilling : ∃ m s₁ s₂ s t,
    (History.after Run.emptyDisk Run.modelPath filled).run.session.model = some m ∧
    (ofHistory (History.after Run.emptyDisk Run.modelPath filled) m).run adding = some s₁ ∧
    s₁.step (.commit {1} .empty none) = some s₂ ∧ s₂.run sweeping = some s ∧ s.run refilling = some t ∧
    ∃ w, Sampler.create s.shared.store m.config.prefixLength [] true = .ok w ∧
      ∃ samples x new, (w.extend t.shared.store t.corpus t.disk .none [7, 7] 0).1 = .ok samples ∧
        samples.map (·.pair) = [x.1] ∧ x.1 = ⟨1, [7, 7, 7], [9, 7], []⟩ ∧ t.committed = s₂.committed ++ new ∧ x ∈ new ∧
        ∀ y ∈ s₂.committed, y.2 < x.2 := by
  have hanswered : answered (History.after Run.emptyDisk Run.modelPath filled)
      (adding ++ .commit {1} .empty none :: sweeping) refilling = some [⟨1, [7, 7, 7], [9, 7], []⟩] := by
    decide +kernel
  have hfits : ∀ before ∈ filled.inits, (History.after Run.emptyDisk Run.modelPath before).disk.Fits := by
    decide +kernel
  obtain ⟨m, s, t, w, samples, hm, hs, ht, ⟨hfit, hbefore, hlater⟩, hw, hsamples, hpairs⟩ := of_answered hanswered
  obtain ⟨s₁, hs₁, hs⟩ := Steps.run_append.1 hs
  obtain ⟨s₂, hs₂, hs⟩ := Steps.run_cons.1 hs
  obtain ⟨hadding, hbefore⟩ := Steps.always_append.1 hbefore
  have hsweeping : s₂.Mended sweeping := (hbefore s₁ hs₁).2 s₂ hs₂
  obtain ⟨w', hw', hextend⟩ := unseen_after History.unused_emptyDisk filled
    (fun before hb => hfits before ((List.mem_inits _ _).2 hb)) (by decide +kernel) m hm s₁ s₂ s {1} .empty none 1
    ⟨_, hs₁, hadding⟩ hs₂ (by simp) ⟨_, hs, hsweeping⟩ [] true
  cases hw.symm.trans hw'
  obtain ⟨samples', picked, hsamples', hpicked, -, hnew⟩ := hextend (fun _ => t) (fun _ => t)
    (fun _ => ⟨⟨_, ht, hlater⟩, .refl t, hfit⟩) w.phrase .none [7, 7] 0
  rw [Sampler.extendThrough_const] at hsamples'
  cases hsamples.symm.trans hsamples'
  rw [hpairs] at hpicked
  obtain ⟨x, rfl, hx⟩ := List.map_eq_singleton_iff.1 hpicked.symm
  obtain ⟨-, new, hcommitted, hmem, hbehind⟩ := hnew x List.mem_cons_self (by rw [hx])
  exact ⟨m, s₁, s₂, s, t, hm, hs₁, hs₂, hs, ht, w, hw, samples, x, new, hsamples, by rw [hpairs, hx], hx, hcommitted,
    hmem, hbehind⟩

end Service

end PhraseIndex
