import PhraseIndex.Proofs.Operations
import PhraseIndex.Proofs.Steps

/-!
# Runs of an index

A `Session` is an index over time, open or closed, and an `Operation` is what is done to it. The `Ledger` beside it says
what the index is meant to hold: all sentence pairs of committed batches, those of them that are still live, and the
domains that wait for a sweep. A `Run` is the two together; one lemma an operation says what a step of it can come to
(`Run.step_openAt`, `Run.step_put_cases`, `Run.step_refuse`, `Run.step_compact_cases`, `Run.step_sweep`).
-/

namespace PhraseIndex

/-! ## Operations -/

/-- What is on the disk, and the index if it is open. -/
structure Session where
  durable : Durable
  model : Option Model := none

inductive Operation
  /-- Opening closes what is open. -/
  | openAt (config : Config)
  | put (batch : UpdateBatch) (seconds : Float)
  /-- The system refuses to write a batch: so many of its sentences are in the corpus by then, and so many bytes of the
  record of the next one, if its write had begun. The index stays open. -/
  | refuse (batch : UpdateBatch) (sentences : Nat) (torn : Option Nat)
  | compact
  | sweep
  | sweepInBackground
  | close

namespace Session

/-- Only an open index does anything. -/
def act (s : Session) (f : Model → Durable → Model × Durable) : Session :=
  match s.model with
  | none => s
  | some m => { durable := (f m s.durable).2, model := some (f m s.durable).1 }

def step (path : Path) (s : Session) : Operation → Session
  | .openAt config =>
    { durable := (Model.openAt s.durable path config).2, model := (Model.openAt s.durable path config).1.toOption }
  | .put batch seconds => s.act fun m d => (m.put d batch seconds).2
  | .refuse batch sentences torn => s.act fun m d => m.breakOff d batch sentences torn
  | .compact => s.act fun m d => (m.compact d).2
  | .sweep => s.act fun m d => (m.sweep d).2
  | .sweepInBackground => s.act fun m d => m.sweepInBackground d
  | .close => { s with model := none }

end Session

/-- Whatever is said of the open index holds while there is none. -/
theorem Session.of_closed {P : Model → Prop} : ∀ m ∈ (none : Option Model), P m :=
  fun _ hm => absurd hm (Option.not_mem_none _)

/-- A write is refused within a record. -/
def Operation.Tears : Operation → Prop
  | .refuse _ _ torn => 0 < torn.getD 0
  | _ => False

namespace Session

variable {s : Session} {m : Model}

/-- An open index is opened again or closed. Otherwise its corpus keeps what appending sentence pairs keeps, and what a
write keeps that is refused. -/
theorem step_cases {P : Corpus → Disk → Prop} (path : Path) (hm : s.model = some m) (op : Operation)
    (happend : ∀ {pairs r c disk}, Model.appendAll m.corpus s.durable.disk pairs = (r, c, disk) → P c disk)
    (htear : ∀ {c disk bytes} (pair : SentencePair), (0 < bytes → op.Tears) → P c disk →
      P (c.tear disk pair bytes).1 (c.tear disk pair bytes).2) :
    (∃ config, op = .openAt config) ∨ op = .close ∨ ∃ m', (s.step path op).model = some m' ∧ m'.config = m.config ∧
      P m'.corpus (s.step path op).durable.disk := by
  have hnil : Model.appendAll m.corpus s.durable.disk [] = (.ok [], m.corpus, s.durable.disk) := rfl
  have hsame := happend hnil
  cases op with
  | openAt config => exact .inl ⟨config, rfl⟩
  | close => exact .inr (.inl rfl)
  | put batch seconds =>
    simp only [step, act, hm]
    rcases m.put_cases s.durable batch seconds with
      ⟨e, m', disk, hput, hconfig, -, -, ⟨-, hcorpus, rfl⟩ | ⟨offsets, ha, -⟩⟩ |
        ⟨m', placed, disk, stats, store, -, ha, -, hconfig, -, -, hput⟩
    · rw [hput]
      exact .inr (.inr ⟨m', rfl, hconfig, by rwa [hcorpus]⟩)
    · rw [hput]
      exact .inr (.inr ⟨m', rfl, hconfig, happend ha⟩)
    · rw [hput]
      exact .inr (.inr ⟨m', rfl, hconfig, happend ha⟩)
  | refuse batch sentences torn =>
    simp only [step, act, hm]
    obtain ⟨r, c, disk, ha, hb | ⟨bytes, pair, rfl, hb⟩⟩ := m.breakOff_cases s.durable batch sentences torn
    · rw [hb]
      exact .inr (.inr ⟨_, rfl, rfl, happend ha⟩)
    · rw [hb]
      exact .inr (.inr ⟨_, rfl, rfl, htear pair id (happend ha)⟩)
  | compact =>
    simp only [step, act, hm]
    rcases m.compact_cases s.durable with ⟨e, he⟩ | ⟨metrics, he | ⟨stats, store, -, -, he⟩⟩
    · rw [he]
      exact .inr (.inr ⟨m, rfl, rfl, hsame⟩)
    · rw [he]
      exact .inr (.inr ⟨_, rfl, rfl, hsame⟩)
    · rw [he]
      exact .inr (.inr ⟨_, rfl, rfl, hsame⟩)
  | sweep =>
    obtain ⟨metrics, he⟩ := m.sweep_eq s.durable
    simp only [step, act, hm, he]
    exact .inr (.inr ⟨_, rfl, rfl, hsame⟩)
  | sweepInBackground =>
    obtain ⟨metrics, he⟩ := m.sweepInBackground_eq s.durable
    simp only [step, act, hm, he]
    exact .inr (.inr ⟨_, rfl, rfl, hsame⟩)

/-- An open index is opened again or closed, or its corpus grows. -/
theorem grows_cases (path : Path) (hm : s.model = some m) (op : Operation) :
    (∃ config, op = .openAt config) ∨ op = .close ∨ ∃ m', (s.step path op).model = some m' ∧ m'.config = m.config ∧
      m.corpus.Grows s.durable.disk m'.corpus (s.step path op).durable.disk :=
  step_cases path hm op Corpus.grows_appendAll fun pair _ hgrows => hgrows.trans (Corpus.grows_tear _ _ pair _)

end Session

/-! ## The ledger -/

/-- What an index is meant to hold. -/
structure Ledger where
  /-- The sentence pairs of all committed batches, with the offsets that they were given. -/
  all : List Placement := []
  /-- Those whose domain has not been swept since. -/
  live : List Placement := []
  /-- The domains that committed batches deleted and that have not been swept since. -/
  deleted : DomainSet := ∅

namespace Ledger

def commit (l : Ledger) (placed : List Placement) (deletions : DomainSet) : Ledger where
  all := l.all ++ placed
  live := l.live ++ placed
  deleted := l.deleted ∪ deletions

def sweep (l : Ledger) : Ledger := { l with live := Sweeper.keep l.deleted l.live, deleted := ∅ }

/-- How often a phrase occurs: in the live sources, or in all targets. -/
def total (l : Ledger) (phrase : Phrase) : Side → Nat
  | .source => sourceTotal phrase l.live
  | .target => targetTotal phrase l.all

end Ledger

/-- What an operation that succeeds adds to the ledger. A background task that has stopped sweeps nothing. -/
def Session.account (s : Session) (l : Ledger) (op : Operation) : Ledger :=
  match s.model with
  | none => l
  | some m =>
    match op with
    | .put batch seconds =>
      match (m.put s.durable batch seconds).1, (Model.appendAll m.corpus s.durable.disk batch.entries).1 with
      | .ok (), .ok offsets => l.commit (batch.entries.zip offsets) batch.deletions
      | _, _ => l
    | .sweep => if (m.sweep s.durable).1.isOk then l.sweep else l
    | .sweepInBackground =>
      if !m.sweeper.stopped && (m.sweeper.sweepInBackground s.durable.store).1.isOk then l.sweep else l
    | _ => l

/-- A session and its ledger. -/
structure Run where
  session : Session
  ledger : Ledger := {}

namespace Run

def step (path : Path) (r : Run) (op : Operation) : Run where
  session := r.session.step path op
  ledger := r.session.account r.ledger op

/-- An index that was never opened, on any disk. -/
def start (disk : Disk) : Run := { session := { durable := { store := {}, disk } } }

/-- The run of these operations on the index of a model directory. -/
def after (disk : Disk) (path : Path) (ops : List Operation) : Run := ops.foldl (step path) (start disk)

/-! ## What a step comes to -/

section Steps

variable {r : Run} {m : Model} {op : Operation}

/-- While the index is closed it can only be opened. -/
theorem step_of_closed (path : Path) (hm : r.session.model = none) (ho : ∀ config, op ≠ .openAt config) :
    r.step path op = r := by
  obtain ⟨⟨durable, model⟩, ledger⟩ := r
  cases hm
  cases op with
  | openAt config => exact absurd rfl (ho config)
  | put | refuse | compact | sweep | sweepInBackground | close => rfl

theorem step_openAt (r : Run) (path : Path) (config : Config) : r.step path (.openAt config) =
    ⟨⟨(Model.openAt r.session.durable path config).2, (Model.openAt r.session.durable path config).1.toOption⟩,
      r.ledger⟩ := by
  have haccount : r.session.account r.ledger (.openAt config) = r.ledger := by
    unfold Session.account
    split <;> rfl
  rw [step, haccount]
  rfl

/-- A batch that fails leaves the index, while some of its sentences may be in the corpus. One that succeeds is in the
corpus, in the index and in the ledger. -/
theorem step_put_cases (path : Path) (hm : r.session.model = some m) (batch : UpdateBatch) (seconds : Float) :
    (∃ m' disk, r.step path (.put batch seconds) = ⟨⟨{ r.session.durable with disk }, some m'⟩, r.ledger⟩ ∧
      m'.config = m.config ∧ m'.sweeper = m.sweeper ∧ (m'.corpus = m.corpus ∧ disk = r.session.durable.disk ∨
        ∃ offsets, Model.appendAll m.corpus r.session.durable.disk batch.entries = (offsets, m'.corpus, disk))) ∨
      ∃ m' placed disk stats store, (m.put r.session.durable batch seconds).1 = .ok () ∧
        (∀ pair ∈ batch.entries, pair.source.length ≤ Model.sentenceLimit) ∧
        Model.appendAll m.corpus r.session.durable.disk batch.entries = (.ok placed, m'.corpus, disk) ∧
        r.session.durable.store.commit (m.commitFor batch placed m'.corpus) = .ok (stats, store) ∧
        m'.config = m.config ∧ m'.sweeper = m.sweeper.mark batch.deletions ∧
        r.step path (.put batch seconds) =
          ⟨⟨⟨store, disk⟩, some m'⟩, r.ledger.commit (batch.entries.zip placed) batch.deletions⟩ := by
  have hstep : r.step path (.put batch seconds) =
      ⟨⟨(m.put r.session.durable batch seconds).2.2, some (m.put r.session.durable batch seconds).2.1⟩,
        match (m.put r.session.durable batch seconds).1,
            (Model.appendAll m.corpus r.session.durable.disk batch.entries).1 with
        | .ok (), .ok offsets => r.ledger.commit (batch.entries.zip offsets) batch.deletions
        | _, _ => r.ledger⟩ := by
    simp only [step, Session.step, Session.act, Session.account, hm]
  rw [hstep]
  rcases m.put_cases r.session.durable batch seconds with
    ⟨e, m', disk, hput, hconfig, -, hsweeper, hcorpus⟩ |
      ⟨m', placed, disk, stats, store, hlengths, ha, hcommit, hconfig, -, hsweeper, hput⟩
  · rw [hput]
    refine .inl ⟨m', disk, rfl, hconfig, hsweeper, hcorpus.imp (·.2) ?_⟩
    rintro ⟨offsets, ha, -⟩
    exact ⟨offsets, ha⟩
  · rw [hput, ha]
    exact .inr ⟨m', placed, disk, stats, store, rfl, hlengths, rfl, hcommit, hconfig, hsweeper, rfl⟩

/-- A batch that the system refuses leaves all but the corpus, which grows. -/
theorem step_refuse (path : Path) (hm : r.session.model = some m) (batch : UpdateBatch) (sentences : Nat)
    (torn : Option Nat) : ∃ corpus disk,
      m.breakOff r.session.durable batch sentences torn = ({ m with corpus }, { r.session.durable with disk }) ∧
        m.corpus.Grows r.session.durable.disk corpus disk ∧ r.step path (.refuse batch sentences torn) =
          ⟨⟨{ r.session.durable with disk }, some { m with corpus }⟩, r.ledger⟩ := by
  obtain ⟨corpus, disk, hb, hgrows⟩ := m.breakOff_eq r.session.durable batch sentences torn
  refine ⟨corpus, disk, hb, hgrows, ?_⟩
  simp only [step, Session.step, Session.act, Session.account, hm, hb]

/-- A compaction does at most one commit, of a batch without sentences. -/
theorem step_compact_cases (path : Path) (hm : r.session.model = some m) :
    ∃ m' store, r.step path .compact = ⟨⟨{ r.session.durable with store }, some m'⟩, r.ledger⟩ ∧
      m'.config = m.config ∧ m'.sweeper = m.sweeper ∧ m'.corpus = m.corpus ∧ (store = r.session.durable.store ∨
        m.config.bulkLoad = true ∧ ∃ stats, r.session.durable.store.commit
          (Model.commitOf (Fragments.ofPairs m.config.prefixLength []) ∅ m.streams (some m.corpus.manifest)) =
            .ok (stats, store)) := by
  have hstep : r.step path .compact = ⟨⟨(m.compact r.session.durable).2.2, some (m.compact r.session.durable).2.1⟩,
      r.ledger⟩ := by
    simp only [step, Session.step, Session.act, Session.account, hm]
  rw [hstep]
  rcases m.compact_cases r.session.durable with ⟨e, he⟩ | ⟨metrics, he | ⟨stats, store, hb, hc, he⟩⟩
  · rw [he]
    exact ⟨m, _, rfl, rfl, rfl, rfl, .inl rfl⟩
  · rw [he]
    exact ⟨_, _, rfl, rfl, rfl, rfl, .inl rfl⟩
  · rw [he]
    exact ⟨_, store, rfl, rfl, rfl, rfl, .inr ⟨hb, stats, hc⟩⟩

theorem step_close (path : Path) (r : Run) : r.step path .close = ⟨⟨r.session.durable, none⟩, r.ledger⟩ := by
  have haccount : r.session.account r.ledger .close = r.ledger := by
    unfold Session.account
    split <;> rfl
  rw [step, haccount]
  rfl

end Steps

end Run

end PhraseIndex
