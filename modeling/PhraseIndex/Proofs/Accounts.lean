import PhraseIndex.Proofs.Counting
import PhraseIndex.Proofs.Session

/-!
# The index keeps to the ledger

Every operation leaves the index in agreement with the ledger (`Run.accounts_step`), and so every run does
(`Run.accounts_after`). Hence the counts that an open index answers are those of the ledger (`Run.count_after`).
-/

namespace PhraseIndex

namespace Run

/-! ## Agreement -/

/-- The index reflects the ledger for the prefix length that it is pinned to, or for any while there is none. -/
def Indexed (store : Store) (l : Ledger) : Prop :=
  ∀ limit : PrefixLength, store.prefixLength.getD limit = limit → store.Reflects limit l.live l.all l.deleted

/-- An open index has the prefix length of the keyspace, and its sweeper waits for the deleted domains. -/
structure Opened (store : Store) (l : Ledger) (m : Model) : Prop where
  pinned : store.prefixLength = some m.config.prefixLength
  sweeps : m.sweeper.prefixLength = m.config.prefixLength
  batchSize : 0 < m.sweeper.batchSize
  pending : m.sweeper.pending = l.deleted

/-- The index and the ledger agree. -/
structure Accounts (r : Run) : Prop where
  indexed : Indexed r.session.durable.store r.ledger
  opened : ∀ m ∈ r.session.model, Opened r.session.durable.store r.ledger m

variable {store store' : Store} {l : Ledger} {m m' : Model} {d : Durable} {r : Run} {path : Path}

theorem Opened.reflects (h : Opened store l m) (hi : Indexed store l) :
    store.Reflects m.config.prefixLength l.live l.all l.deleted :=
  hi _ (by rw [h.pinned, Option.getD_some])

theorem Indexed.of_pinned {limit : PrefixLength} (hl : store.prefixLength = some limit)
    (h : store.Reflects limit l.live l.all l.deleted) : Indexed store l := by
  intro other ho
  rw [hl, Option.getD_some] at ho
  rwa [← ho]

/-- Pinning a prefix length changes no record. -/
theorem Indexed.pin {limit : PrefixLength} (hi : Indexed store l) (hp : store.pin limit = .ok store') :
    store'.Reflects limit l.live l.all l.deleted := by
  obtain ⟨rfl, hl⟩ := Store.pin_eq_ok_iff.1 hp
  have h : store.Reflects limit l.live l.all l.deleted := hi limit (by rcases hl with hl | hl <;> rw [hl] <;> rfl)
  exact ⟨h.wellFormed, h.postings, h.counts, h.marked⟩

theorem Accounts.of_open {disk : Disk} (hi : Indexed store l) (ho : Opened store l m) :
    Accounts ⟨⟨⟨store, disk⟩, some m⟩, l⟩ where
  indexed := hi
  opened m hm := by
    cases hm
    exact ho

/-- Whether an index is rightly open depends on its configuration and its sweeper only. -/
theorem Opened.congr (ho : Opened store l m) (hc : m'.config = m.config) (hs : m'.sweeper = m.sweeper) :
    Opened store l m' := by
  constructor
  · rw [hc]
    exact ho.pinned
  · rw [hs, hc]
    exact ho.sweeps
  · rw [hs]
    exact ho.batchSize
  · rw [hs]
    exact ho.pending

theorem accounts_start (disk : Disk) : (start disk).Accounts where
  indexed limit _ := Store.Reflects.empty limit none
  opened m hm := by cases hm

/-- Opening recovers the pending domains from the markers. -/
theorem accounts_openAt (h : r.Accounts) (config : Config) : (r.step path (.openAt config)).Accounts := by
  rw [step_openAt]
  rcases Model.openAt_cases r.session.durable path config with ⟨e, he⟩ | ⟨d₁, hp, hd⟩
  · rw [he]
    exact ⟨h.indexed, Session.of_closed⟩
  · obtain ⟨-, -, -, hpin⟩ := Model.prepare_eq_ok_iff.1 hp
    have hl : d₁.store.prefixLength = some config.prefixLength := by rw [(Store.pin_eq_ok_iff.1 hpin).1]
    have hr := h.indexed.pin hpin
    have hi : Indexed d₁.store r.ledger := .of_pinned hl hr
    rcases hd with ⟨e, he⟩ | ⟨streams, manifest, corpus, disk, -, -, -, ⟨e, he⟩ | ⟨c, sweeper, -, hw, he⟩⟩
    · rw [he]
      exact ⟨hi, Session.of_closed⟩
    · rw [he]
      exact ⟨hi, Session.of_closed⟩
    · rw [hr.resume] at hw
      cases hw
      rw [he]
      exact .of_open hi ⟨hl, rfl, Nat.lt_of_lt_of_le Nat.one_pos (Nat.le_max_right _ _), rfl⟩

/-! ### Steps of an open index -/

section Open

variable {model : Model} (hm : r.session.model = some model)

include hm

/-- A committed batch goes into the ledger, a failing one leaves it as it is. -/
theorem accounts_put (h : r.Accounts) (batch : UpdateBatch) (seconds : Float) :
    (r.step path (.put batch seconds)).Accounts := by
  have ho := h.opened model hm
  rcases step_put_cases path hm batch seconds with
    ⟨m', disk, hstep, hconfig, hsweeper, -⟩ |
      ⟨m', placed, disk, stats, store, -, -, -, hcommit, hconfig, hsweeper, hstep⟩
  · rw [hstep]
    exact .of_open h.indexed (ho.congr hconfig hsweeper)
  · have hr := (ho.reflects h.indexed).commit hcommit
    have hl : store.prefixLength = some model.config.prefixLength :=
      (Store.prefixLength_commit hcommit).trans ho.pinned
    rw [hstep]
    refine .of_open (.of_pinned hl hr) ⟨?_, ?_, ?_, ?_⟩
    · rw [hconfig]
      exact hl
    · rw [hsweeper, hconfig]
      exact ho.sweeps
    · rw [hsweeper]
      exact ho.batchSize
    · rw [hsweeper]
      show model.sweeper.pending ∪ batch.deletions = r.ledger.deleted ∪ batch.deletions
      rw [ho.pending]

/-- A batch that the system refuses leaves index and ledger as they are. -/
theorem accounts_refuse (h : r.Accounts) (batch : UpdateBatch) (sentences : Nat) (torn : Option Nat) :
    (r.step path (.refuse batch sentences torn)).Accounts := by
  obtain ⟨corpus, disk, -, -, hstep⟩ := step_refuse path hm batch sentences torn
  rw [hstep]
  exact .of_open h.indexed ((h.opened model hm).congr rfl rfl)

/-- A compaction writes no record of a phrase. -/
theorem accounts_compact (h : r.Accounts) : (r.step path .compact).Accounts := by
  have ho := h.opened model hm
  obtain ⟨m', store, hstep, hconfig, hsweeper, -, rfl | ⟨-, stats, hc⟩⟩ := step_compact_cases path hm
  · rw [hstep]
    exact .of_open h.indexed (ho.congr hconfig hsweeper)
  · have hr := (ho.reflects h.indexed).commit hc
    have hempty : r.ledger.deleted ∪ (∅ : DomainSet) = r.ledger.deleted :=
      Std.ExtTreeSet.ext_mem fun domain => by simp [Std.ExtTreeSet.mem_union_iff]
    rw [List.append_nil, List.append_nil, hempty] at hr
    have hl : store.prefixLength = some model.config.prefixLength := (Store.prefixLength_commit hc).trans ho.pinned
    rw [hstep]
    exact .of_open (.of_pinned hl hr)
      (Opened.congr ⟨hl, ho.sweeps, ho.batchSize, ho.pending⟩ hconfig hsweeper)

end Open

/-- The sweep of an open index comes to its end, takes the deleted domains out of the ledger and leaves every record
that belongs to no domain. -/
theorem Opened.sweep (ho : Opened store l m) (hi : Indexed store l) :
    ∃ stats s', m.sweeper.sweep store = (.ok stats, { m.sweeper with pending := ∅ }, s') ∧ Indexed s' l.sweep ∧
      s'.prefixLength = store.prefixLength ∧
      ∀ k : Key, k.kind ≠ .source → k.kind ≠ .deletion → s'.get? k.encode = store.get? k.encode := by
  have hr := ho.reflects hi
  have hreadable : Sweeper.Readable m.sweeper.prefixLength (store.keysOf .source) := by
    rw [ho.sweeps]
    exact Sweeper.readable_of_sound hr.sound
  obtain ⟨s', hs, hl, hgone, hrest⟩ := Sweeper.sweep_of_readable hreadable ho.batchSize
  rw [ho.sweeps, ho.pending] at hgone hrest
  have hswept : s'.Reflects m.config.prefixLength (Sweeper.keep l.deleted l.live) l.all ∅ :=
    hr.purge hgone hrest fun domain => by simp
  exact ⟨_, s', hs, .of_pinned (hl.trans ho.pinned) hswept, hl,
    fun k hsource hdeletion => hrest _ (Sweeper.not_purged hsource hdeletion)⟩

/-- A ledger without deleted domains has nothing to sweep. -/
theorem sweep_of_deleted_empty (hd : l.deleted = ∅) : l.sweep = l := by
  have hkeep : Sweeper.keep ∅ l.live = l.live := by simp [Sweeper.keep]
  rw [Ledger.sweep, hd, hkeep, ← hd]

theorem step_sweep (path : Path) (hm : r.session.model = some m) {stats : SweepStats} {sweeper : Sweeper} {s' : Store}
    (hs : m.sweeper.sweep r.session.durable.store = (.ok stats, sweeper, s')) :
    ∃ metrics, r.step path .sweep =
      ⟨⟨{ r.session.durable with store := s' }, some { m with sweeper, metrics }⟩, r.ledger.sweep⟩ := by
  refine ⟨m.metrics.recordSweep stats.keysRemoved, ?_⟩
  simp only [step, Session.step, Session.act, Session.account, hm, Model.sweep, hs]
  rfl

/-- The background task does nothing, or it does a sweep. -/
theorem step_sweepInBackground_cases (path : Path) (hm : r.session.model = some m)
    (ho : m.sweeper.pending = r.ledger.deleted) {stats : SweepStats} {sweeper : Sweeper} {s' : Store}
    (hs : m.sweeper.sweep r.session.durable.store = (.ok stats, sweeper, s')) :
    ∃ metrics, r.step path .sweepInBackground = ⟨⟨r.session.durable, some { m with metrics }⟩, r.ledger⟩ ∨
      r.step path .sweepInBackground =
        ⟨⟨{ r.session.durable with store := s' }, some { m with sweeper, metrics }⟩, r.ledger.sweep⟩ := by
  by_cases hidle : m.sweeper.pending.isEmpty || m.sweeper.stopped
  · have hback : m.sweeper.sweepInBackground r.session.durable.store =
        (.ok {}, m.sweeper, r.session.durable.store) := by
      rw [Sweeper.sweepInBackground, if_pos hidle]
    have haccount : r.session.account r.ledger .sweepInBackground = r.ledger := by
      simp only [Session.account, hm]
      split
      · next hc =>
        have hempty : m.sweeper.pending.isEmpty := by
          simp only [Bool.and_eq_true, Bool.not_eq_true'] at hc
          simpa [hc.1] using hidle
        rw [Std.ExtTreeSet.isEmpty_iff, ho] at hempty
        exact sweep_of_deleted_empty hempty
      · rfl
    refine ⟨m.metrics.recordSweep 0, .inl ?_⟩
    rw [step, haccount]
    simp only [Session.step, Session.act, hm, Model.sweepInBackground, hback]
  · have hback : m.sweeper.sweepInBackground r.session.durable.store = (.ok stats, sweeper, s') := by
      rw [Sweeper.sweepInBackground, if_neg hidle, hs]
    have hrunning : m.sweeper.stopped = false := by
      simp only [Bool.or_eq_true, not_or] at hidle
      simpa using hidle.2
    refine ⟨m.metrics.recordSweep stats.keysRemoved, .inr ?_⟩
    simp only [step, Session.step, Session.act, Session.account, hm, Model.sweepInBackground, hback, hrunning]
    rfl

theorem accounts_sweep (path : Path) (hm : r.session.model = some m) (h : r.Accounts) :
    (r.step path .sweep).Accounts := by
  have ho := h.opened m hm
  obtain ⟨stats, s', hs, hi, hl, -⟩ := ho.sweep h.indexed
  obtain ⟨metrics, hstep⟩ := step_sweep path hm hs
  rw [hstep]
  exact .of_open hi ⟨hl.trans ho.pinned, ho.sweeps, ho.batchSize, rfl⟩

theorem accounts_sweepInBackground (path : Path) (hm : r.session.model = some m) (h : r.Accounts) :
    (r.step path .sweepInBackground).Accounts := by
  have ho := h.opened m hm
  obtain ⟨stats, s', hs, hi, hl, -⟩ := ho.sweep h.indexed
  obtain ⟨metrics, hstep | hstep⟩ := step_sweepInBackground_cases path hm ho.pending hs
  · rw [hstep]
    exact .of_open h.indexed (ho.congr rfl rfl)
  · rw [hstep]
    exact .of_open hi ⟨hl.trans ho.pinned, ho.sweeps, ho.batchSize, rfl⟩

/-! ### Whole runs -/

/-- Every operation keeps index and ledger together. -/
theorem accounts_step (h : r.Accounts) (op : Operation) : (r.step path op).Accounts := by
  cases hm : r.session.model with
  | none =>
    cases op with
    | openAt config => exact accounts_openAt h config
    | put | refuse | compact | sweep | sweepInBackground | close => rwa [step_of_closed path hm fun _ h => by cases h]
  | some model =>
    cases op with
    | openAt config => exact accounts_openAt h config
    | put batch seconds => exact accounts_put hm h batch seconds
    | refuse batch sentences torn => exact accounts_refuse hm h batch sentences torn
    | compact => exact accounts_compact hm h
    | sweep => exact accounts_sweep path hm h
    | sweepInBackground => exact accounts_sweepInBackground path hm h
    | close =>
      rw [step_close]
      exact ⟨h.indexed, Session.of_closed⟩

/-- Index and ledger agree after every run. -/
theorem accounts_after (disk : Disk) (path : Path) (ops : List Operation) : (after disk path ops).Accounts := by
  have hfold : ∀ r : Run, r.Accounts → (ops.foldl (step path) r).Accounts := by
    induction ops with
    | nil =>
      intro r h
      exact h
    | cons op ops ih =>
      intro r h
      exact ih _ (accounts_step h op)
  exact hfold _ (accounts_start disk)

/-- After every run an open index counts as the ledger does: a phrase of an admissible length as often as it occurs in
the live sources, or in the targets of all committed sentences, and never less than once; any other phrase once. -/
theorem count_after (disk : Disk) (path : Path) (ops : List Operation) (m : Model) (side : Side) (phrase : Phrase)
    (hm : (after disk path ops).session.model = some m) (hb : (after disk path ops).ledger.total phrase side < 2 ^ 63) :
    m.count (after disk path ops).session.durable.store side phrase =
      .ok (if 1 ≤ phrase.length ∧ phrase.length ≤ m.config.prefixLength.toNat then
        max 1 ((after disk path ops).ledger.total phrase side) else 1) := by
  have h := accounts_after disk path ops
  have hr := (h.opened m hm).reflects h.indexed
  unfold Model.count
  split
  · next hc =>
    have hout : ¬(1 ≤ phrase.length ∧ phrase.length ≤ m.config.prefixLength.toNat) := by
      rw [Bool.or_eq_true, List.isEmpty_iff, decide_eq_true_eq, ← List.length_eq_zero_iff] at hc
      omega
    rw [if_neg hout]
  · next hc =>
    have hin : 1 ≤ phrase.length ∧ phrase.length ≤ m.config.prefixLength.toNat := by
      rw [Bool.or_eq_true, List.isEmpty_iff, decide_eq_true_eq, ← List.length_eq_zero_iff] at hc
      omega
    rw [if_pos hin]
    cases side with
    | source => exact map_eq_ok_iff.2 ⟨_, hr.sourceCount hin.1 hin.2, rfl⟩
    | target => exact map_eq_ok_iff.2 ⟨_, hr.targetCount hin.1 hin.2 hb, rfl⟩

/-! ### A run -/

/-- An empty model directory. -/
def emptyDisk : Disk := (Disk.empty [""]).addDirectory ["", "model"]

def modelPath : Path := ⟨["", "model"], "/model"⟩

/-- A batch of one sentence pair that is full of sevens. -/
def sevens (domain : Domain) (deletions : DomainSet) : UpdateBatch where
  capacity := 0
  streams := .empty
  entries := [⟨domain, [7, 7, 7], [9, 7], []⟩]
  deletions := deletions

/-- The second batch deletes the domain of the first, which is swept before the index is opened for a bulk load. -/
def replacement : List Operation :=
  [.openAt {}, .put (sevens 1 ∅) 0, .put (sevens 2 {1}) 0, .sweep, .openAt { bulkLoad := true }]

theorem count_after_replacement : ∃ m, (after emptyDisk modelPath replacement).session.model = some m ∧
    m.count (after emptyDisk modelPath replacement).session.durable.store .source [7, 7] = .ok 2 := by
  obtain ⟨m, hm⟩ : ∃ m, (after emptyDisk modelPath replacement).session.model = some m :=
    Option.isSome_iff_exists.1 (by decide +kernel)
  have hlimit : m.config.prefixLength = 4 := by
    have h : (after emptyDisk modelPath replacement).session.model.map (·.config.prefixLength) = some 4 := by
      decide +kernel
    rw [hm] at h
    exact Option.some.inj h
  have htotal : (after emptyDisk modelPath replacement).ledger.total [7, 7] .source = 2 := by decide +kernel
  refine ⟨m, hm, ?_⟩
  rw [count_after emptyDisk modelPath replacement m .source [7, 7] hm (by rw [htotal]; decide), hlimit, htotal]
  rfl

end Run

end PhraseIndex
