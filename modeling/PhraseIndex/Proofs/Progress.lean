import PhraseIndex.Proofs.Positions
import PhraseIndex.Proofs.Resumption

/-!
# Positions never move back

A `Chronicle` is an index over time with the batches that were committed to it. Batches fail with an error or because
the system refuses a write, sweeps are broken off, the index is closed and opened again: the positions, persisted and in
memory, are always those that the committed batches reach together (`Chronicle.positioned_after`). `Streams.reached` is
the merge of their positions in any order (`Streams.reached_perm`), on each stream the greatest number that one of them
names (`Streams.get?_reached`). Hence positions only move forward (`Chronicle.positions_after`).
-/

namespace PhraseIndex

/-! ## What batches reach together -/

namespace Streams

/-- The positions that batches reach one after the other. -/
def reached (batches : List UpdateBatch) : Streams := batches.foldl (fun s batch => s.merge batch.streams) empty

variable {batches batches' : List UpdateBatch}

theorem reached_append_toList (batches : List UpdateBatch) (batch : Option UpdateBatch) :
    reached (batches ++ batch.toList) = batch.elim (reached batches) fun b => (reached batches).merge b.streams := by
  rw [reached, List.foldl_append]
  cases batch <;> rfl

/-- Together batches cover what one of them covers. -/
theorem covers_reached {x : UpdateId} :
    (reached batches).covers x = true ↔ ∃ batch ∈ batches, batch.streams.covers x = true := by
  induction batches using List.reverseRecOn with
  | nil => simp [reached]
  | append_singleton batches batch ih =>
    have hlast := reached_append_toList batches (some batch)
    rw [Option.toList_some, Option.elim_some] at hlast
    rw [hlast, covers_merge, ih]
    simp only [List.mem_append, List.mem_singleton, or_and_right, exists_or, exists_eq_left]

/-- On a stream they reach the greatest number that one of them names. -/
theorem get?_reached (batches : List UpdateBatch) (stream : StreamId) :
    (reached batches).get? stream = (batches.filterMap fun batch => batch.streams.get? stream).max? := by
  refine get?_eq_max? fun seq => ?_
  rw [covers_reached]
  simp only [List.mem_filterMap, covers_iff]
  constructor
  · rintro ⟨batch, hb, last, hlast, hle⟩
    exact ⟨last, ⟨batch, hb, hlast⟩, hle⟩
  · rintro ⟨last, ⟨batch, hb, hlast⟩, hle⟩
    exact ⟨batch, hb, last, hlast, hle⟩

/-- The order of the batches does not matter. -/
theorem reached_perm (h : batches.Perm batches') : reached batches = reached batches' :=
  ext_covers fun x => by simp only [covers_reached, h.mem_iff]

/-- More batches reach no less. -/
theorem reached_le {stream : StreamId} {seq : SeqNo} (h : batches ⊆ batches')
    (hs : (reached batches).get? stream = some seq) :
    ∃ later, (reached batches').get? stream = some later ∧ seq ≤ later := by
  have hcovers : (reached batches).covers ⟨stream, seq⟩ = true := covers_iff.2 ⟨seq, hs, Int64.le_refl seq⟩
  obtain ⟨batch, hb, hc⟩ := covers_reached.1 hcovers
  exact covers_iff.1 (covers_reached.2 ⟨batch, h hb, hc⟩)

end Streams

/-! ## Chronicles -/

/-- An index, and the batches that were committed to it, in their order. -/
structure Chronicle where
  session : Session
  committed : List UpdateBatch := []

namespace Chronicle

inductive Event
  | operation (op : Operation)
  /-- A sweep is broken off behind so many of its commits. -/
  | breakOff (commits : Nat)

def step (path : Path) (c : Chronicle) : Event → Chronicle
  | .operation op =>
    { session := c.session.step path op, committed := c.committed ++ (c.session.commits op).toList }
  | .breakOff commits =>
    let purge (m : Model) (s : Store) := (Sweeper.removeAll s ((m.sweeper.plan m.sweeper.pending s).1.take commits)).2
    { c with session := c.session.act fun m d => (m, { d with store := purge m d.store }) }

/-- The chronicle of these events on an index that was never opened. -/
def after (disk : Disk) (path : Path) (events : List Event) : Chronicle :=
  events.foldl (step path) { session := { durable := { store := {}, disk } } }

variable {c : Chronicle} {path : Path}

/-- The positions are those that the committed batches reach, whatever happens. -/
theorem positioned_step (h : c.session.Positioned (.reached c.committed)) (event : Event) :
    (c.step path event).session.Positioned (.reached (c.step path event).committed) := by
  cases event with
  | operation op =>
    simp only [step, Streams.reached_append_toList]
    exact Session.positioned_step path h op
  | breakOff commits =>
    cases hm : c.session.model with
    | none => simpa only [step, Session.act, hm] using h
    | some m =>
      simp only [step, Session.act, hm]
      refine Session.positioned_purged h (fun k hs _ => ?_) (h.opened m hm)
      exact Sweeper.get?_removeAll (List.take_subset commits _) hs

theorem positioned_after (disk : Disk) (path : Path) (events : List Event) :
    (after disk path events).session.Positioned (.reached (after disk path events).committed) := by
  refine List.foldlRecOn (motive := fun c : Chronicle => c.session.Positioned (.reached c.committed)) events (step path)
    (Session.positioned_start disk) ?_
  intro c h event _
  exact positioned_step h event

/-- What was committed stays committed. -/
theorem committed_append (disk : Disk) (path : Path) (events more : List Event) :
    (after disk path events).committed ⊆ (after disk path (events ++ more)).committed := by
  rw [after, after, List.foldl_append]
  refine List.foldlRecOn (motive := fun c : Chronicle => _ ⊆ c.committed) more (step path) (List.Subset.refl _) ?_
  intro c h event _
  cases event with
  | operation op => exact List.subset_append_of_subset_left _ h
  | breakOff => exact h

/-- Stream positions never move back. Whatever state batches start from, and whatever else happens, the positions of an
open index are the persisted ones, and on every stream they are the greatest number that a committed batch names. So
they only grow, and they do not depend on the order in which the batches were committed. -/
theorem positions_after (disk : Disk) (path : Path) (events : List Event) :
    ∃ streams, Model.storedStreams (after disk path events).session.durable.store = .ok streams ∧
      (∀ m ∈ (after disk path events).session.model, m.streams = streams) ∧
      (∀ stream, streams.get? stream =
        ((after disk path events).committed.filterMap fun batch => batch.streams.get? stream).max?) ∧
      (∀ more, ∃ later, Model.storedStreams (after disk path (events ++ more)).session.durable.store = .ok later ∧
        ∀ stream seq, streams.get? stream = some seq → ∃ seq', later.get? stream = some seq' ∧ seq ≤ seq') ∧
      ∀ disk' path' events', (after disk' path' events').committed.Perm (after disk path events).committed →
        Model.storedStreams (after disk' path' events').session.durable.store = .ok streams := by
  have hpositioned := positioned_after disk path events
  refine ⟨_, hpositioned.stored, hpositioned.opened, Streams.get?_reached _, ?_, ?_⟩
  · intro more
    refine ⟨_, (positioned_after disk path (events ++ more)).stored, fun stream seq hs => ?_⟩
    exact Streams.reached_le (committed_append disk path events more) hs
  · intro disk' path' events' hperm
    rw [← Streams.reached_perm hperm]
    exact (positioned_after disk' path' events').stored

/-! ### A stale batch -/

/-- The batch that an event puts, if it does. -/
def Event.batch? : Event → Option UpdateBatch
  | .operation (.put batch _) => some batch
  | _ => none

/-- Only batches that were put are committed, in their order. -/
theorem committed_sublist (disk : Disk) (path : Path) (events : List Event) :
    (after disk path events).committed.Sublist (events.filterMap Event.batch?) := by
  have hone : ∀ (s : Session) (op : Operation), (s.commits op).toList.Sublist (Event.operation op).batch?.toList := by
    intro s op
    cases op with
    | put batch seconds =>
      rw [Session.commits, Event.batch?]
      cases s.model with
      | none => exact List.nil_sublist _
      | some m =>
        rw [Option.bind_some]
        split
        · exact List.Sublist.refl _
        · exact List.nil_sublist _
    | openAt | refuse | compact | sweep | sweepInBackground | close => exact List.Sublist.refl _
  induction events using List.reverseRecOn with
  | nil => exact List.Sublist.refl _
  | append_singleton events event ih =>
    have hlast : [event].filterMap Event.batch? = event.batch?.toList := by
      cases h : event.batch? <;> simp [h]
    rw [List.filterMap_append, hlast, after, List.foldl_append]
    cases event with
    | operation op => exact ih.append (hone _ op)
    | breakOff => exact ih.trans (List.sublist_append_left _ _)

/-- Two streams, one of them at the least number that there is. -/
def ahead : UpdateBatch where
  capacity := 0
  streams := .ofList [(1, 5), (2, Int64.minValue)]
  entries := [⟨1, [7, 7], [9], []⟩, ⟨2, [7], [9], []⟩]

/-- Made before the other one was committed. -/
def stale : UpdateBatch where
  capacity := 0
  streams := .ofList [(1, 3), (3, -7)]
  entries := [⟨1, [7], [9], []⟩]

def marking : UpdateBatch where
  capacity := 0
  streams := .empty
  deletions := {1}

def interrupted : List Event :=
  [.operation (.openAt {}), .operation (.put ahead 0), .operation (.refuse stale 0 (some 2)),
    .operation (.put marking 0),
    .breakOff 1, .operation .close, .operation (.openAt {}), .operation .sweep, .operation (.put stale 0),
    .operation .compact]

def reordered : List Event :=
  [.operation (.openAt { bulkLoad := true }), .operation (.put stale 0), .operation (.put marking 0), .operation .close,
    .operation (.openAt {}), .operation (.put ahead 0), .operation .sweepInBackground]

theorem positions_after_interrupted :
    ∃ streams, Model.storedStreams (after Run.emptyDisk Run.modelPath interrupted).session.durable.store = .ok streams ∧
      (∀ m ∈ (after Run.emptyDisk Run.modelPath interrupted).session.model, m.streams = streams) ∧
      streams.get? 1 = some 5 ∧ streams.get? 2 = some Int64.minValue ∧ streams.get? 3 = some (-7) ∧
      streams.get? 4 = none ∧
      Model.storedStreams (after Run.emptyDisk Run.modelPath reordered).session.durable.store = .ok streams := by
  have hcommitted : (after Run.emptyDisk Run.modelPath interrupted).committed = [ahead, marking, stale] :=
    (committed_sublist _ _ interrupted).eq_of_length (by decide +kernel)
  have hreordered : (after Run.emptyDisk Run.modelPath reordered).committed = [stale, marking, ahead] :=
    (committed_sublist _ _ reordered).eq_of_length (by decide +kernel)
  obtain ⟨streams, hstored, hopened, hget, -, horder⟩ := positions_after Run.emptyDisk Run.modelPath interrupted
  rw [hcommitted] at hget
  refine ⟨streams, hstored, hopened, (hget 1).trans (by decide +kernel), (hget 2).trans (by decide +kernel),
    (hget 3).trans (by decide +kernel), (hget 4).trans (by decide +kernel), ?_⟩
  refine horder Run.emptyDisk Run.modelPath reordered ?_
  rw [hcommitted, hreordered]
  exact List.reverse_perm [ahead, marking, stale]

end Chronicle

end PhraseIndex
