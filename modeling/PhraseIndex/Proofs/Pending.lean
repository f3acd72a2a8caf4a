import PhraseIndex.Proofs.Accounts

/-!
# Pending domains and markers

The domains that wait for a sweep are kept twice: the sweeper of an open index has them in memory, and the index has a
marker for each. In a run, where one operation follows the other, the two always agree, and a sweep comes to its end and
leaves neither, nor any source record of a domain that it found pending (`Run.pending_after`).
-/

namespace PhraseIndex

/-! ## Source keys -/

/-- A source key is there only for a phrase that a live sentence of its domain has. -/
theorem Store.Reflects.of_mem_keysOf_source {s : Store} {limit : PrefixLength} {live all : List Placement}
    {deleted : DomainSet} {key : Bytes} (h : s.Reflects limit live all deleted) (hk : key ∈ s.keysOf .source) :
    ∃ phrase domain, (Key.source phrase domain).WellFormed limit ∧ (Key.source phrase domain).encode = key ∧
      postingsOf phrase domain live ≠ [] := by
  obtain ⟨hkind, hsome⟩ := Store.mem_keysOf.1 hk
  obtain ⟨value, hv⟩ := Option.isSome_iff_exists.1 hsome
  obtain ⟨k, hw, rfl⟩ := h.wellFormed hv
  rw [Key.kindOf?_encode] at hkind
  cases k with
  | source phrase domain =>
    refine ⟨phrase, domain, hw, rfl, fun hempty => ?_⟩
    rw [h.postings hw, hempty] at hv
    cases hv
  | streams | manifest | target | deletion => simp [Key.kind] at hkind

namespace Run

variable {store : Store} {l : Ledger} {m : Model}

/-! ## Both representations -/

/-- The markers of the index are those of the pending domains. -/
theorem Opened.isSome_marker_iff (ho : Opened store l m) (hi : Indexed store l) (domain : Domain) :
    (store.get? (Sweeper.marker domain)).isSome ↔ domain ∈ m.sweeper.pending := by
  rw [(ho.reflects hi).marked, ho.pending]

/-- A sweep leaves no marker, and source records of other domains only. -/
theorem Opened.sweep_clears (ho : Opened store l m) (hi : Indexed store l) :
    ∃ stats s', m.sweeper.sweep store = (.ok stats, { m.sweeper with pending := ∅ }, s') ∧ s'.keysOf .deletion = [] ∧
      ∀ key ∈ s'.keysOf .source, ∃ domain, Key.domainOf m.config.prefixLength key = .ok domain ∧
        domain ∉ m.sweeper.pending := by
  obtain ⟨stats, s', hs, hi', hl, -⟩ := ho.sweep hi
  have hswept : s'.Reflects m.config.prefixLength l.sweep.live l.sweep.all ∅ :=
    hi' _ (by rw [hl, ho.pinned, Option.getD_some])
  refine ⟨stats, s', hs, ?_, fun key hk => ?_⟩
  · apply List.eq_nil_iff_forall_not_mem.2
    intro key hk
    obtain ⟨domain, hsome, -⟩ := hswept.sound.mem_keysOf_deletion.1 hk
    exact Std.ExtTreeSet.not_mem_empty ((hswept.marked domain).1 hsome)
  · obtain ⟨phrase, domain, hw, rfl, hpostings⟩ := hswept.of_mem_keysOf_source hk
    refine ⟨domain, Key.domainOf_source hw, fun hd => hpostings ?_⟩
    rw [ho.pending] at hd
    exact Sweeper.postingsOf_keep.trans (if_pos hd)

/-- After every run the pending domains of an open index are those that have a marker. A sweep then succeeds: nothing is
pending after it, no marker is left, and every source key that is left is one of a domain that was not pending. -/
theorem pending_after (disk : Disk) (path : Path) (ops : List Operation) (m : Model)
    (hm : (after disk path ops).session.model = some m) :
    (∀ domain, domain ∈ m.sweeper.pending ↔
      ((after disk path ops).session.durable.store.get? (Sweeper.marker domain)).isSome) ∧
    ∃ stats m' store, m.sweep (after disk path ops).session.durable =
        (.ok stats, m', { (after disk path ops).session.durable with store }) ∧
      m'.sweeper.pending = ∅ ∧ store.keysOf .deletion = [] ∧
      ∀ key ∈ store.keysOf .source, ∃ domain, Key.domainOf m.config.prefixLength key = .ok domain ∧
        domain ∉ m.sweeper.pending := by
  have h := accounts_after disk path ops
  have ho := h.opened m hm
  refine ⟨fun domain => (ho.isSome_marker_iff h.indexed domain).symm, ?_⟩
  obtain ⟨stats, s', hs, hmarkers, hsources⟩ := ho.sweep_clears h.indexed
  refine ⟨stats, { m with
    sweeper := { m.sweeper with pending := ∅ }
    metrics := m.metrics.recordSweep stats.keysRemoved }, s', ?_, rfl, hmarkers, hsources⟩
  rw [Model.sweep, hs]

/-! ### A run -/

/-- The second batch adds to a domain and deletes it at once; the index is opened again before any sweep. -/
def refilling : List Operation :=
  [.openAt {}, .put (sevens 1 ∅) 0, .put (sevens 1 {1}) 0, .put (sevens 2 ∅) 0, .close, .openAt {}]

/-- The recovered index waits for the domain, and its sweep purges both of its sentences. -/
theorem pending_after_refilling : ∃ m, (after emptyDisk modelPath refilling).session.model = some m ∧
    1 ∈ m.sweeper.pending ∧ ∃ stats m' store, m.sweep (after emptyDisk modelPath refilling).session.durable =
      (.ok stats, m', { (after emptyDisk modelPath refilling).session.durable with store }) ∧
      m'.sweeper.pending = ∅ ∧ store.keysOf .deletion = [] ∧
      ∀ key ∈ store.keysOf .source, ∃ domain, Key.domainOf m.config.prefixLength key = .ok domain ∧
        domain ∉ m.sweeper.pending := by
  obtain ⟨m, hm⟩ : ∃ m, (after emptyDisk modelPath refilling).session.model = some m :=
    Option.isSome_iff_exists.1 (by decide +kernel)
  have hmarker : ((after emptyDisk modelPath refilling).session.durable.store.get? (Sweeper.marker 1)).isSome := by
    decide +kernel
  obtain ⟨hpending, hsweep⟩ := pending_after emptyDisk modelPath refilling m hm
  exact ⟨m, hm, (hpending 1).2 hmarker, hsweep⟩

end Run

end PhraseIndex
