import PhraseIndex.Proofs.Accounts
import PhraseIndex.Proofs.Codec

/-!
# Stream positions

Positions cover an update once they have been moved to it or past it (`Streams.covers_advance`, `Streams.covers_merge`).
They are read back from the index as they were committed (`Streams.decode_encode`, `Store.storedStreams_commit`), so the
positions of an open index and the persisted ones are the same, and only a batch that is put moves them
(`Session.positioned_step`).
-/

namespace PhraseIndex

/-! ## What positions cover -/

/-- The greater of two numbers. -/
theorem SeqNo.max_eq (a b : SeqNo) : max a b = if a ≤ b then b else a := rfl

instance : Std.LawfulOrderMax SeqNo where
  max_le_iff a b c := by
    rw [SeqNo.max_eq]
    split
    · next h => exact ⟨fun hc => ⟨Int64.le_trans h hc, hc⟩, And.right⟩
    · next h => exact ⟨fun hc => ⟨hc, Int64.le_trans (Int64.le_of_lt (Int64.not_le.1 h)) hc⟩, And.left⟩
  max_eq_or a b := by
    rw [SeqNo.max_eq]
    split
    · exact .inr rfl
    · exact .inl rfl

namespace Streams

variable {s t : Streams} {id x : UpdateId}

theorem covers_iff : s.covers x = true ↔ ∃ seq, s.get? x.stream = some seq ∧ x.seq ≤ seq := by
  unfold covers
  cases s.get? x.stream <;> simp

@[simp] theorem covers_empty (x : UpdateId) : empty.covers x = false := by
  simp [covers, empty, get?]

theorem advance_of_covers (h : s.covers id = true) : s.advance id = s := by
  rw [advance, if_pos h]

/-- After a move an update of that stream is covered up to its number, and what was covered before. -/
theorem covers_advance : (s.advance id).covers x = true ↔
    s.covers x = true ∨ x.stream = id.stream ∧ x.seq ≤ id.seq := by
  by_cases hid : s.covers id = true
  · rw [advance_of_covers hid]
    refine ⟨.inl, ?_⟩
    rintro (hx | ⟨hstream, hle⟩)
    · exact hx
    · obtain ⟨seq, hseq, hlast⟩ := covers_iff.1 hid
      exact covers_iff.2 ⟨seq, by rw [hstream, hseq], Int64.le_trans hle hlast⟩
  · rw [covers_iff, get?_advance]
    by_cases hstream : x.stream = id.stream
    · rw [if_pos ⟨hstream.symm, hid⟩]
      simp only [Option.some.injEq, exists_eq_left', hstream, true_and]
      refine ⟨.inr, ?_⟩
      rintro (hx | hle)
      · obtain ⟨seq, hseq, hle⟩ := covers_iff.1 hx
        rw [hstream] at hseq
        rcases Int64.le_total seq id.seq with h | h
        · exact Int64.le_trans hle h
        · exact absurd (covers_iff.2 ⟨seq, hseq, h⟩) hid
      · exact hle
    · rw [if_neg fun h => hstream h.1.symm, ← covers_iff]
      simp only [hstream, false_and, or_false]

theorem mem_toList {p : StreamId × SeqNo} : p ∈ s.toList ↔ s.get? p.1 = some p.2 :=
  Std.ExtTreeMap.mem_toList_iff_getElem?_eq_some

/-- Merged positions cover what either of them covers. -/
theorem covers_merge : (s.merge t).covers x = true ↔ s.covers x = true ∨ t.covers x = true := by
  have hfold : ∀ (pairs : List (StreamId × SeqNo)) (s : Streams),
      (pairs.foldl (fun s p => s.advance ⟨p.1, p.2⟩) s).covers x = true ↔
        s.covers x = true ∨ ∃ p ∈ pairs, x.stream = p.1 ∧ x.seq ≤ p.2 := by
    intro pairs
    induction pairs with
    | nil => simp
    | cons p pairs ih =>
      intro s
      rw [List.foldl_cons, ih, covers_advance, or_assoc, List.exists_mem_cons_iff]
  rw [merge, hfold t.toList s, covers_iff (s := t)]
  refine or_congr_right ⟨?_, ?_⟩
  · rintro ⟨p, hp, hstream, hle⟩
    exact ⟨p.2, by rw [hstream, mem_toList.1 hp], hle⟩
  · rintro ⟨seq, hseq, hle⟩
    exact ⟨(x.stream, seq), mem_toList.2 hseq, rfl, hle⟩

theorem ext_get? (h : ∀ stream, s.get? stream = t.get? stream) : s = t := by
  obtain ⟨positions⟩ := s
  obtain ⟨positions'⟩ := t
  exact congrArg mk (Std.ExtTreeMap.ext_getElem? h)

/-- Positions that cover the same updates are the same. -/
theorem ext_covers (h : ∀ x, s.covers x = true ↔ t.covers x = true) : s = t := by
  have hle : ∀ {s t : Streams}, (∀ x, s.covers x = true → t.covers x = true) → ∀ {stream seq},
      s.get? stream = some seq → ∃ later, t.get? stream = some later ∧ seq ≤ later := by
    intro s t hst stream seq hs
    exact covers_iff.1 (hst ⟨stream, seq⟩ (covers_iff.2 ⟨seq, hs, Int64.le_refl seq⟩))
  refine ext_get? fun stream => ?_
  cases hs : s.get? stream with
  | none =>
    cases ht : t.get? stream with
    | none => rfl
    | some seq =>
      obtain ⟨later, hlater, -⟩ := hle (fun x => (h x).2) ht
      rw [hs] at hlater
      cases hlater
  | some seq =>
    obtain ⟨later, hlater, h₁⟩ := hle (fun x => (h x).1) hs
    obtain ⟨seq', hseq', h₂⟩ := hle (fun x => (h x).2) hlater
    rw [hs] at hseq'
    cases hseq'
    rw [hlater, Int64.le_antisymm h₁ h₂]

/-- Positions that cover an update of a stream up to one of these numbers stand at the greatest of them. -/
theorem get?_eq_max? {stream : StreamId} {numbers : List SeqNo}
    (h : ∀ seq, s.covers ⟨stream, seq⟩ = true ↔ ∃ n ∈ numbers, seq ≤ n) : s.get? stream = numbers.max? := by
  cases hs : s.get? stream with
  | none =>
    have hnil : numbers = [] := by
      rw [List.eq_nil_iff_forall_not_mem]
      intro n hn
      obtain ⟨seq, hseq, -⟩ := covers_iff.1 ((h n).2 ⟨n, hn, Int64.le_refl n⟩)
      rw [hs] at hseq
      cases hseq
    rw [hnil, List.max?_nil]
  | some last =>
    have hmax : ∀ n ∈ numbers, n ≤ last := by
      intro n hn
      obtain ⟨seq, hseq, hle⟩ := covers_iff.1 ((h n).2 ⟨n, hn, Int64.le_refl n⟩)
      rw [hs] at hseq
      cases hseq
      exact hle
    obtain ⟨n, hn, hle⟩ := (h last).1 (covers_iff.2 ⟨last, hs, Int64.le_refl last⟩)
    obtain rfl : last = n := Int64.le_antisymm hle (hmax n hn)
    exact (List.max?_eq_some_iff.2 ⟨hn, hmax⟩).symm

/-- The greater of two positions, of which one or both may be missing. -/
def greater : Option SeqNo → Option SeqNo → Option SeqNo
  | some a, some b => some (if a ≤ b then b else a)
  | some a, none => some a
  | none, b => b

/-- Positions that are everywhere the greater of two cover what either of them covers. -/
theorem covers_of_greater {r : Streams} (h : ∀ stream, r.get? stream = greater (s.get? stream) (t.get? stream)) :
    r.covers x = true ↔ s.covers x = true ∨ t.covers x = true := by
  have hle : ∀ a b : SeqNo, x.seq ≤ (if a ≤ b then b else a) ↔ x.seq ≤ a ∨ x.seq ≤ b := by
    intro a b
    split
    · next hab => exact ⟨.inr, fun hx => hx.elim (Int64.le_trans · hab) id⟩
    · next hab => exact ⟨.inl, fun hx => hx.elim id (Int64.le_trans · (Int64.le_of_lt (Int64.not_le.1 hab)))⟩
  rw [covers_iff, covers_iff, covers_iff, h]
  cases s.get? x.stream <;> cases t.get? x.stream <;> simp [greater, hle]

/-! ## Persisted positions -/

/-- Positions are those of their list. -/
theorem ofList_toList (s : Streams) : ofList s.toList = s := by
  have hfold : ∀ (pairs : List (StreamId × SeqNo)) (m : Std.ExtTreeMap StreamId SeqNo),
      pairs.foldl (fun m p => m.insert p.1 p.2) m = m.insertMany pairs := by
    intro pairs
    induction pairs with
    | nil => exact fun m => Std.ExtTreeMap.insertMany_nil.symm
    | cons p pairs ih =>
      intro m
      rw [List.foldl_cons, ih]
      exact Std.ExtTreeMap.insertMany_cons.symm
  have hpositions : (∅ : Std.ExtTreeMap StreamId SeqNo).insertMany s.toList = s.positions := by
    apply Std.ExtTreeMap.ext_getElem?
    intro stream
    rw [← Std.ExtTreeMap.ofList_eq_insertMany_empty]
    cases hp : s.positions[stream]? with
    | some seq =>
      exact Std.ExtTreeMap.getElem?_ofList_of_mem Std.ReflCmp.compare_self Std.ExtTreeMap.distinct_keys_toList
        (mem_toList.2 hp)
    | none =>
      apply Std.ExtTreeMap.getElem?_ofList_of_contains_eq_false
      rw [Bool.eq_false_iff, ne_eq, List.contains_iff_mem]
      intro hmem
      obtain ⟨p, hp', rfl⟩ := List.mem_map.1 hmem
      have hsome := mem_toList.1 hp'
      rw [get?, hp] at hsome
      cases hsome
  exact congrArg Streams.mk ((hfold s.toList ∅).trans hpositions)

/-- There are no more positions than numbers of streams. -/
theorem length_toList_le (s : Streams) : s.toList.length ≤ 2 ^ 16 := by
  have hnodup : (s.toList.map fun p => p.1.toNat).Nodup := by
    refine List.pairwise_map.2 (Std.ExtTreeMap.distinct_keys_toList.imp ?_)
    intro p q hne he
    exact hne (Std.LawfulEqCmp.compare_eq_iff_eq.2 (UInt16.toNat_inj.1 he))
  have hsub : (s.toList.map fun p => p.1.toNat) ⊆ List.range (2 ^ 16) := by
    intro n hn
    obtain ⟨p, -, rfl⟩ := List.mem_map.1 hn
    exact List.mem_range.2 p.1.toNat_lt
  have hle := (List.subperm_of_subset hnodup hsub).length_le
  rwa [List.length_map, List.length_range] at hle

theorem readPair_append (p : StreamId × SeqNo) (rest : Bytes) : readPair (encodePair p ++ rest) = some (p, rest) := by
  have hi64 : Binary.readI64 (Binary.i64 p.2 ++ rest) = some (p.2, rest) := by
    have h := Binary.map_of_some UInt64.toInt64 (Binary.readU64_append rest p.2.toUInt64)
    rwa [Int64.toInt64_toUInt64] at h
  rw [readPair, encodePair, List.append_assoc, Binary.bind_of_some (Binary.readU16_append _ _),
    Binary.bind_of_some hi64]
  rfl

/-- A list of pairs is read from in front of any other bytes. -/
theorem decode_sequence {pairs : List (StreamId × SeqNo)} (h : pairs.length < 2 ^ 64) (rest : Bytes) :
    decode (Binary.sequence encodePair pairs ++ rest) = .ok (ofList pairs) := by
  have hne : Binary.sequence encodePair pairs ++ rest ≠ [] := List.cons_ne_nil _ _
  rw [decode, if_neg (by rwa [List.isEmpty_iff]),
    Binary.decode?_of_some (Binary.readSequence_append rest (fun p r => readPair_append p r) h)]

/-- Positions are read back as they were written, from in front of any other bytes. -/
theorem decode_append (s : Streams) (rest : Bytes) : decode (s.encode ++ rest) = .ok s := by
  rw [encode, decode_sequence (Nat.lt_of_le_of_lt s.length_toList_le (by decide)), ofList_toList]

theorem decode_encode (s : Streams) : decode s.encode = .ok s := by
  rw [← List.append_nil s.encode, decode_append]

end Streams

namespace Store

variable {s s' : Store} {limit : PrefixLength} {placed : List Placement} {deletions : DomainSet} {streams : Streams}
  {manifest : Option Manifest} {stats : CommitStats}

/-- A batch puts its stream positions. -/
theorem valuesOf_puts_streams (fragments : Fragments) (deletions : DomainSet) (streams : Streams)
    (manifest : Option Manifest) :
    valuesOf (Model.commitOf fragments deletions streams manifest).puts Key.streams.encode = [streams.encode] := by
  have hmarkers : valuesOf (deletions.toList.map fun domain => (Sweeper.marker domain, ([] : Bytes)))
      Key.streams.encode = [] := by
    apply valuesOf_eq_nil_iff.2
    intro value hv
    obtain ⟨d, -, he⟩ := List.mem_map.1 hv
    cases Key.kind_eq_of_encode_eq (k := .deletion d) (l := .streams) (Prod.mk.inj he).1
  rw [Model.commitOf, valuesOf_append, valuesOf_append, hmarkers]
  cases manifest with
  | none => rfl
  | some m => rfl

/-- The positions of a batch are the persisted ones once it is committed. -/
theorem storedStreams_commit
    (hc : s.commit (Model.commitOf (Fragments.ofPairs limit placed) deletions streams manifest) = .ok (stats, s')) :
    Model.storedStreams s' = .ok streams := by
  have hv : s'.get? Key.streams.encode = some streams.encode := by
    rw [get?_commitOf hc, valuesOf_puts_streams]
    rfl
  rw [Model.storedStreams, hv]
  exact Streams.decode_encode streams

end Store

/-! ## Positions of an index -/

namespace Session

/-- The persisted positions are these, and those of the index while it is open. -/
structure Positioned (s : Session) (streams : Streams) : Prop where
  stored : Model.storedStreams s.durable.store = .ok streams
  opened : ∀ m ∈ s.model, m.streams = streams

/-- The batch that an operation commits, if it does. -/
def commits (s : Session) : Operation → Option UpdateBatch
  | .put batch seconds => s.model.bind fun m => if (m.put s.durable batch seconds).1.isOk then some batch else none
  | _ => none

variable {s : Session} {path : Path} {streams : Streams}

theorem positioned_start (disk : Disk) : (Run.start disk).session.Positioned .empty where
  stored := rfl
  opened := Session.of_closed

/-- Opening takes up the persisted positions. -/
theorem positioned_openAt (h : s.Positioned streams) (config : Config) :
    (s.step path (.openAt config)).Positioned streams := by
  have hpin : ∀ {d}, Model.prepare s.durable path config = .ok d → Model.storedStreams d.store = .ok streams := by
    intro d hp
    obtain ⟨-, -, -, hpin⟩ := Model.prepare_eq_ok_iff.1 hp
    rw [(Store.pin_eq_ok_iff.1 hpin).1]
    exact h.stored
  simp only [step]
  rcases Model.openAt_cases s.durable path config with
    ⟨e, he⟩ | ⟨d, hp, ⟨e, he⟩ | ⟨opened, manifest, corpus, disk, hopened, -, -, ⟨e, he⟩ | ⟨c, sweeper, -, -, he⟩⟩⟩
  · rw [he]
    exact ⟨h.stored, Session.of_closed⟩
  · have hstored := hpin hp
    rw [he]
    exact ⟨hstored, Session.of_closed⟩
  · have hstored := hpin hp
    rw [he]
    exact ⟨hstored, Session.of_closed⟩
  · have hstored := hpin hp
    rw [hstored] at hopened
    cases hopened
    rw [he]
    refine ⟨hstored, ?_⟩
    intro m hm
    cases hm
    rfl

/-- A batch that is put moves the positions, another one leaves them. -/
theorem positioned_put (path : Path) {m : Model} (h : s.Positioned streams) (hm : s.model = some m)
    (batch : UpdateBatch) (seconds : Float) : (s.step path (.put batch seconds)).Positioned
      ((s.commits (.put batch seconds)).elim streams fun batch => streams.merge batch.streams) := by
  have hstreams := h.opened m hm
  simp only [step, act, commits, hm, Option.bind_some]
  rcases m.put_cases s.durable batch seconds with
    ⟨e, m', disk, hput, -, hkept, -⟩ | ⟨m', placed, disk, stats, store, -, -, hcommit, -, hmoved, -, hput⟩
  · rw [hput]
    refine ⟨h.stored, ?_⟩
    intro m₁ hm₁
    cases hm₁
    exact hkept.trans hstreams
  · rw [hput]
    rw [hstreams] at hmoved
    refine ⟨?_, ?_⟩
    · rw [Model.commitFor, hstreams] at hcommit
      exact Store.storedStreams_commit hcommit
    · intro m₁ hm₁
      cases hm₁
      exact hmoved

/-- A compaction persists the positions of the open index. -/
theorem positioned_compact (path : Path) {m : Model} (h : s.Positioned streams) (hm : s.model = some m) :
    (s.step path .compact).Positioned streams := by
  have hstreams := h.opened m hm
  simp only [step, act, hm]
  have hopened : ∀ {m' : Model}, m'.streams = m.streams → ∀ m₁ ∈ some m', m₁.streams = streams := by
    intro m' hm' m₁ hm₁
    cases hm₁
    exact hm'.trans hstreams
  rcases m.compact_cases s.durable with ⟨e, he⟩ | ⟨metrics, he | ⟨stats, store, -, hcommit, he⟩⟩
  · rw [he]
    exact ⟨h.stored, hopened rfl⟩
  · rw [he]
    exact ⟨h.stored, hopened rfl⟩
  · rw [he]
    rw [hstreams] at hcommit
    exact ⟨Store.storedStreams_commit hcommit, hopened rfl⟩

/-- What leaves the index keyspace but for source records and markers leaves the positions. -/
theorem positioned_purged {m : Model} {store : Store} {disk : Disk} (h : s.Positioned streams)
    (hstore : ∀ k : Key, k.kind ≠ .source → k.kind ≠ .deletion →
      store.get? k.encode = s.durable.store.get? k.encode) (hm : m.streams = streams) :
    Positioned ⟨⟨store, disk⟩, some m⟩ streams where
  stored := by
    rw [Model.storedStreams, hstore .streams nofun nofun]
    exact h.stored
  opened m₁ hm₁ := by
    cases hm₁
    exact hm

/-- Only a batch that is put moves the positions of an index. -/
theorem positioned_step (path : Path) (h : s.Positioned streams) (op : Operation) :
    (s.step path op).Positioned ((s.commits op).elim streams fun batch => streams.merge batch.streams) := by
  cases hm : s.model with
  | none =>
    have hnone : s.commits op = none := by
      cases op <;> simp [commits, hm]
    rw [hnone]
    cases op with
    | openAt config => exact positioned_openAt h config
    | close => exact ⟨h.stored, Session.of_closed⟩
    | put | refuse | compact | sweep | sweepInBackground =>
      simp only [step, act, hm]
      exact h
  | some m =>
    have hstreams := h.opened m hm
    cases op with
    | openAt config => exact positioned_openAt h config
    | put batch seconds => exact positioned_put path h hm batch seconds
    | compact => exact positioned_compact path h hm
    | refuse batch sentences torn =>
      obtain ⟨corpus, disk, hb, -⟩ := m.breakOff_eq s.durable batch sentences torn
      simp only [step, act, hm, hb]
      exact positioned_purged h (fun _ _ _ => rfl) hstreams
    | sweep =>
      obtain ⟨metrics, he⟩ := m.sweep_eq s.durable
      simp only [step, act, hm, he]
      exact positioned_purged h (fun _ => Sweeper.get?_sweep _ _) hstreams
    | sweepInBackground =>
      obtain ⟨metrics, he⟩ := m.sweepInBackground_eq s.durable
      simp only [step, act, hm, he]
      exact positioned_purged h (fun _ => Sweeper.get?_sweepInBackground _ _) hstreams
    | close => exact ⟨h.stored, Session.of_closed⟩

end Session

end PhraseIndex
