import PhraseIndex.Proofs.Positions

/-!
# Replaying updates

A client has a sequence of updates and offers it to new batches again and again, always from the first update on.
Batches are broken off, dropped and lost, and the index is closed and opened meanwhile. The positions cover a beginning
of the sequence at every time (`Streams.Reach`), a batch takes up the updates behind it (`UpdateBatch.Takes.add`), and
so each update that the positions cover is in the index exactly once (`Client.indexed_after`).
-/

namespace PhraseIndex

/-- A numbered sentence pair. -/
structure Update where
  id : UpdateId
  pair : SentencePair
  deriving DecidableEq, Repr

/-- The numbers of every stream increase. -/
def Increasing (updates : List Update) : Prop :=
  updates.Pairwise fun u v => u.id.stream = v.id.stream → u.id.seq < v.id.seq

instance (updates : List Update) : Decidable (Increasing updates) :=
  inferInstanceAs (Decidable (List.Pairwise _ updates))

variable {updates : List Update} {n k : Nat} {u : Update}

/-- The first `n` updates and those between `n` and `k`. -/
theorem take_append_drop_take (updates : List Update) (n k : Nat) :
    updates.take n ++ (updates.take k).drop n = updates.take (max n k) := by
  rcases Nat.le_total n k with hle | hle
  · have htake : (updates.take k).take n = updates.take n := by rw [List.take_take, Nat.min_eq_left hle]
    rw [Nat.max_eq_right hle, ← htake, List.take_append_drop]
  · rw [Nat.max_eq_left hle, List.drop_of_length_le (by rw [List.length_take]; omega), List.append_nil]

/-! ## What is covered -/

namespace Streams

variable {s t : Streams}

/-- The positions cover the first `n` updates and no other. -/
def Reach (s : Streams) (updates : List Update) (n : Nat) : Prop :=
  ∀ i u, updates[i]? = some u → (s.covers u.id = true ↔ i < n)

theorem reach_empty (updates : List Update) : empty.Reach updates 0 := by
  intro i u _
  simp

/-- Of two beginnings the longer one is covered. -/
theorem Reach.merge (hs : s.Reach updates n) (ht : t.Reach updates (max n k)) :
    (s.merge t).Reach updates (max n k) := by
  intro i u hu
  rw [covers_merge, hs i u hu, ht i u hu]
  omega

/-- A later update of a stream is not covered by an earlier one. -/
theorem Reach.advance (h : Increasing updates) (hs : s.Reach updates n) (hu : updates[n]? = some u) :
    (s.advance u.id).Reach updates (n + 1) := by
  intro i v hv
  rw [covers_advance, hs i v hv]
  constructor
  · rintro (hi | ⟨hstream, hseq⟩)
    · omega
    · by_contra hlt
      obtain ⟨hn, rfl⟩ := List.getElem?_eq_some_iff.1 hu
      obtain ⟨hi, rfl⟩ := List.getElem?_eq_some_iff.1 hv
      have hlater := List.pairwise_iff_getElem.1 h n i hn hi (by omega) hstream.symm
      exact Int64.lt_irrefl (Int64.lt_of_lt_of_le hlater hseq)
  · intro hi
    rcases Nat.lt_succ_iff_lt_or_eq.1 hi with hi | rfl
    · exact .inl hi
    · rw [hu] at hv
      cases hv
      exact .inr ⟨rfl, Int64.le_refl _⟩

theorem Reach.filter (hs : s.Reach updates n) : updates.filter (fun u => s.covers u.id) = updates.take n := by
  have htake : ∀ u ∈ updates.take n, s.covers u.id = true := by
    intro u hu
    obtain ⟨i, hi⟩ := List.mem_iff_getElem?.1 hu
    rw [List.getElem?_take] at hi
    split at hi
    · next hlt => exact (hs i u hi).2 hlt
    · cases hi
  have hdrop : ∀ u ∈ updates.drop n, ¬s.covers u.id = true := by
    intro u hu hc
    obtain ⟨i, hi⟩ := List.mem_iff_getElem?.1 hu
    rw [List.getElem?_drop] at hi
    have := (hs _ u hi).1 hc
    omega
  conv_lhs => rw [← List.take_append_drop n updates]
  rw [List.filter_append, List.filter_eq_self.2 htake, List.filter_eq_nil_iff.2 hdrop, List.append_nil]

end Streams

/-! ## What a batch takes up -/

namespace UpdateBatch

variable {b : UpdateBatch}

/-- The batch was offered the first `k` updates when the first `n` were covered: it holds those between. -/
structure Takes (b : UpdateBatch) (updates : List Update) (n k : Nat) : Prop where
  streams : b.streams.Reach updates (max n k)
  entries : b.entries = ((updates.take k).drop n).map (·.pair)
  deletions : b.deletions = ∅

theorem takes_new {m : Model} (hs : m.streams.Reach updates n) (capacity : Nat) :
    (m.newBatch capacity).Takes updates n 0 where
  streams := by rwa [Nat.max_zero]
  entries := by simp [Model.newBatch]
  deletions := rfl

/-- The next update is refused if it is covered already, and else it is added. -/
theorem Takes.add (h : Increasing updates) (hb : b.Takes updates n k) (hu : updates[k]? = some u) :
    (b.add u.id u.pair).2.Takes updates n (k + 1) := by
  have hlen : k < updates.length := (List.getElem?_eq_some_iff.1 hu).1
  unfold UpdateBatch.add
  by_cases hc : b.streams.covers u.id = true
  · have hkn : k < n := by
      have := (hb.streams k u hu).1 hc
      omega
    rw [accept_of_covers hc]
    refine ⟨?_, ?_, hb.deletions⟩
    · have hmax : max n (k + 1) = max n k := by omega
      rw [hmax]
      exact hb.streams
    · rw [hb.entries, List.drop_of_length_le (by rw [List.length_take]; omega),
        List.drop_of_length_le (by rw [List.length_take]; omega)]
  · have hnk : n ≤ k := by
      have := mt (hb.streams k u hu).2 hc
      omega
    have haccept : b.accept u.id (·.push u.pair) =
        (true, { b with streams := b.streams.advance u.id, entries := b.entries ++ [u.pair] }) := by
      rw [accept, if_neg hc]
      rfl
    have hreach := hb.streams
    rw [Nat.max_eq_right hnk] at hreach
    rw [haccept]
    refine ⟨?_, ?_, hb.deletions⟩
    · rw [Nat.max_eq_right (Nat.le_succ_of_le hnk)]
      exact hreach.advance h hu
    · show b.entries ++ [u.pair] = _
      rw [hb.entries, List.take_add_one, hu, List.drop_append_of_le_length (by rw [List.length_take]; omega),
        List.map_append]
      rfl

end UpdateBatch

/-! ## What a batch adds to the ledger -/

theorem Run.ledger_put {r : Run} {m : Model} (path : Path) (hm : r.session.model = some m) (batch : UpdateBatch)
    (seconds : Float) :
    r.session.commits (.put batch seconds) = none ∧ (r.step path (.put batch seconds)).ledger = r.ledger ∨
      r.session.commits (.put batch seconds) = some batch ∧
      ∃ placed : List Offset, placed.length = batch.entries.length ∧
        (r.step path (.put batch seconds)).ledger = r.ledger.commit (batch.entries.zip placed) batch.deletions := by
  simp only [step, Session.account, Session.commits, hm, Option.bind_some]
  rcases m.put_cases r.session.durable batch seconds with
    ⟨e, m', disk, hput, -⟩ | ⟨m', placed, disk, stats, store, -, ha, -, -, -, -, hput⟩
  · rw [hput]
    exact .inl ⟨rfl, rfl⟩
  · rw [hput, ha]
    exact .inr ⟨rfl, placed, Model.length_appendAll ha, rfl⟩

/-! ## The client -/

/-- A client and its index. -/
structure Client where
  run : Run
  /-- The batch in hand, and how many updates it was offered. -/
  hand : Option (UpdateBatch × Nat) := none
  /-- How many updates the longest committed batch was offered. -/
  reached : Nat := 0

namespace Client

inductive Action
  | openAt (config : Config)
  | close
  /-- Takes a new batch. -/
  | take (capacity : Nat)
  /-- Offers the next update to the batch in hand. -/
  | offer
  /-- Puts the batch in hand, which is dropped if that fails. -/
  | submit (seconds : Float)
  /-- Puts the batch in hand, and the system refuses a write. -/
  | lose (sentences : Nat) (torn : Option Nat)

def step (path : Path) (updates : List Update) (c : Client) : Action → Client
  | .openAt config => { c with run := c.run.step path (.openAt config) }
  | .close => { c with run := c.run.step path .close }
  | .take capacity =>
    match c.run.session.model with
    | none => c
    | some m => { c with hand := some (m.newBatch capacity, 0) }
  | .offer =>
    match c.hand with
    | none => c
    | some (batch, k) =>
      match updates[k]? with
      | none => c
      | some u => { c with hand := some ((batch.add u.id u.pair).2, k + 1) }
  | .submit seconds =>
    match c.hand with
    | none => c
    | some (batch, k) =>
      { run := c.run.step path (.put batch seconds)
        reached := (c.run.session.commits (.put batch seconds)).elim c.reached fun _ => max c.reached k }
  | .lose sentences torn =>
    match c.hand with
    | none => c
    | some (batch, _) =>
      { c with run := c.run.step path (.refuse batch sentences torn), hand := none }

/-- The client after these actions, on an index that was never opened. -/
def after (disk : Disk) (path : Path) (updates : List Update) (actions : List Action) : Client :=
  actions.foldl (step path updates) { run := .start disk }

/-- The index agrees with the ledger, in which are the updates that were reached, and the positions cover these. -/
structure Applied (updates : List Update) (c : Client) : Prop where
  accounts : c.run.Accounts
  positioned : ∃ streams, c.run.session.Positioned streams ∧ streams.Reach updates c.reached
  live : c.run.ledger.live = c.run.ledger.all
  pairs : c.run.ledger.all.map (·.1) = (updates.take c.reached).map (·.pair)
  deleted : c.run.ledger.deleted = ∅
  hand : ∀ batch k, c.hand = some (batch, k) → batch.Takes updates c.reached k

variable {c : Client} {path : Path}

/-- Whatever is said of the batch in hand holds while there is none. -/
theorem of_empty {P : UpdateBatch → Nat → Prop} :
    ∀ batch k, (none : Option (UpdateBatch × Nat)) = some (batch, k) → P batch k := by
  intro batch k h
  cases h

theorem applied_start (disk : Disk) (updates : List Update) : ({ run := .start disk } : Client).Applied updates where
  accounts := Run.accounts_start disk
  positioned := ⟨.empty, Session.positioned_start disk, Streams.reach_empty updates⟩
  live := rfl
  pairs := by simp [Run.start]
  deleted := rfl
  hand := of_empty

/-- What was applied stays as long as the ledger does. -/
theorem Applied.of_ledger {c' : Client} (hc : c.Applied updates) (ha : c'.run.Accounts)
    (hl : c'.run.ledger = c.run.ledger)
    (hp : ∃ streams, c'.run.session.Positioned streams ∧ streams.Reach updates c'.reached) (hr : c'.reached = c.reached)
    (hh : ∀ batch k, c'.hand = some (batch, k) → batch.Takes updates c'.reached k) : c'.Applied updates where
  accounts := ha
  positioned := hp
  live := by rw [hl, hc.live]
  pairs := by rw [hl, hr, hc.pairs]
  deleted := by rw [hl, hc.deleted]
  hand := hh

/-- Closing and opening leave what was applied. -/
theorem Applied.operation (hc : c.Applied updates) {op : Operation} (hop : c.run.session.commits op = none)
    (hl : (c.run.step path op).ledger = c.run.ledger) : Applied updates { c with run := c.run.step path op } := by
  obtain ⟨streams, hp, hr⟩ := hc.positioned
  have hstep := Session.positioned_step path hp op
  rw [hop] at hstep
  exact hc.of_ledger (Run.accounts_step hc.accounts op) hl ⟨streams, hstep, hr⟩ rfl hc.hand

/-- A batch that is committed applies the updates between what was reached and what it was offered. -/
theorem Applied.commit (hc : c.Applied updates) {batch : UpdateBatch} (hb : batch.Takes updates c.reached k)
    {r : Run} {placed : List Offset} (hlen : placed.length = batch.entries.length) (ha : r.Accounts)
    (hl : r.ledger = c.run.ledger.commit (batch.entries.zip placed) batch.deletions)
    (hp : ∃ streams, r.session.Positioned streams ∧ streams.Reach updates (max c.reached k)) :
    Applied updates { run := r, reached := max c.reached k } where
  accounts := ha
  positioned := hp
  live := by rw [hl, Ledger.commit, hc.live]
  pairs := by
    rw [hl, Ledger.commit, List.map_append, hc.pairs, List.map_fst_zip (by omega), hb.entries, ← List.map_append,
      take_append_drop_take]
  deleted := by
    rw [hl, Ledger.commit, hc.deleted, hb.deletions]
    exact Std.ExtTreeSet.ext_mem fun domain => by simp [Std.ExtTreeSet.mem_union_iff]
  hand := of_empty

/-- Putting the batch in hand applies it, or leaves what was applied. -/
theorem Applied.submit (hc : c.Applied updates) (seconds : Float) :
    (c.step path updates (.submit seconds)).Applied updates := by
  unfold step
  cases hh : c.hand with
  | none => exact hc
  | some x =>
    obtain ⟨batch, k⟩ := x
    obtain ⟨streams, hp, hr⟩ := hc.positioned
    have htakes := hc.hand batch k hh
    have hstep := Session.positioned_step path hp (.put batch seconds)
    have haccounts : (c.run.step path (.put batch seconds)).Accounts := Run.accounts_step hc.accounts _
    dsimp only
    cases hm : c.run.session.model with
    | none =>
      have hnone : c.run.session.commits (.put batch seconds) = none := by simp [Session.commits, hm]
      rw [hnone, Run.step_of_closed path hm fun _ h => by cases h]
      exact hc.of_ledger hc.accounts rfl ⟨streams, hp, hr⟩ rfl of_empty
    | some m =>
      rcases Run.ledger_put path hm batch seconds with ⟨hcommits, hl⟩ | ⟨hcommits, placed, hlen, hl⟩
      · rw [hcommits] at hstep ⊢
        exact hc.of_ledger haccounts hl ⟨streams, hstep, hr⟩ rfl of_empty
      · rw [hcommits] at hstep ⊢
        exact hc.commit htakes hlen haccounts hl ⟨_, hstep, hr.merge htakes.streams⟩

/-- A batch that the system refuses leaves what was applied. -/
theorem Applied.lose (hc : c.Applied updates) (sentences : Nat) (torn : Option Nat) :
    (c.step path updates (.lose sentences torn)).Applied updates := by
  unfold step
  cases hh : c.hand with
  | none => exact hc
  | some x =>
    obtain ⟨batch, k⟩ := x
    obtain ⟨streams, hp, hr⟩ := hc.positioned
    have hstep := Session.positioned_step path hp (.refuse batch sentences torn)
    have hledger : (c.run.step path (.refuse batch sentences torn)).ledger = c.run.ledger := by
      cases hm : c.run.session.model with
      | none => rw [Run.step_of_closed path hm fun _ h => by cases h]
      | some m =>
        obtain ⟨corpus, disk, -, -, hrefuse⟩ := Run.step_refuse path hm batch sentences torn
        rw [hrefuse]
    exact hc.of_ledger (Run.accounts_step hc.accounts _) hledger ⟨streams, hstep, hr⟩ rfl of_empty

/-- Whatever the client does, what was reached is applied. -/
theorem applied_step (h : Increasing updates) (hc : c.Applied updates) (a : Action) :
    (c.step path updates a).Applied updates := by
  cases a with
  | openAt config => exact hc.operation rfl (by rw [Run.step_openAt])
  | close => exact hc.operation rfl (by rw [Run.step_close])
  | submit seconds => exact hc.submit seconds
  | lose sentences torn => exact hc.lose sentences torn
  | take capacity =>
    unfold step
    cases hm : c.run.session.model with
    | none => exact hc
    | some m =>
      refine hc.of_ledger hc.accounts rfl hc.positioned rfl ?_
      intro batch k hh
      cases hh
      obtain ⟨streams, hp, hr⟩ := hc.positioned
      rw [← hp.opened m hm] at hr
      exact UpdateBatch.takes_new hr capacity
  | offer =>
    unfold step
    cases hh : c.hand with
    | none => exact hc
    | some x =>
      obtain ⟨batch, k⟩ := x
      dsimp only
      cases hu : updates[k]? with
      | none => exact hc
      | some u =>
        refine hc.of_ledger hc.accounts rfl hc.positioned rfl ?_
        intro batch' k' hh'
        cases hh'
        exact (hc.hand batch k hh).add h hu

/-- At every time what was reached is applied. -/
theorem applied_after (disk : Disk) (path : Path) (actions : List Action) (h : Increasing updates) :
    (after disk path updates actions).Applied updates := by
  refine List.foldlRecOn (motive := Applied updates) actions (step path updates) (applied_start disk updates) ?_
  intro c hc a _
  exact applied_step h hc a

/-- At every time the index holds exactly the updates that its positions cover, each of them once, and these are the
beginning of the sequence that the longest committed batch was offered. -/
theorem indexed_after (disk : Disk) (path : Path) (updates : List Update) (actions : List Action)
    (h : Increasing updates) : ∃ streams placed,
      Model.storedStreams (after disk path updates actions).run.session.durable.store = .ok streams ∧
      (∀ m ∈ (after disk path updates actions).run.session.model, m.streams = streams) ∧
      updates.filter (fun u => streams.covers u.id) = updates.take (after disk path updates actions).reached ∧
      placed.map (·.1) = (updates.take (after disk path updates actions).reached).map (·.pair) ∧
      Run.Indexed (after disk path updates actions).run.session.durable.store { all := placed, live := placed } := by
  have hc := applied_after disk path actions h
  generalize after disk path updates actions = c at hc ⊢
  obtain ⟨streams, hp, hr⟩ := hc.positioned
  refine ⟨streams, c.run.ledger.all, hp.stored, hp.opened, hr.filter, hc.pairs, ?_⟩
  have hl : ∀ l : Ledger, l.live = l.all → l.deleted = ∅ → { all := l.all, live := l.all } = l := by
    rintro ⟨all, live, deleted⟩ hlive hdeleted
    dsimp only at hlive hdeleted ⊢
    rw [hlive, hdeleted]
  rw [hl _ hc.live hc.deleted]
  exact hc.accounts.indexed

/-! ### A client -/

/-- Updates on two streams. -/
def greetings : List Update :=
  [⟨⟨1, -5⟩, ⟨1, [7, 8], [9], []⟩⟩, ⟨⟨2, 0⟩, ⟨1, [8], [9], []⟩⟩, ⟨⟨1, 4⟩, ⟨2, [7], [], []⟩⟩]

/-- Two updates are committed, a batch of all three is lost within a record, and after a new start another one is
not. -/
def perseverance : List Action :=
  [.openAt {}, .take 0, .offer, .offer, .submit 0, .take 0, .offer, .offer, .offer, .lose 0 (some 3), .close,
    .openAt {}, .take 0, .offer, .offer, .offer, .submit 0]

theorem indexed_after_perseverance : Increasing greetings ∧ ∃ streams placed,
    Model.storedStreams (after Run.emptyDisk Run.modelPath greetings perseverance).run.session.durable.store =
      .ok streams ∧ greetings.filter (fun u => streams.covers u.id) = greetings ∧
      placed.map (·.1) = greetings.map (·.pair) ∧
      Run.Indexed (after Run.emptyDisk Run.modelPath greetings perseverance).run.session.durable.store
        { all := placed, live := placed } := by
  have hincreasing : Increasing greetings := by decide
  have hreached : (after Run.emptyDisk Run.modelPath greetings perseverance).reached = 3 := by decide +kernel
  obtain ⟨streams, placed, hstored, -, hcovered, hpairs, hindexed⟩ :=
    indexed_after Run.emptyDisk Run.modelPath greetings perseverance hincreasing
  rw [hreached] at hcovered hpairs
  exact ⟨hincreasing, streams, placed, hstored, hcovered, hpairs, hindexed⟩

end Client

end PhraseIndex
