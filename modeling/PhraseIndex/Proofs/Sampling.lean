import PhraseIndex.Proofs.Candidates
import PhraseIndex.Proofs.History

/-!
# Sampling

A sampler looks at the domains of its context one after the other and then, if it goes on, at all others together, and
picks from each what its budget still allows (`Sampler.samples_eq`). No domain is looked at twice and none of those that
are searched is left out (`Sampler.samples_perm`), so without a limit it answers every sentence that holds the phrase
exactly once (`History.sampled_after`). That takes a history in which no sentences are committed behind a part of a
record; after another one it may answer an error (`History.unsampled_refusedWithin`).
-/

namespace PhraseIndex

/-! ## The domains of a context -/

namespace Context

variable {c kept : Context} {e : ContextScore} {domain : Domain}

/-- Adds an entry unless its domain is there. -/
def addFirst (kept : Context) (e : ContextScore) : Context :=
  if kept.any (·.domain == e.domain) then kept else kept ++ [e]

theorem nodup_addFirst (h : (kept.map (·.domain)).Nodup) (e : ContextScore) :
    ((addFirst kept e).map (·.domain)).Nodup := by
  unfold addFirst
  split
  · exact h
  · next hnew =>
    rw [List.map_append, List.map_singleton, ← List.concat_eq_append]
    exact h.concat (by simpa using hnew)

theorem mem_addFirst :
    domain ∈ (addFirst kept e).map (·.domain) ↔ domain ∈ kept.map (·.domain) ∨ domain = e.domain := by
  unfold addFirst
  split
  · next hthere =>
    have hold : e.domain ∈ kept.map (·.domain) := by simpa using hthere
    exact ⟨.inl, fun h => h.elim id fun he => he ▸ hold⟩
  · rw [List.map_append, List.map_singleton, List.mem_append, List.mem_singleton]

theorem mem_foldl_addFirst : domain ∈ (c.foldl addFirst kept).map (·.domain) ↔
    domain ∈ kept.map (·.domain) ∨ domain ∈ c.map (·.domain) := by
  induction c generalizing kept with
  | nil => simp
  | cons e c ih => rw [List.foldl_cons, ih, mem_addFirst, List.map_cons, List.mem_cons, or_assoc]

/-- The first entries have different domains. -/
theorem nodup_firsts (c : Context) : ((firsts c).map (·.domain)).Nodup := by
  have hstart : (([] : Context).map (·.domain)).Nodup := List.nodup_nil
  refine List.foldlRecOn (motive := fun kept : Context => (kept.map (·.domain)).Nodup) c addFirst hstart ?_
  intro kept h e _
  exact nodup_addFirst h e

/-- The first entries have the domains of all entries. -/
theorem mem_firsts : domain ∈ (firsts c).map (·.domain) ↔ domain ∈ c.map (·.domain) :=
  mem_foldl_addFirst.trans (or_iff_right List.not_mem_nil)

/-- A search takes each domain of its context once. -/
theorem nodup_searchOrder (c : Context) : c.searchOrder.Nodup := nodup_firsts _

theorem mem_searchOrder : domain ∈ c.searchOrder ↔ c.any (·.domain == domain) = true := by
  rw [searchOrder, mem_firsts]
  simp [List.mem_map, List.mem_mergeSort]

theorem isEmpty_searchOrder (c : Context) : c.searchOrder.isEmpty = c.isEmpty := by
  cases c with
  | nil => simp [searchOrder, firsts]
  | cons e c =>
    rw [List.isEmpty_cons, Bool.eq_false_iff, ne_eq, List.isEmpty_iff]
    intro hnil
    have hmem : e.domain ∈ searchOrder (e :: c) := mem_searchOrder.2 (by simp)
    rw [hnil] at hmem
    cases hmem

/-- A domain is searched if the context names it, if the search goes to the background, or if there is no context. -/
def searches (c : Context) (background : Bool) (domain : Domain) : Bool :=
  c.any (·.domain == domain) || background || c.isEmpty

end Context

/-! ## Domains that are searched one after the other -/

section Domains

variable {phrase : Phrase} {live : List Placement} {A B : Domain → Bool}

theorem holding_congr (h : ∀ domain, A domain = B domain) : holding phrase A live = holding phrase B live := by
  rw [funext h]

theorem samplesOf_congr (h : ∀ domain, A domain = B domain) : samplesOf phrase A live = samplesOf phrase B live := by
  rw [funext h]

/-- The sentences of domains without a common one are those of all these domains. -/
theorem holding_append_perm (h : ∀ domain, A domain = true → B domain = false) :
    (holding phrase A live ++ holding phrase B live).Perm
    (holding phrase (fun domain => A domain || B domain) live) := by
  have hparts := List.filter_append_perm (fun x : Placement => A x.1.domain)
    (holding phrase (fun domain => A domain || B domain) live)
  have hleft : (holding phrase (fun domain => A domain || B domain) live).filter (fun x => A x.1.domain) =
      holding phrase A live := by
    rw [holding, holding, List.filter_filter]
    refine List.filter_congr fun x _ => ?_
    cases A x.1.domain <;> simp
  have hright : (holding phrase (fun domain => A domain || B domain) live).filter (fun x => !A x.1.domain) =
      holding phrase B live := by
    rw [holding, holding, List.filter_filter]
    refine List.filter_congr fun x _ => ?_
    cases ha : A x.1.domain with
    | true => simp [h _ ha]
    | false => simp
  rwa [hleft, hright] at hparts

/-- Different domains that are searched one after the other are searched together. -/
theorem flatMap_holding_perm (phrase : Phrase) (A : Domain → Bool) (live : List Placement) {domains : List Domain}
    (hd : domains.Nodup) :
    (domains.flatMap fun d => holding phrase (fun domain => domain == d && A domain) live).Perm
      (holding phrase (fun domain => domains.contains domain && A domain) live) := by
  induction domains with
  | nil => simp [holding]
  | cons d domains ih =>
    obtain ⟨hnew, hrest⟩ := List.nodup_cons.1 hd
    rw [List.flatMap_cons]
    refine ((ih hrest).append_left _).trans ((holding_append_perm ?_).trans (.of_eq (holding_congr ?_)))
    · intro domain hdomain
      rw [Bool.and_eq_true, beq_iff_eq] at hdomain
      simp [hdomain.1, hnew]
    · intro domain
      rw [List.contains_cons, Bool.and_or_distrib_right]

end Domains

/-! ## Groups that are gone through with a budget -/

namespace Budget

variable {α β : Type} {b : Budget} {part group : List α} {parts groups more others : List (List α)}

/-- From each group in turn some are picked, as many as the budget still allows. -/
inductive Rationed : Budget → List (List α) → List (List α) → Prop
  | nil (b : Budget) : Rationed b [] []
  | cons {b : Budget} {part group : List α} {parts groups : List (List α)} : part.Subperm group →
      part.length = b.share group.length → Rationed (b.spend part.length) parts groups →
      Rationed b (part :: parts) (group :: groups)

theorem spend_spend (b : Budget) (m n : Nat) : (b.spend m).spend n = b.spend (m + n) := by
  cases b with
  | none => rfl
  | some left => exact congrArg some (Nat.sub_sub left m n)

theorem spend_zero (b : Budget) : b.spend 0 = b := by
  cases b <;> rfl

theorem Rationed.append (h : b.Rationed parts groups) (h' : (b.spend parts.flatten.length).Rationed more others) :
    b.Rationed (parts ++ more) (groups ++ others) := by
  induction h with
  | nil b => rwa [List.flatten_nil, List.length_nil, spend_zero] at h'
  | cons hpart hlength _ ih =>
    rw [List.flatten_cons, List.length_append, ← spend_spend] at h'
    exact .cons hpart hlength (ih h')

/-- With nothing left nothing is picked. -/
theorem rationed_of_isSpent (h : b.isSpent = true) (groups : List (List α)) :
    b.Rationed (groups.map fun _ => []) groups := by
  induction groups with
  | nil => exact .nil b
  | cons group groups ih =>
    refine .cons (List.nil_subperm) ?_ ?_
    · rw [share_of_isSpent h, List.length_nil]
    · rwa [List.length_nil, spend_zero]

theorem flatten_map_nil (groups : List (List α)) : (groups.map fun _ => ([] : List β)).flatten = [] := by
  rw [List.flatten_eq_nil_iff]
  intro part hpart
  obtain ⟨group, -, rfl⟩ := List.mem_map.1 hpart
  rfl

/-- Without a limit everything is picked. -/
theorem Rationed.perm (h : Rationed none parts groups) : parts.flatten.Perm groups.flatten := by
  generalize hb : (none : Budget) = b at h
  induction h with
  | nil b => exact .refl _
  | cons hpart hlength _ ih =>
    subst hb
    rw [List.flatten_cons, List.flatten_cons]
    exact (hpart.perm_of_length_le hlength.ge).append (ih rfl)

end Budget

namespace Sampler

/-! ## A sampler -/

variable {s : Store} {corpus : Corpus} {disk : Disk} {live all : List Placement} {deleted : DomainSet}
  {limit : PrefixLength} {w : Sampler}

/-- The sampler of a context when these domains have markers, with the phrase that has been accumulated. -/
def started (limit : PrefixLength) (context : Context) (background : Bool) (deleted : DomainSet) (phrase : Phrase) :
    Sampler where
  prefixLength := limit
  context := context.searchOrder.filter fun domain => !deleted.contains domain
  hasContext := !context.isEmpty
  background
  deleted
  phrase

/-- A new sampler leaves out the domains that have markers. -/
theorem create_eq (h : s.Reflects limit live all deleted) (context : Context) (background : Bool) :
    create s limit context background = .ok (started limit context background deleted []) := by
  rw [create, h.markedDomains, started, ← context.isEmpty_searchOrder]
  rfl

/-- A sampler looks at no domain of its context twice. -/
theorem nodup_create {context : Context} {background : Bool} (h : create s limit context background = .ok w) :
    w.context.Nodup := by
  obtain ⟨deleted, -, hw⟩ := bind_eq_ok_iff.1 h
  cases hw
  exact context.nodup_searchOrder.filter _

section Started

variable (limit : PrefixLength) (context : Context) (background : Bool) (deleted : DomainSet) (phrase : Phrase)

theorem nodup_started : (started limit context background deleted phrase).context.Nodup :=
  context.nodup_searchOrder.filter _

/-- It looks at the searched domains without markers, as one of its context or as another one. -/
theorem searches_started (domain : Domain) :
    (((started limit context background deleted phrase).context.contains domain ||
        (started limit context background deleted phrase).widens) && !deleted.contains domain) =
      (context.searches background domain && !deleted.contains domain) := by
  cases hdeleted : deleted.contains domain with
  | true => simp
  | false =>
    have hnamed : (started limit context background deleted phrase).context.contains domain =
        context.any (·.domain == domain) := by
      rw [Bool.eq_iff_iff, List.contains_iff_mem, started, List.mem_filter, Context.mem_searchOrder, hdeleted]
      simp
    have hwidens : (started limit context background deleted phrase).widens = (background || context.isEmpty) := by
      simp [widens, started]
    rw [hnamed, hwidens, Context.searches, Bool.or_assoc]

end Started

/-- What is done with a sampler while the index stays as it is. -/
inductive Call
  | extend (shuffle : Shuffle) (phrase : Phrase) (limit : Nat)
  | reset

def call (s : Store) (corpus : Corpus) (disk : Disk) (w : Sampler) : Call → Sampler
  | .extend shuffle phrase limit => (w.extend s corpus disk shuffle phrase limit).2
  | .reset => w.reset

/-- The phrase after a call. -/
def Call.adds (phrase : Phrase) : Call → Phrase
  | .extend _ more _ => phrase ++ more
  | .reset => []

/-- The phrase that has been accumulated since the last reset. -/
def accumulated (calls : List Call) : Phrase := calls.foldl Call.adds []

/-- Calls change the phrase only. -/
theorem foldl_call (w : Sampler) (calls : List Call) :
    calls.foldl (call s corpus disk) w = { w with phrase := calls.foldl Call.adds w.phrase } := by
  induction calls generalizing w with
  | nil => rfl
  | cons c calls ih =>
    rw [List.foldl_cons, List.foldl_cons, ih]
    cases c <;> rfl

/-- The domains of each search, in the order of the searches. -/
def targets (w : Sampler) : List (Domain → Bool) :=
  (w.context.map fun d domain => domain == d && !w.deleted.contains domain) ++
    if w.widens then [fun domain => !w.context.contains domain && !w.deleted.contains domain] else []

/-- The searches go to different domains, and together to all that are searched. -/
theorem flatten_targets_perm (hcontext : w.context.Nodup) (phrase : Phrase) (live : List Placement) :
    (w.targets.map fun domains => holding phrase domains live).flatten.Perm (holding phrase
      (fun domain => (w.context.contains domain || w.widens) && !w.deleted.contains domain) live) := by
  have hparts := flatMap_holding_perm phrase (fun domain => !w.deleted.contains domain) live hcontext
  rw [targets, List.map_append, List.map_map, List.flatten_append, ← List.flatMap_def]
  cases w.widens with
  | false => simpa [Function.comp_def] using hparts
  | true =>
    rw [if_pos rfl, List.map_singleton, List.flatten_singleton]
    refine (hparts.append_right _).trans ((holding_append_perm ?_).trans (.of_eq (holding_congr ?_)))
    · intro domain hdomain
      rw [Bool.and_eq_true] at hdomain
      rw [hdomain.1, Bool.not_true, Bool.false_and]
    · intro domain
      cases w.context.contains domain <;> cases w.deleted.contains domain <;> rfl

section Searching

variable (h : s.Reflects w.prefixLength live all deleted) (hlimit : w.prefixLength ≠ 0) (hphrase : w.phrase ≠ [])
  (hlengths : ∀ x ∈ live, x.1.source.length ≤ Model.sentenceLimit) (hordered : live.Pairwise fun x y => x.2 < y.2)
  (hstored : ∀ x ∈ live, corpus.retrieve disk x.2 = .ok x.1)

include h hlimit hphrase hlengths hordered hstored

theorem searchDomains_eq (shuffle : Shuffle) (budget : Budget) (domains : List Domain) :
    ∃ picks : List (List Placement), w.searchDomains s corpus disk shuffle budget domains =
        .ok (picks.flatten.map fun x => .whole w.phrase x.1) ∧
      budget.Rationed picks
        (domains.map fun d => holding w.phrase (fun domain => domain == d && !w.deleted.contains domain) live) := by
  induction domains generalizing budget with
  | nil => exact ⟨[], rfl, .nil budget⟩
  | cons d domains ih =>
    cases hspent : budget.isSpent with
    | true =>
      refine ⟨_, ?_, Budget.rationed_of_isSpent hspent _⟩
      rw [searchDomains, hspent, if_pos rfl, Budget.flatten_map_nil]
      rfl
    | false =>
      have haccepts : w.accepts (some d) (fun _ => true) = fun domain => domain == d && !w.deleted.contains domain := by
        funext domain
        simp [accepts, Bool.beq_comm]
      obtain ⟨picked, hsearch, hsub, hlength⟩ :=
        search_eq h hlimit hphrase hlengths hordered hstored shuffle budget (some d) fun _ => true
      obtain ⟨picks, hrest, hrationed⟩ := ih (budget.spend picked.length)
      rw [haccepts] at hsub hlength
      refine ⟨picked :: picks, ?_, .cons hsub hlength hrationed⟩
      rw [searchDomains, hspent, if_neg Bool.false_ne_true, hsearch]
      simp only [bind, Except.bind, List.length_map]
      rw [hrest, List.flatten_cons, List.map_append]
      rfl

/-- The searches are made in order while the budget lasts. -/
theorem samples_eq (shuffle : Shuffle) (budget : Budget) :
    ∃ picks : List (List Placement), w.samples s corpus disk shuffle budget =
        .ok (picks.flatten.map fun x => .whole w.phrase x.1) ∧
      budget.Rationed picks (w.targets.map fun domains => holding w.phrase domains live) := by
  have hempty : w.phrase.isEmpty = false := by rwa [Bool.eq_false_iff, ne_eq, List.isEmpty_iff]
  obtain ⟨picks, hfirst, hrationed⟩ :=
    searchDomains_eq h hlimit hphrase hlengths hordered hstored shuffle budget w.context
  have haccepts : w.accepts none (fun domain => !w.context.contains domain) =
      fun domain => !w.context.contains domain && !w.deleted.contains domain := by
    funext domain
    simp only [accepts, Option.all_none]
    cases w.context.contains domain <;> cases w.deleted.contains domain <;> rfl
  rw [targets, List.map_append, List.map_map]
  cases hw : w.widens with
  | false =>
    refine ⟨picks, ?_, by simpa [Function.comp_def] using hrationed⟩
    simp only [samples, hempty, hfirst, hw, Bool.false_and, Bool.false_eq_true, ↓reduceIte, bind, Except.bind]
    rfl
  | true =>
    rw [if_pos rfl, List.map_singleton]
    cases hspent : (budget.spend picks.flatten.length).isSpent with
    | true =>
      refine ⟨picks ++ [[]], ?_, hrationed.append (Budget.rationed_of_isSpent hspent [_])⟩
      simp only [samples, hempty, hfirst, hw, List.length_map, hspent, Bool.not_true, Bool.and_false,
        Bool.false_eq_true, ↓reduceIte, bind, Except.bind]
      rw [List.flatten_concat, List.append_nil]
      rfl
    | false =>
      obtain ⟨others, hothers, hsub, hlength⟩ := search_eq h hlimit hphrase hlengths hordered hstored shuffle
        (budget.spend picks.flatten.length) none fun domain => !w.context.contains domain
      rw [haccepts] at hsub hlength
      refine ⟨picks ++ [others], ?_, hrationed.append (.cons hsub hlength (.nil _))⟩
      simp only [samples, hempty, hfirst, hw, List.length_map, hspent, hothers, Bool.not_false, Bool.and_self,
        Bool.false_eq_true, ↓reduceIte, bind, Except.bind]
      rw [List.flatten_concat, List.map_append]
      rfl

/-- Without a limit the samples are those of all domains that are searched. -/
theorem samples_perm (hcontext : w.context.Nodup) (shuffle : Shuffle) : ∃ samples,
    w.samples s corpus disk shuffle none = .ok samples ∧ samples.Perm (samplesOf w.phrase
      (fun domain => (w.context.contains domain || w.widens) && !w.deleted.contains domain) live) := by
  obtain ⟨picks, hsamples, hrationed⟩ := samples_eq h hlimit hphrase hlengths hordered hstored shuffle none
  exact ⟨_, hsamples, (hrationed.perm.trans (flatten_targets_perm hcontext w.phrase live)).map _⟩

end Searching

end Sampler

/-! ## Samples of an index -/

namespace History

/-- After every history that is mended, whatever was asked before, a sampler of any context answers exactly the live
sentence pairs that hold the accumulated phrase in a domain that is searched and has no marker: one sample for each of
them, with all positions. -/
theorem sampled_after (disk : Disk) (path : Path) (events : List Event) (m : Model) (context : Context)
    (background : Bool) (calls : List Sampler.Call) (shuffle : Shuffle) (phrase : Phrase)
    (hfresh : Corpus.Unused disk (Model.storagePath path))
    (hfit : ∀ before, before <+: events → (after disk path before).disk.Fits) (hmended : Mended disk path events)
    (hm : (after disk path events).run.session.model = some m) (hphrase : Sampler.accumulated calls ++ phrase ≠ []) :
    let h := after disk path events
    let s := h.run.session.durable.store
    let whole := Sampler.accumulated calls ++ phrase
    ∃ w samples, m.sampler s context background = .ok w ∧
      ((calls.foldl (Sampler.call s m.corpus h.disk) w).extend s m.corpus h.disk shuffle phrase 0).1 = .ok samples ∧
      samples.Perm (samplesOf whole (fun domain => context.searches background domain &&
        !(s.get? (Sweeper.marker domain)).isSome) h.run.ledger.live) ∧
      ∀ sample ∈ samples, sample.offsets.map (·.toNat) = sample.pair.source.occurrences whole ∧
        sample.offsets.Pairwise (· < ·) := by
  intro h s whole
  obtain ⟨hr, hlimit, hlengths, hordered, hstored⟩ := (coherent_after hfresh events hfit hmended).searchable hm
  -- All calls before have only made up the phrase.
  obtain ⟨samples, hsamples, hperm⟩ := Sampler.samples_perm
    (w := Sampler.started m.config.prefixLength context background h.run.ledger.deleted whole)
    hr hlimit hphrase hlengths hordered hstored (Sampler.nodup_started _ context background _ whole) shuffle
  refine ⟨_, samples, Sampler.create_eq hr context background, ?_, ?_, ?_⟩
  · rw [Sampler.foldl_call]
    exact hsamples
  · refine hperm.trans (.of_eq (samplesOf_congr fun domain => ?_))
    have hmarked : (s.get? (Sweeper.marker domain)).isSome = h.run.ledger.deleted.contains domain := by
      rw [Bool.eq_iff_iff, hr.marked, Std.ExtTreeSet.mem_iff_contains]
    rw [hmarked]
    exact Sampler.searches_started _ context background _ whole domain
  · intro sample hsample
    obtain ⟨x, hx, rfl⟩ := List.mem_map.1 (hperm.subset hsample)
    have hlength := hlengths x (mem_holding.1 hx).1
    exact ⟨map_toNat_positions hlength, positions_pairwise hlength⟩

/-! ### Searches -/

/-- A sentence in which the phrase of five words overlaps itself. -/
def overlapping : SentencePair := ⟨1, [5, 9, 5, 9, 5, 9, 5], [2], []⟩

/-- A batch is refused within a record, and the index is opened again. Then two sentences hold the phrase, one of them
in a domain that is deleted later; a third one holds its four leading words. -/
def markedDomain : List Event :=
  [.operation (.openAt {}), .operation (.refuse (Run.sevens 4 ∅) 0 (some 5)), .operation (.openAt {}),
    .operation (.put { capacity := 0, streams := .empty
                       entries := [overlapping, ⟨2, [5, 9, 5, 9, 5], [2], []⟩, ⟨3, [5, 9, 5, 9, 6], [2], []⟩] } 0),
    .operation (.put { capacity := 0, streams := .empty, deletions := {2} } 0)]

/-- The phrase is given in two pieces after another one that is forgotten. -/
def pieces : List Sampler.Call := [.extend .none [7] 1, .reset, .extend .none [5, 9] 1]

theorem sampled_after_markedDomain :
    ∃ m w, (after Run.emptyDisk Run.modelPath markedDomain).run.session.model = some m ∧
    m.sampler (after Run.emptyDisk Run.modelPath markedDomain).run.session.durable.store [⟨3, ⟨0⟩⟩] true = .ok w ∧
    ((pieces.foldl (Sampler.call (after Run.emptyDisk Run.modelPath markedDomain).run.session.durable.store m.corpus
        (after Run.emptyDisk Run.modelPath markedDomain).disk) w).extend
      (after Run.emptyDisk Run.modelPath markedDomain).run.session.durable.store m.corpus
      (after Run.emptyDisk Run.modelPath markedDomain).disk .none [5, 9, 5] 0).1 = .ok [⟨overlapping, [0, 2]⟩] := by
  obtain ⟨m, hm⟩ : ∃ m, (after Run.emptyDisk Run.modelPath markedDomain).run.session.model = some m :=
    Option.isSome_iff_exists.1 (by decide +kernel)
  have hfit : ∀ before ∈ markedDomain.inits, (after Run.emptyDisk Run.modelPath before).disk.Fits := by
    decide +kernel
  have hexpected : samplesOf (Sampler.accumulated pieces ++ [5, 9, 5])
      (fun domain => Context.searches [⟨3, ⟨0⟩⟩] true domain &&
        !((after Run.emptyDisk Run.modelPath markedDomain).run.session.durable.store.get?
          (Sweeper.marker domain)).isSome)
      (after Run.emptyDisk Run.modelPath markedDomain).run.ledger.live = [⟨overlapping, [0, 2]⟩] := by
    decide +kernel
  obtain ⟨w, samples, hw, hsamples, hperm, -⟩ :=
    sampled_after Run.emptyDisk Run.modelPath markedDomain m [⟨3, ⟨0⟩⟩] true
    pieces .none [5, 9, 5] unused_emptyDisk (fun before hb => hfit before ((List.mem_inits _ _).2 hb))
    (by decide +kernel) hm
    (by decide)
  rw [hexpected, List.perm_singleton] at hperm
  rw [hperm] at hsamples
  exact ⟨m, w, hm, hw, hsamples⟩

/-- What a sampler of the context answers after a history, if the index is open. -/
def sampled (h : History) (context : Context) (background : Bool) (phrase : Phrase) (limit : Nat) :
    Option (Except Error (List Sample)) := do
  let m ← h.run.session.model
  let w ← (m.sampler h.run.session.durable.store context background).toOption
  pure (w.extend h.run.session.durable.store m.corpus h.disk .none phrase limit).1

theorem exists_error_of_sampled {h : History} {context : Context} {background : Bool} {phrase : Phrase} {limit : Nat}
    (hs : (h.sampled context background phrase limit).map (·.isOk) = some false) : ∃ m w e,
      h.run.session.model = some m ∧ m.sampler h.run.session.durable.store context background = .ok w ∧
        (w.extend h.run.session.durable.store m.corpus h.disk .none phrase limit).1 = .error e := by
  obtain ⟨r, hs, hfails⟩ := Option.map_eq_some_iff.1 hs
  obtain ⟨m, hm, hs⟩ := Option.bind_eq_some_iff.1 hs
  obtain ⟨w, hw, hs⟩ := Option.bind_eq_some_iff.1 hs
  cases hs
  obtain ⟨e, he⟩ := exists_error_of_isOk hfails
  exact ⟨m, w, e, hm, toOption_eq_some_iff.1 hw, he⟩

/-- A sentence is refused after one byte, and the next one goes to the corpus that is still open. -/
def refusedWithin : List Event := Run.refusedWithin.map .operation

/-- The second of the live sentence pairs that hold the phrase cannot be read. -/
theorem unsampled_refusedWithin : ∃ m w e,
    (after Run.emptyDisk Run.modelPath refusedWithin).run.session.model = some m ∧
    m.sampler (after Run.emptyDisk Run.modelPath refusedWithin).run.session.durable.store [] true = .ok w ∧
    (w.extend (after Run.emptyDisk Run.modelPath refusedWithin).run.session.durable.store m.corpus
      (after Run.emptyDisk Run.modelPath refusedWithin).disk .none [7, 7] 0).1 = .error e :=
  exists_error_of_sampled (by decide +kernel)

end History

end PhraseIndex
