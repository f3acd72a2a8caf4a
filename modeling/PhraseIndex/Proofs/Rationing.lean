import PhraseIndex.Proofs.Sampling

/-!
# Sampling with a limit

A context is searched by falling score, and of a domain that it names several times the highest score counts
(`Context.Ranked`). That order depends only on which entries there are (`Context.Ranked.unique`). The domains are gone
through with a budget: each one gives as many of its samples as the budget still allows, whatever the shuffle picks
(`History.rationed_after`).
-/

namespace PhraseIndex

/-! ## The order of a context -/

namespace Context

variable {c c' best best' kept : Context} {a b e : ContextScore}

/-- The entries of a context that count, in the order in which their domains are searched. -/
structure Ranked (c best : Context) : Prop where
  /-- Of each domain the entry with the highest score. -/
  entries : ∀ e, e ∈ best ↔ e ∈ c ∧ ∀ other ∈ c, other.domain = e.domain → other.score.rank ≤ e.score.rank
  order : best.Pairwise fun a b => b.score.rank < a.score.rank ∨ a.score = b.score ∧ a.domain < b.domain

/-- Only the entries of a context matter, not their order or repetition. -/
theorem Ranked.congr (h : c.Ranked best) (hc : ∀ e, e ∈ c' ↔ e ∈ c) : c'.Ranked best where
  entries e := by simp only [h.entries, hc]
  order := h.order

/-- A context is ranked in one way. -/
theorem Ranked.unique (h : c.Ranked best) (h' : c.Ranked best') : best = best' := by
  have hne : ∀ {a b : ContextScore},
      (b.score.rank < a.score.rank ∨ a.score = b.score ∧ a.domain < b.domain) → a ≠ b := by
    rintro a b (hlt | ⟨-, hlt⟩) rfl
    · exact Int.lt_irrefl _ hlt
    · exact UInt32.lt_irrefl _ hlt
  have hperm : best.Perm best' := by
    rw [List.perm_ext_iff_of_nodup (h.order.imp hne) (h'.order.imp hne)]
    intro e
    rw [h.entries, h'.entries]
  refine hperm.eq_of_pairwise ?_ h.order h'.order
  rintro a b - - (hab | ⟨hscore, hab⟩) (hba | ⟨hscore', hba⟩)
  · omega
  · rw [hscore'] at hab
    exact absurd hab (Int.lt_irrefl _)
  · rw [hscore] at hba
    exact absurd hba (Int.lt_irrefl _)
  · exact absurd (UInt32.lt_trans hab hba) (UInt32.lt_irrefl _)

theorem precedes_iff : precedes a b = true ↔
    b.score.rank < a.score.rank ∨ a.score = b.score ∧ a.domain ≤ b.domain := by
  simp [precedes]

theorem precedes_trans (a b c : ContextScore) (hab : precedes a b = true) (hbc : precedes b c = true) :
    precedes a c = true := by
  rw [precedes_iff] at hab hbc ⊢
  rcases hab with hab | ⟨hscore, hab⟩
  · rcases hbc with hbc | ⟨hscore', -⟩
    · exact .inl (Int.lt_trans hbc hab)
    · exact .inl (by rwa [← hscore'])
  · rcases hbc with hbc | ⟨hscore', hbc⟩
    · exact .inl (by rwa [hscore])
    · exact .inr ⟨hscore.trans hscore', UInt32.le_trans hab hbc⟩

theorem precedes_total (a b : ContextScore) : (precedes a b || precedes b a) = true := by
  rw [Bool.or_eq_true, precedes_iff, precedes_iff]
  rcases Int.lt_trichotomy a.score.rank b.score.rank with hlt | heq | hgt
  · exact .inr (.inl hlt)
  · have hscore := Score.rank_inj heq
    exact (UInt32.le_total a.domain b.domain).imp (fun hle => .inr ⟨hscore, hle⟩) fun hle => .inr ⟨hscore.symm, hle⟩
  · exact .inl (.inl hgt)

/-- What precedes has no lower score. -/
theorem rank_le_of_precedes (h : precedes a b = true) : b.score.rank ≤ a.score.rank := by
  rcases precedes_iff.1 h with hlt | ⟨hscore, -⟩
  · exact Int.le_of_lt hlt
  · rw [hscore]

theorem sorted_mergeSort (c : Context) : (c.mergeSort precedes).Pairwise fun a b => precedes a b = true :=
  List.pairwise_mergeSort precedes_trans precedes_total c

/-! ### The first entry of each domain -/

theorem foldl_addFirst_sublist (c kept : Context) : (c.foldl addFirst kept).Sublist (kept ++ c) := by
  induction c generalizing kept with
  | nil => rw [List.append_nil]; exact List.Sublist.refl _
  | cons e c ih =>
    rw [List.foldl_cons]
    refine (ih _).trans ?_
    unfold addFirst
    split
    · exact (List.sublist_cons_self e c).append_left kept
    · rw [List.append_assoc]
      exact List.Sublist.refl _

/-- Entries that were added had no entry of their domain before them. -/
theorem first_of_mem_foldl (h : e ∈ c.foldl addFirst kept) : e ∈ kept ∨
    e.domain ∉ kept.map (·.domain) ∧ ∃ pre post, c = pre ++ e :: post ∧ e.domain ∉ pre.map (·.domain) := by
  induction c generalizing kept with
  | nil => exact .inl h
  | cons x c ih =>
    rw [List.foldl_cons] at h
    rcases ih h with hkept | ⟨hnew, pre, post, rfl, hpre⟩
    · unfold addFirst at hkept
      split at hkept
      · exact .inl hkept
      · next hx =>
        rcases List.mem_append.1 hkept with hold | hlast
        · exact .inl hold
        · obtain rfl := List.mem_singleton.1 hlast
          exact .inr ⟨by simpa using hx, [], c, rfl, List.not_mem_nil⟩
    · rw [mem_addFirst, not_or] at hnew
      refine .inr ⟨hnew.1, x :: pre, post, rfl, ?_⟩
      rw [List.map_cons, List.mem_cons, not_or]
      exact ⟨hnew.2, hpre⟩

/-- The search order is that of the ranked entries. -/
theorem ranked_firsts (c : Context) : c.Ranked (firsts (c.mergeSort precedes)) := by
  have hsorted := sorted_mergeSort c
  have hsub : (firsts (c.mergeSort precedes)).Sublist (c.mergeSort precedes) := foldl_addFirst_sublist _ []
  -- The first entry of a domain in the sorted list has its highest score.
  have hbest : ∀ e ∈ firsts (c.mergeSort precedes), ∀ other ∈ c, other.domain = e.domain →
      other.score.rank ≤ e.score.rank := by
    intro e he other hother hdomain
    rcases first_of_mem_foldl he with hnil | ⟨-, pre, post, hsplit, hpre⟩
    · exact absurd hnil List.not_mem_nil
    · rw [← (List.mergeSort_perm _ precedes).mem_iff, hsplit, List.mem_append, List.mem_cons] at hother
      rw [hsplit, List.pairwise_append, List.pairwise_cons] at hsorted
      rcases hother with hother | rfl | hother
      · exact absurd (List.mem_map.2 ⟨other, hother, hdomain⟩) hpre
      · exact Int.le_refl _
      · exact rank_le_of_precedes (hsorted.2.1.1 other hother)
  constructor
  case entries =>
    intro e
    constructor
    · intro he
      exact ⟨List.mem_mergeSort.1 (hsub.subset he), hbest e he⟩
    · rintro ⟨he, hmax⟩
      have hdomain : e.domain ∈ (firsts (c.mergeSort precedes)).map (·.domain) :=
        mem_firsts.2 (List.mem_map_of_mem (List.mem_mergeSort.2 he))
      obtain ⟨first, hfirst, hsame⟩ := List.mem_map.1 hdomain
      have hle := hbest first hfirst e he hsame.symm
      have hge := hmax first (List.mem_mergeSort.1 (hsub.subset hfirst)) hsame
      have hscore := Score.rank_inj (Int.le_antisymm hge hle)
      obtain ⟨domain, score⟩ := first
      obtain ⟨domain', score'⟩ := e
      cases hsame
      cases hscore
      exact hfirst
  case order =>
    have hdomains := List.pairwise_map.1 (nodup_firsts (c.mergeSort precedes))
    refine ((hsorted.sublist hsub).and hdomains).imp ?_
    rintro a b ⟨hab, hne⟩
    refine (precedes_iff.1 hab).imp_right fun ⟨hscore, hle⟩ => ⟨hscore, ?_⟩
    exact UInt32.lt_of_le_of_ne hle hne

/-- Contexts with the same entries are searched in the same order. -/
theorem searchOrder_congr (h : ∀ e, e ∈ c' ↔ e ∈ c) : c'.searchOrder = c.searchOrder := by
  rw [searchOrder, searchOrder, (ranked_firsts c').unique ((ranked_firsts c).congr h)]

end Context

/-! ## Rations -/

namespace Budget

variable {α β : Type} {b : Budget} {parts groups groups' : List (List α)}

theorem subperm_map (f : α → β) {picked group : List α} (h : picked.Subperm group) :
    (picked.map f).Subperm (group.map f) := by
  obtain ⟨some, hperm, hsub⟩ := h
  exact ⟨some.map f, hperm.map f, hsub.map f⟩

theorem Rationed.map (f : α → β) (h : b.Rationed parts groups) :
    b.Rationed (parts.map (List.map f)) (groups.map (List.map f)) := by
  induction h with
  | nil b => exact .nil b
  | cons hpart hlength _ ih =>
    refine .cons (subperm_map f hpart) ?_ ?_
    · rw [List.length_map, List.length_map, hlength]
    · rwa [List.length_map]

/-- The order within the groups does not matter. -/
theorem Rationed.congr (h : b.Rationed parts groups) (hg : List.Forall₂ List.Perm groups groups') :
    b.Rationed parts groups' := by
  induction h generalizing groups' with
  | nil b =>
    cases hg
    exact .nil b
  | cons hpart hlength _ ih =>
    cases hg with
    | cons hperm hrest => exact .cons (hpart.trans hperm.subperm) (hlength.trans (by rw [hperm.length_eq])) (ih hrest)

theorem Rationed.subperm (h : b.Rationed parts groups) : parts.flatten.Subperm groups.flatten := by
  induction h with
  | nil b => exact List.Subperm.refl _
  | cons hpart _ _ ih =>
    rw [List.flatten_cons, List.flatten_cons]
    exact hpart.append ih

end Budget

namespace Sampler

variable {w : Sampler} {live : List Placement} {phrase : Phrase} {all : List Sample}

/-- A sampler knows no more of its context than the set of its entries. -/
theorem started_congr {context other : Context} (h : ∀ e, e ∈ other ↔ e ∈ context) (limit : PrefixLength)
    (background : Bool) (deleted : DomainSet) (phrase : Phrase) :
    started limit other background deleted phrase = started limit context background deleted phrase := by
  have hempty : other.isEmpty = context.isEmpty := by
    rw [Bool.eq_iff_iff, List.isEmpty_iff, List.isEmpty_iff, List.eq_nil_iff_forall_not_mem,
      List.eq_nil_iff_forall_not_mem]
    simp only [h]
  rw [started, started, Context.searchOrder_congr h, hempty]

/-- The samples of a search among all. -/
theorem filter_samplesOf (phrase : Phrase) (A p : Domain → Bool) (live : List Placement) :
    (samplesOf phrase A live).filter (fun x => p x.pair.domain) =
      samplesOf phrase (fun domain => A domain && p domain) live := by
  rw [samplesOf, samplesOf, List.filter_map, holding, holding, List.filter_filter]
  refine congrArg _ (List.filter_congr fun x _ => ?_)
  rw [Function.comp_apply, ← Bool.and_assoc, Bool.and_comm (p _)]
  rfl

/-- The samples of each domain of the context, then those of all other domains if the search is widened. -/
def groupsOf (domains : List Domain) (widens : Bool) (all : List Sample) : List (List Sample) :=
  (domains.map fun d => all.filter (·.pair.domain == d)) ++
    if widens then [all.filter fun x => !domains.contains x.pair.domain] else []

/-- Each search finds the samples of its domains. -/
theorem targets_perm_groupsOf (hall : all.Perm (samplesOf phrase
      (fun domain => (w.context.contains domain || w.widens) && !w.deleted.contains domain) live)) :
    List.Forall₂ List.Perm (w.targets.map fun domains => samplesOf phrase domains live)
      (groupsOf w.context w.widens all) := by
  have hfilter : ∀ p T : Domain → Bool,
      (∀ domain, ((w.context.contains domain || w.widens) && !w.deleted.contains domain && p domain) = T domain) →
      (samplesOf phrase T live).Perm (all.filter fun x => p x.pair.domain) := by
    intro p T hT
    rw [← samplesOf_congr hT, ← filter_samplesOf]
    exact (hall.filter _).symm
  rw [targets, groupsOf, List.map_append, List.map_map]
  refine List.rel_append ?_ ?_
  · rw [List.forall₂_map_left_iff, List.forall₂_map_right_iff, List.forall₂_same]
    intro d hd
    refine hfilter (· == d) _ fun domain => ?_
    by_cases hdomain : domain = d
    · simp [hdomain, hd]
    · have hne : (domain == d) = false := beq_eq_false_iff_ne.2 hdomain
      simp only [hne, Bool.and_false, Bool.false_and]
  · cases hw : w.widens with
    | false => exact .nil
    | true =>
      refine .cons (hfilter (fun domain => !w.context.contains domain) _ fun domain => ?_) .nil
      rw [hw]
      cases w.context.contains domain <;> simp

end Sampler

namespace History

variable {h : History} {path : Path} {m : Model}

/-- After every history that is mended, whatever was asked before, a sampler of any context answers up to a limit as
follows, whatever the shuffle picks. The domains of the context without a marker are taken by falling score, of equal
scores the smaller one first, each with its highest score; then come all others together, if the search is widened. From
each in turn come as many samples of an unlimited search as the limit still allows, all of different live sentence
pairs. The order in which the context names its entries does not matter, nor does repetition. -/
theorem rationed_after (disk : Disk) (path : Path) (events : List Event) (m : Model) (context : Context)
    (background : Bool) (calls : List Sampler.Call) (shuffle : Shuffle) (phrase : Phrase) (limit : Nat)
    (hfresh : Corpus.Unused disk (Model.storagePath path))
    (hfit : ∀ before, before <+: events → (after disk path before).disk.Fits) (hmended : Mended disk path events)
    (hm : (after disk path events).run.session.model = some m) (hphrase : Sampler.accumulated calls ++ phrase ≠ [])
    (hlimit : 0 < limit) :
    let h := after disk path events
    let s := h.run.session.durable.store
    let whole := Sampler.accumulated calls ++ phrase
    ∃ (w : Sampler) (best : Context) (all samples : List Sample) (chosen : List Placement) (parts : List (List Sample)),
      m.sampler s context background = .ok w ∧
      (∀ other : Context, (∀ e, e ∈ other ↔ e ∈ context) → m.sampler s other background = .ok w) ∧
      context.Ranked best ∧
      ((calls.foldl (Sampler.call s m.corpus h.disk) w).extend s m.corpus h.disk shuffle phrase 0).1 = .ok all ∧
      ((calls.foldl (Sampler.call s m.corpus h.disk) w).extend s m.corpus h.disk shuffle phrase limit).1 = .ok samples ∧
      samples = parts.flatten ∧
      Budget.Rationed (some limit) parts (Sampler.groupsOf
        ((best.map (·.domain)).filter fun domain => !(s.get? (Sweeper.marker domain)).isSome)
        (background || context.isEmpty) all) ∧
      samples.Subperm all ∧
      chosen.Nodup ∧ (∀ x ∈ chosen, x ∈ h.run.ledger.live) ∧ samples = chosen.map fun x => .whole whole x.1 := by
  intro h s whole
  obtain ⟨hr, hpositive, hlengths, hordered, hstored⟩ := (coherent_after hfresh events hfit hmended).searchable hm
  let w := Sampler.started m.config.prefixLength context background h.run.ledger.deleted whole
  have hcontext : w.context.Nodup := Sampler.nodup_started _ context background _ whole
  obtain ⟨all, hall, hallPerm⟩ :=
    Sampler.samples_perm (w := w) hr hpositive hphrase hlengths hordered hstored hcontext shuffle
  obtain ⟨picks, hpicks, hrationed⟩ :=
    Sampler.samples_eq (w := w) hr hpositive hphrase hlengths hordered hstored shuffle (some limit)
  have hbudget : Budget.ofLimit limit = some limit := if_neg (by simpa using Nat.ne_of_gt hlimit)
  -- The searches go to different live sentence pairs.
  have hchosen : picks.flatten.Subperm (holding whole
      (fun domain => (w.context.contains domain || w.widens) && !w.deleted.contains domain) h.run.ledger.live) :=
    hrationed.subperm.trans (Sampler.flatten_targets_perm hcontext whole _).subperm
  have hlive : h.run.ledger.live.Nodup := by
    refine hordered.imp ?_
    rintro x y hlt rfl
    exact Int64.lt_irrefl hlt
  refine ⟨Sampler.started m.config.prefixLength context background h.run.ledger.deleted [],
    Context.firsts (context.mergeSort Context.precedes), all, picks.flatten.map fun x => .whole whole x.1,
    picks.flatten, picks.map (List.map fun x => .whole whole x.1), Sampler.create_eq hr context background, ?_,
    Context.ranked_firsts context, ?_, ?_, List.map_flatten, ?_, ?_, ?_, ?_, rfl⟩
  · intro other hother
    rw [← Sampler.started_congr hother]
    exact Sampler.create_eq hr other background
  · rw [Sampler.foldl_call]
    exact hall
  · rw [Sampler.foldl_call, Sampler.extend, hbudget]
    exact hpicks
  · have hmarked : (fun domain => !(s.get? (Sweeper.marker domain)).isSome) =
        fun domain => !h.run.ledger.deleted.contains domain := by
      funext domain
      congr 1
      rw [Bool.eq_iff_iff, hr.marked, Std.ExtTreeSet.mem_iff_contains]
    have hwidens : (background || context.isEmpty) = w.widens := by simp [w, Sampler.widens, Sampler.started]
    rw [hmarked, hwidens]
    have hgroups := hrationed.map fun x : Placement => Sample.whole whole x.1
    rw [List.map_map] at hgroups
    exact hgroups.congr (Sampler.targets_perm_groupsOf hallPerm)
  · exact (Budget.subperm_map _ hchosen).trans hallPerm.symm.subperm
  · obtain ⟨picked, hperm, hsub⟩ := hchosen
    exact hperm.nodup_iff.1 ((hlive.sublist List.filter_sublist).sublist hsub)
  · intro x hx
    exact (mem_holding.1 (hchosen.subset hx)).1

/-! ### Searches with a limit -/

/-- After a batch that is refused within a record the index is opened again. There are sentences of three domains and of
one that is deleted later; one of them holds only the leading words of the phrase. -/
def crowded : List Event :=
  [.operation (.openAt {}), .operation (.refuse (Run.sevens 4 ∅) 0 (some 5)), .operation (.openAt {}),
    .operation (.put { capacity := 0, streams := .empty
                       entries := [⟨1, [5, 9], [2], []⟩, ⟨2, [5, 9, 5], [2], []⟩, ⟨3, [5, 9], [2], []⟩,
                         ⟨1, [9, 5, 9], [2], []⟩, ⟨2, [5, 9], [2], []⟩, ⟨4, [5, 9], [2], []⟩,
                         ⟨2, [5, 8], [2], []⟩] } 0),
    .operation (.put { capacity := 0, streams := .empty, deletions := {4} } 0)]

/-- The deleted domain and domain two count as not a number, domain one as the positive zero. -/
def mixedScores : Context :=
  [⟨1, ⟨0x80000000⟩⟩, ⟨2, ⟨0xFF800000⟩⟩, ⟨4, ⟨0x7FFFFFFF⟩⟩, ⟨2, ⟨0x7FC00000⟩⟩, ⟨1, ⟨0⟩⟩]

theorem ranked_mixedScores : mixedScores.Ranked [⟨4, ⟨0x7FFFFFFF⟩⟩, ⟨2, ⟨0x7FC00000⟩⟩, ⟨1, ⟨0⟩⟩] where
  entries e := by
    have hbest : ∀ e ∈ [(⟨4, ⟨0x7FFFFFFF⟩⟩ : ContextScore), ⟨2, ⟨0x7FC00000⟩⟩, ⟨1, ⟨0⟩⟩], e ∈ mixedScores ∧
        ∀ other ∈ mixedScores, other.domain = e.domain → other.score.rank ≤ e.score.rank := by decide
    have hall : ∀ e ∈ mixedScores, (∀ other ∈ mixedScores, other.domain = e.domain → other.score.rank ≤ e.score.rank) →
        e ∈ [(⟨4, ⟨0x7FFFFFFF⟩⟩ : ContextScore), ⟨2, ⟨0x7FC00000⟩⟩, ⟨1, ⟨0⟩⟩] := by decide
    exact ⟨hbest e, fun h => hall e h.1 h.2⟩
  order := by decide

/-- The sampler of these scores, whatever is deleted. -/
theorem sampler_mixedScores (m : Model) (s : Store) : m.sampler s mixedScores true =
    (fun deleted : DomainSet => ({
      prefixLength := m.config.prefixLength
      context := [4, 2, 1].filter fun domain => !deleted.contains domain
      hasContext := true
      background := true
      deleted } : Sampler)) <$> Sweeper.markedDomains m.config.prefixLength s := by
  rw [Model.sampler, Sampler.create, Context.searchOrder, (Context.ranked_firsts _).unique ranked_mixedScores]
  cases Sweeper.markedDomains m.config.prefixLength s <;> rfl

def backwards : Shuffle := ⟨List.reverse, List.reverse_perm⟩

theorem rationed_after_crowded : ∃ m w all samples parts,
    (after Run.emptyDisk Run.modelPath crowded).run.session.model = some m ∧
    m.sampler (after Run.emptyDisk Run.modelPath crowded).run.session.durable.store mixedScores true = .ok w ∧
    (w.extend (after Run.emptyDisk Run.modelPath crowded).run.session.durable.store m.corpus
      (after Run.emptyDisk Run.modelPath crowded).disk backwards [5, 9] 3).1 = .ok samples ∧
    samples.map (·.pair) = [⟨2, [5, 9, 5], [2], []⟩, ⟨2, [5, 9], [2], []⟩, ⟨1, [9, 5, 9], [2], []⟩] ∧
    samples = parts.flatten ∧ Budget.Rationed (some 3) parts (Sampler.groupsOf [2, 1] true all) := by
  obtain ⟨m, hm⟩ : ∃ m, (after Run.emptyDisk Run.modelPath crowded).run.session.model = some m :=
    Option.isSome_iff_exists.1 (by decide +kernel)
  have hfit : ∀ before ∈ crowded.inits, (after Run.emptyDisk Run.modelPath before).disk.Fits := by decide +kernel
  have hpairs : ∀ m ∈ (after Run.emptyDisk Run.modelPath crowded).run.session.model,
      ∀ w ∈ (m.sampler (after Run.emptyDisk Run.modelPath crowded).run.session.durable.store mixedScores true).toOption,
      (w.extend (after Run.emptyDisk Run.modelPath crowded).run.session.durable.store m.corpus
        (after Run.emptyDisk Run.modelPath crowded).disk backwards [5, 9] 3).1.toOption.map (·.map (·.pair)) =
        some [⟨2, [5, 9, 5], [2], []⟩, ⟨2, [5, 9], [2], []⟩, ⟨1, [9, 5, 9], [2], []⟩] := by
    simp only [sampler_mixedScores]
    decide +kernel
  have hdomains : (([⟨4, ⟨0x7FFFFFFF⟩⟩, ⟨2, ⟨0x7FC00000⟩⟩, ⟨1, ⟨0⟩⟩] : Context).map (·.domain)).filter (fun domain =>
      !((after Run.emptyDisk Run.modelPath crowded).run.session.durable.store.get? (Sweeper.marker domain)).isSome) =
      [2, 1] := by decide +kernel
  obtain ⟨w, best, all, samples, chosen, parts, hw, -, hbest, -, hsamples, hparts, hrationed, -⟩ :=
    rationed_after Run.emptyDisk Run.modelPath crowded m mixedScores true [] backwards [5, 9] 3 unused_emptyDisk
      (fun before hb => hfit before ((List.mem_inits _ _).2 hb)) (by decide +kernel) hm (by decide) (by decide)
  obtain rfl := hbest.unique ranked_mixedScores
  rw [hdomains] at hrationed
  refine ⟨m, w, all, samples, parts, hm, hw, hsamples, ?_, hparts, hrationed⟩
  have hmap := hpairs m hm w (toOption_eq_some_iff.2 hw)
  change (w.extend _ _ _ _ _ _).1 = .ok samples at hsamples
  rw [toOption_eq_some_iff.2 hsamples] at hmap
  exact Option.some.inj hmap

/-- Two live sentence pairs hold the phrase, but a sampler that may answer two answers none. -/
theorem unrationed_refusedWithin :
    (holding [7, 7] (fun _ => true) (after Run.emptyDisk Run.modelPath refusedWithin).run.ledger.live).length = 2 ∧
    ∃ m w e, (after Run.emptyDisk Run.modelPath refusedWithin).run.session.model = some m ∧
      m.sampler (after Run.emptyDisk Run.modelPath refusedWithin).run.session.durable.store [⟨2, ⟨0⟩⟩] true = .ok w ∧
      (w.extend (after Run.emptyDisk Run.modelPath refusedWithin).run.session.durable.store m.corpus
        (after Run.emptyDisk Run.modelPath refusedWithin).disk .none [7, 7] 2).1 = .error e :=
  ⟨by decide +kernel, exists_error_of_sampled (by decide +kernel)⟩

end History

end PhraseIndex
