import Mathlib.Data.List.Perm.Basic
import Mathlib.Data.List.Sort
import PhraseIndex.Proofs.Counting
import PhraseIndex.Proofs.Retrieval

/-!
# What a search finds

The postings of a search are grouped by sentence (`Sampler.group_eq`), so its candidates are the sentences of the
accepted domains in which the leading words of the phrase occur (`Sampler.candidates_eq`). Of these the samples are
those in which the whole phrase does, with all its positions (`Sampler.search_eq`).
-/

namespace PhraseIndex

/-! ## What there is to find -/

/-- The sentences of the domains in which a phrase occurs. -/
def holding (phrase : Phrase) (domains : Domain → Bool) (live : List Placement) : List Placement :=
  live.filter fun x => domains x.1.domain && !(x.1.source.occurrences phrase).isEmpty

/-- The positions of a phrase in a sentence, as postings hold them. -/
def positions (phrase : Phrase) (s : Sentence) : List Position := (s.occurrences phrase).map UInt16.ofNat

/-- The sample of a sentence pair, with all positions of the phrase. -/
def Sample.whole (phrase : Phrase) (pair : SentencePair) : Sample := ⟨pair, positions phrase pair.source⟩

/-- The samples of the sentences of the domains. -/
def samplesOf (phrase : Phrase) (domains : Domain → Bool) (live : List Placement) : List Sample :=
  (holding phrase domains live).map fun x => .whole phrase x.1

section Holding

variable {phrase words : Phrase} {domains : Domain → Bool} {live : List Placement} {x : Placement} {s : Sentence}
  {pair : SentencePair} {start : Nat}

theorem mem_holding : x ∈ holding phrase domains live ↔
    x ∈ live ∧ domains x.1.domain = true ∧ x.1.source.occurrences phrase ≠ [] := by
  simp [holding, List.mem_filter]

/-- Every position of a sentence that is not too long is read back. -/
theorem map_toNat_positions (h : s.length ≤ Model.sentenceLimit) :
    (positions phrase s).map (·.toNat) = s.occurrences phrase := by
  have hread : ∀ start ∈ s.occurrences phrase, (UInt16.ofNat start).toNat = start :=
    fun start hs => toNat_position ((Sentence.slice?_of_mem_occurrences hs).1.trans h)
  rw [positions, List.map_map]
  exact (List.map_congr_left hread).trans (List.map_id _)

/-- Positions increase. -/
theorem positions_pairwise (h : s.length ≤ Model.sentenceLimit) : (positions phrase s).Pairwise (· < ·) := by
  have hnat := Sentence.occurrences_pairwise s phrase
  rw [← map_toNat_positions h] at hnat
  exact (List.pairwise_map.1 hnat).imp UInt16.lt_iff_toNat_lt.2

/-- A phrase occurs where its leading words do and the rest follows. -/
theorem Sentence.occurrences_eq_filter (s : Sentence) (phrase : Phrase) (n : Nat) :
    s.occurrences phrase = (s.occurrences (phrase.take n)).filter (s.hasAt phrase) := by
  rw [occurrences, occurrences, List.filter_filter]
  refine List.filter_congr fun start _ => ?_
  rw [Bool.eq_iff_iff, Bool.and_eq_true, hasAt, hasAt, List.isPrefixOf_iff_prefix, List.isPrefixOf_iff_prefix]
  exact ⟨fun h => ⟨h, (List.take_prefix _ _).trans h⟩, fun h => h.1⟩

end Holding

namespace Budget

variable {α : Type} {b : Budget}

/-- As many as the budget allows. -/
def share (b : Budget) (n : Nat) : Nat :=
  match b with
  | none => n
  | some left => min n left

/-- The first ones, as many as the budget allows. -/
def cut (b : Budget) (xs : List α) : List α := xs.take (b.share xs.length)

@[simp] theorem share_none (n : Nat) : share none n = n := rfl

@[simp] theorem share_some (left n : Nat) : share (some left) n = min n left := rfl

theorem share_le (b : Budget) (n : Nat) : b.share n ≤ n := by
  cases b with
  | none => exact Nat.le_refl n
  | some left => exact Nat.min_le_left n left

theorem share_of_isSpent (h : b.isSpent = true) (n : Nat) : b.share n = 0 := by
  rw [beq_iff_eq.1 h, share_some, Nat.min_zero]

@[simp] theorem isSpent_none : isSpent none = false := rfl

@[simp] theorem spend_none (n : Nat) : spend none n = none := rfl

@[simp] theorem isShort_none (n : Nat) : isShort none n = false := rfl

theorem length_cut (b : Budget) (xs : List α) : (b.cut xs).length = b.share xs.length := by
  rw [cut, List.length_take, Nat.min_eq_left (b.share_le _)]

theorem cut_of_isSpent (h : b.isSpent = true) (xs : List α) : b.cut xs = [] := by
  rw [cut, share_of_isSpent h, List.take_zero]

/-- Who takes the first one has less left for the others. -/
theorem cut_cons (h : b.isSpent = false) (x : α) (xs : List α) : b.cut (x :: xs) = x :: (b.spend 1).cut xs := by
  cases b with
  | none => simp [cut]
  | some left =>
    cases left with
    | zero => cases h
    | succ left => simp [cut, spend, Nat.succ_min_succ]

end Budget

namespace Sampler

/-! ## Grouping -/

section Grouping

/-- The positions of each sentence. -/
abbrev Starts := Std.ExtTreeMap Offset (Std.ExtTreeSet Position)

variable {ps : List Posting} {offset : Offset} {start : Position} {m : Starts}

/-- Adds a posting to the positions of its sentence. -/
def place (m : Starts) (p : Posting) : Starts := m.alter p.offset fun set => some ((set.getD ∅).insert p.start)

/-- The positions of a sentence, none if it has no entry. -/
def startsAt (m : Starts) (offset : Offset) : Std.ExtTreeSet Position := m[offset]?.getD ∅

theorem getElem?_place (m : Starts) (p : Posting) (offset : Offset) :
    (place m p)[offset]? = if p.offset = offset then some ((startsAt m p.offset).insert p.start) else m[offset]? := by
  rw [place, Std.ExtTreeMap.getElem?_alter]
  simp only [Std.LawfulEqCmp.compare_eq_iff_eq, startsAt]

/-- A sentence has an entry if it has a posting. -/
theorem isSome_places : (ps.foldl place m)[offset]?.isSome ↔ m[offset]?.isSome ∨ ∃ p ∈ ps, p.offset = offset := by
  induction ps generalizing m with
  | nil => simp
  | cons p ps ih =>
    rw [List.foldl_cons, ih, getElem?_place, List.exists_mem_cons_iff]
    by_cases hp : p.offset = offset
    · simp [hp]
    · simp [hp]

/-- The entry of a sentence has the positions of its postings. -/
theorem mem_places : start ∈ startsAt (ps.foldl place m) offset ↔
    start ∈ startsAt m offset ∨ ∃ p ∈ ps, p.offset = offset ∧ p.start = start := by
  induction ps generalizing m with
  | nil => simp
  | cons p ps ih =>
    rw [List.foldl_cons, ih, startsAt, getElem?_place, List.exists_mem_cons_iff]
    by_cases hp : p.offset = offset
    · subst hp
      simp only [↓reduceIte, Option.getD_some, Std.ExtTreeSet.mem_insert, Std.LawfulEqCmp.compare_eq_iff_eq, true_and]
      rw [or_comm (a := p.start = start), or_assoc]
    · simp [hp, startsAt]

theorem mem_group {c : Candidate} : c ∈ group ps ↔ ∃ set, (ps.foldl place ∅)[c.1]? = some set ∧ set.toList = c.2 := by
  obtain ⟨offset, starts⟩ := c
  show (offset, starts) ∈ (ps.foldl place ∅).toList.map (fun x => (x.1, x.2.toList)) ↔ _
  simp only [List.mem_map, Prod.exists, Std.ExtTreeMap.mem_toList_iff_getElem?_eq_some, Prod.mk.injEq]
  constructor
  · rintro ⟨_, set, hset, rfl, rfl⟩
    exact ⟨set, hset, rfl⟩
  · rintro ⟨set, hset, rfl⟩
    exact ⟨offset, set, hset, rfl, rfl⟩

theorem group_pairwise (ps : List Posting) : (group ps).Pairwise fun a b => a.1 < b.1 :=
  List.pairwise_map.2 (Std.ExtTreeMap.ordered_keys_toList.imp Std.compare_eq_lt.1)

/-- A sentence has a group if it has a posting. -/
theorem exists_group : (∃ starts, (offset, starts) ∈ group ps) ↔ ∃ p ∈ ps, p.offset = offset := by
  have hsome : (ps.foldl place ∅)[offset]?.isSome ↔ ∃ p ∈ ps, p.offset = offset := by
    rw [isSome_places]
    simp
  rw [← hsome, Option.isSome_iff_exists]
  simp only [mem_group]
  exact ⟨fun ⟨_, set, hset, _⟩ => ⟨set, hset⟩, fun ⟨set, hset⟩ => ⟨_, set, hset, rfl⟩⟩

/-- The group of a sentence has the positions of its postings, in order. -/
theorem starts_of_mem_group {starts : List Position} (h : (offset, starts) ∈ group ps) :
    starts.Pairwise (· < ·) ∧ ∀ start, start ∈ starts ↔ ∃ p ∈ ps, p.offset = offset ∧ p.start = start := by
  obtain ⟨set, hset, rfl⟩ := mem_group.1 h
  refine ⟨Std.ExtTreeSet.ordered_toList.imp Std.compare_eq_lt.1, fun start => ?_⟩
  have hstarts : startsAt (ps.foldl place ∅) offset = set := by
    rw [startsAt]
    exact congrArg (·.getD ∅) hset
  rw [Std.ExtTreeSet.mem_toList, ← hstarts, mem_places]
  simp [startsAt]

/-- The groups of some postings are their sentences in order, each with its positions in order. -/
theorem group_eq {cs : List Candidate} (hcs : cs.Pairwise fun a b => a.1 < b.1)
    (hstarts : ∀ c ∈ cs, c.2.Pairwise (· < ·) ∧ c.2 ≠ [])
    (hps : ∀ offset start, (∃ starts, (offset, starts) ∈ cs ∧ start ∈ starts) ↔
      ∃ p ∈ ps, p.offset = offset ∧ p.start = start) : group ps = cs := by
  have hunique : ∀ {a b}, a ∈ cs → b ∈ cs → a.1 = b.1 → a = b := by
    intro a b ha hb
    have hnodup : (cs.map (·.1)).Nodup := List.pairwise_map.2 (hcs.imp Int64.ne_of_lt)
    exact List.inj_on_of_nodup_map hnodup ha hb
  -- A group and a candidate of one sentence have the same positions.
  have hsame : ∀ {offset starts starts'}, (offset, starts) ∈ group ps → (offset, starts') ∈ cs → starts = starts' := by
    intro offset starts starts' hg hc
    obtain ⟨hordered, hmem⟩ := starts_of_mem_group hg
    refine hordered.eq_of_mem_iff (hstarts _ hc).1 fun start => ?_
    rw [hmem, ← hps]
    constructor
    · rintro ⟨starts'', hc', hstart⟩
      cases hunique hc hc' rfl
      exact hstart
    · exact fun hstart => ⟨starts', hc, hstart⟩
  have hperm : (group ps).Perm cs := by
    refine (List.perm_ext_iff_of_nodup ((group_pairwise ps).imp ?_) (hcs.imp ?_)).2 fun c => ?_
    · rintro a b hlt rfl
      exact Int64.lt_irrefl hlt
    · rintro a b hlt rfl
      exact Int64.lt_irrefl hlt
    · obtain ⟨offset, starts⟩ := c
      constructor
      · intro hg
        obtain ⟨p, hp, rfl⟩ := exists_group.1 ⟨starts, hg⟩
        obtain ⟨starts', hc, -⟩ := (hps p.offset p.start).2 ⟨p, hp, rfl, rfl⟩
        rwa [hsame hg hc]
      · intro hc
        obtain ⟨start, hstart⟩ := List.exists_mem_of_ne_nil _ (hstarts _ hc).2
        obtain ⟨p, hp, hoffset, -⟩ := (hps offset start).1 ⟨starts, hc, hstart⟩
        obtain ⟨starts', hg⟩ := exists_group.2 ⟨p, hp, hoffset⟩
        rwa [← hsame hg hc]
  exact hperm.eq_of_pairwise (fun a b _ _ hab hba => absurd (Int64.lt_trans hab hba) Int64.lt_irrefl)
    (group_pairwise ps) hcs

end Grouping

/-! ## Candidates -/

variable {w : Sampler} {s : Store} {live all : List Placement} {deleted : DomainSet} {words : Phrase}
  {domains : Domain → Bool} {ps : List Posting}

/-- The postings of some domains are grouped into the sentences of these domains. -/
theorem group_postings (hlengths : ∀ x ∈ live, x.1.source.length ≤ Model.sentenceLimit)
    (hordered : live.Pairwise fun x y => x.2 < y.2)
    (hps : ∀ p, p ∈ ps ↔ ∃ domain, domains domain = true ∧ p ∈ postingsOf words domain live) :
    group ps = (holding words domains live).map fun x => (x.2, positions words x.1.source) := by
  refine group_eq (List.pairwise_map.2 (hordered.filter _)) ?_ ?_
  · intro c hc
    obtain ⟨x, hx, rfl⟩ := List.mem_map.1 hc
    obtain ⟨hlive, -, hne⟩ := mem_holding.1 hx
    exact ⟨positions_pairwise (hlengths x hlive), by simpa [positions] using hne⟩
  · intro offset start
    simp only [hps, mem_postingsOf, List.mem_map, Prod.mk.injEq]
    constructor
    · rintro ⟨starts, ⟨x, hx, rfl, rfl⟩, hstart⟩
      obtain ⟨hlive, hdomain, -⟩ := mem_holding.1 hx
      obtain ⟨i, hi, rfl⟩ := List.mem_map.1 hstart
      exact ⟨⟨x.1.domain, x.2, _⟩, ⟨_, hdomain, x.1, i, hlive, rfl, hi, rfl, rfl⟩, rfl, rfl⟩
    · rintro ⟨p, ⟨domain, hdomain, pair, i, hlive, rfl, hi, -, hstart⟩, rfl, rfl⟩
      refine ⟨_, ⟨(pair, p.offset), mem_holding.2 ⟨hlive, hdomain, List.ne_nil_of_mem hi⟩, rfl, rfl⟩, ?_⟩
      rw [hstart]
      exact List.mem_map_of_mem hi

/-- The domains that a search looks at: one or all, and no deleted ones. -/
def accepts (w : Sampler) (domain : Option Domain) (accept : Domain → Bool) (d : Domain) : Bool :=
  domain.all (· == d) && !(w.deleted.contains d || !accept d)

/-- What a search adds to its postings for an entry. -/
def gather (w : Sampler) (accept : Domain → Bool) (out : List Posting) (e : PrefixEntry) :
    Except Error (List Posting) :=
  if w.deleted.contains e.domain || !accept e.domain then .ok out else do pure (out ++ (← PostingList.decode e.value))

theorem gather_postings (w : Sampler) (accept : Domain → Bool) (out : List Posting) (domain : Domain)
    (ps : List Posting) :
    w.gather accept out ⟨domain, (PostingList.ofList ps).bytes⟩ =
      .ok (out ++ if w.accepts none accept domain then ps else []) := by
  unfold gather accepts
  cases w.deleted.contains domain || !accept domain with
  | true => simp
  | false =>
    rw [PostingList.decode_ofList]
    rfl

variable (h : s.Reflects w.prefixLength live all deleted)

include h

/-- One domain has one record, or none. -/
theorem postings_of_domain {phrase : Phrase} (hne : phrase.take w.prefixLength.toNat ≠ []) (domain : Domain)
    (accept : Domain → Bool) :
    ((Cursor.seek { prefixLength := w.prefixLength, domain := some domain } s phrase).foldEntries s
        (w.gather accept) []).1 =
      .ok (if w.accepts none accept domain then postingsOf (phrase.take w.prefixLength.toNat) domain live else []) := by
  have hwf : (Key.source (phrase.take w.prefixLength.toNat) domain).WellFormed w.prefixLength :=
    ⟨List.length_pos_iff.2 hne, by rw [List.length_take]; omega⟩
  rw [Cursor.foldEntries, Cursor.begin_seek_some s _ domain hne, h.postings hwf, Cursor.foldSteps_single]
  by_cases hnil : postingsOf (phrase.take w.prefixLength.toNat) domain live = []
  · rw [PostingList.record, if_pos hnil, hnil, ite_self]
    rfl
  · rw [PostingList.record, if_neg hnil, Option.map_some, Option.toList_some, List.foldlM_cons,
      w.gather_postings accept [] domain _]
    rfl

/-- All domains have their records behind each other. -/
theorem postings_of_all {phrase : Phrase} (hne : phrase.take w.prefixLength.toNat ≠ []) (accept : Domain → Bool) :
    ((Cursor.seek { prefixLength := w.prefixLength, domain := none } s phrase).foldEntries s (w.gather accept) []).1 =
      .ok ((s.scan (Key.scan (phrase.take w.prefixLength.toNat))).flatMap fun x =>
        if w.accepts none accept (domainAt x) then postingsOf (phrase.take w.prefixLength.toNat) (domainAt x) live
        else []) := by
  have hp : 1 ≤ (phrase.take w.prefixLength.toNat).length ∧
      (phrase.take w.prefixLength.toNat).length ≤ w.prefixLength.toNat :=
    ⟨List.length_pos_iff.2 hne, by rw [List.length_take]; omega⟩
  rw [Cursor.foldEntries, Cursor.begin_seek_none s _ hne, List.flatMap_eq_foldl]
  refine Cursor.foldSteps_of_scanning (h.domainOf_scan hp) (fun out x hx => ?_) []
  conv_lhs => rw [(h.of_mem_scan hp hx).2, domainAt_source]
  exact w.gather_postings accept out _ _

/-- The candidates are the sentences of the accepted domains that hold the leading words. -/
theorem candidates_eq (hlimit : w.prefixLength ≠ 0) (hphrase : w.phrase ≠ [])
    (hlengths : ∀ x ∈ live, x.1.source.length ≤ Model.sentenceLimit) (hordered : live.Pairwise fun x y => x.2 < y.2)
    (domain : Option Domain) (accept : Domain → Bool) : w.candidates s domain accept =
      .ok ((holding (w.phrase.take w.prefixLength.toNat) (w.accepts domain accept) live).map fun x =>
        (x.2, positions (w.phrase.take w.prefixLength.toNat) x.1.source)) := by
  have hne : w.phrase.take w.prefixLength.toNat ≠ [] := by
    have hpos : w.prefixLength.toNat ≠ 0 := fun h0 => hlimit (UInt8.toNat_inj.1 h0)
    rw [ne_eq, List.take_eq_nil_iff, not_or]
    exact ⟨hpos, hphrase⟩
  have hp : 1 ≤ (w.phrase.take w.prefixLength.toNat).length ∧
      (w.phrase.take w.prefixLength.toNat).length ≤ w.prefixLength.toNat :=
    ⟨List.length_pos_iff.2 hne, by rw [List.length_take]; omega⟩
  show ((((Cursor.seek { prefixLength := w.prefixLength, domain } s w.phrase).foldEntries s (w.gather accept) []).1 >>=
    fun ps => .ok (group ps)) : Except Error _) = _
  cases domain with
  | some d =>
    rw [postings_of_domain h hne d accept]
    refine congrArg Except.ok (group_postings hlengths hordered fun p => ?_)
    simp only [accepts, Option.all_some, Option.all_none, Bool.true_and, Bool.and_eq_true, beq_iff_eq]
    constructor
    · intro hmem
      split at hmem
      · next hd => exact ⟨d, ⟨rfl, hd⟩, hmem⟩
      · cases hmem
    · rintro ⟨_, ⟨rfl, hd⟩, hmem⟩
      rwa [if_pos hd]
  | none =>
    rw [postings_of_all h hne accept]
    refine congrArg Except.ok (group_postings hlengths hordered fun p => ?_)
    rw [List.mem_flatMap]
    constructor
    · rintro ⟨x, -, hmem⟩
      split at hmem
      · next hd => exact ⟨domainAt x, hd, hmem⟩
      · cases hmem
    · rintro ⟨d, hd, hmem⟩
      by_cases hscan : d ∈ (s.scan (Key.scan (w.phrase.take w.prefixLength.toNat))).map domainAt
      · obtain ⟨x, hx, rfl⟩ := List.mem_map.1 hscan
        exact ⟨x, hx, by rwa [if_pos hd]⟩
      · rw [h.postingsOf_of_not_mem hp hscan] at hmem
        cases hmem

omit h

/-! ## Samples -/

section Samples

variable {corpus : Corpus} {disk : Disk} {phrase : Phrase}

/-- A candidate is a sample if its sentence holds the whole phrase. -/
theorem verify_positions {pair : SentencePair} (hlength : pair.source.length ≤ Model.sentenceLimit) (n : Nat) :
    verify phrase pair (positions (phrase.take n) pair.source) =
      if (pair.source.occurrences phrase).isEmpty then none else some (.whole phrase pair) := by
  have hfilter : (positions (phrase.take n) pair.source).filter (fun start => pair.source.hasAt phrase start.toNat) =
      positions phrase pair.source := by
    rw [positions, positions, pair.source.occurrences_eq_filter phrase n, List.filter_map]
    refine congrArg _ (List.filter_congr fun start hstart => ?_)
    rw [Function.comp_apply, toNat_position ((Sentence.slice?_of_mem_occurrences hstart).1.trans hlength)]
  have hempty : (positions phrase pair.source).isEmpty = (pair.source.occurrences phrase).isEmpty := by
    rw [positions, List.isEmpty_map]
  rw [verify, hfilter, hempty]
  rfl

/-- The candidates are looked at in order while the budget lasts. -/
theorem collect_eq {starts : Placement → List Position} {xs : List Placement}
    (hstored : ∀ x ∈ xs, corpus.retrieve disk x.2 = .ok x.1) (budget : Budget) :
    collect corpus disk phrase budget (xs.map fun x => (x.2, starts x)) =
      .ok (budget.cut (xs.filterMap fun x => verify phrase x.1 (starts x))) := by
  induction xs generalizing budget with
  | nil => simp [collect, Budget.cut]
  | cons x xs ih =>
    have hrest := ih fun y hy => hstored y (List.mem_cons_of_mem _ hy)
    rw [List.map_cons, collect]
    cases hspent : budget.isSpent with
    | true => rw [if_pos rfl, Budget.cut_of_isSpent hspent]
    | false =>
      rw [if_neg Bool.false_ne_true, hstored x List.mem_cons_self, List.filterMap_cons]
      simp only [bind, Except.bind, hrest]
      cases verify phrase x.1 (starts x) with
      | none => rfl
      | some sample =>
        rw [Budget.cut_cons hspent]
        rfl

/-- Of the sentences that hold the leading words those with the whole phrase are sampled. -/
theorem filterMap_verify {xs : List Placement} (hlengths : ∀ x ∈ xs, x.1.source.length ≤ Model.sentenceLimit)
    (n : Nat) :
    (xs.filterMap fun x => verify phrase x.1 (positions (phrase.take n) x.1.source)) =
      (xs.filter fun x => !(x.1.source.occurrences phrase).isEmpty).map fun x => .whole phrase x.1 := by
  rw [← List.filterMap_eq_map, List.filterMap_filter]
  refine List.filterMap_congr fun x hx => ?_
  rw [verify_positions (hlengths x hx)]
  by_cases hnil : x.1.source.occurrences phrase = []
  · simp [hnil]
  · simp [hnil]

/-- A sentence that holds the phrase holds its leading words. -/
theorem filter_holding (phrase : Phrase) (n : Nat) (domains : Domain → Bool) (live : List Placement) :
    (holding (phrase.take n) domains live).filter (fun x => !(x.1.source.occurrences phrase).isEmpty) =
      holding phrase domains live := by
  rw [holding, holding, List.filter_filter]
  refine List.filter_congr fun x _ => ?_
  have hsub : x.1.source.occurrences phrase ≠ [] → x.1.source.occurrences (phrase.take n) ≠ [] := by
    intro hne hnil
    rw [x.1.source.occurrences_eq_filter phrase n, hnil] at hne
    exact hne rfl
  by_cases hnil : x.1.source.occurrences phrase = []
  · simp [hnil]
  · rw [List.isEmpty_eq_false_iff.2 hnil, List.isEmpty_eq_false_iff.2 (hsub hnil)]
    rfl

/-- The images in another order are the images of the elements in another order. -/
theorem exists_perm_of_map {α β : Type} {f : α → β} {xs : List α} {ys : List β} (h : ys.Perm (xs.map f)) :
    ∃ zs : List α, zs.Perm xs ∧ ys = zs.map f := by
  have hcomp : Relation.Comp (· = List.map f ·) List.Perm ys xs := by
    rw [List.eq_map_comp_perm]
    exact h
  obtain ⟨zs, hys, hperm⟩ := hcomp
  exact ⟨zs, hperm, hys⟩

/-- A search picks sentences of the accepted domains that hold the phrase, all of them or as many as it may. -/
theorem search_eq (h : s.Reflects w.prefixLength live all deleted) (hlimit : w.prefixLength ≠ 0)
    (hphrase : w.phrase ≠ []) (hlengths : ∀ x ∈ live, x.1.source.length ≤ Model.sentenceLimit)
    (hordered : live.Pairwise fun x y => x.2 < y.2) (hstored : ∀ x ∈ live, corpus.retrieve disk x.2 = .ok x.1)
    (shuffle : Shuffle) (budget : Budget) (domain : Option Domain) (accept : Domain → Bool) : ∃ picked : List Placement,
    w.search s corpus disk shuffle budget domain accept = .ok (picked.map fun x => .whole w.phrase x.1) ∧
      picked.Subperm (holding w.phrase (w.accepts domain accept) live) ∧
      picked.length = budget.share (holding w.phrase (w.accepts domain accept) live).length := by
  let words := w.phrase.take w.prefixLength.toNat
  let starts := fun x : Placement => positions words x.1.source
  let found := (holding words (w.accepts domain accept) live).map fun x => (x.2, starts x)
  have horder : (if budget.isShort found.length then shuffle.order found else found).Perm found := by
    split
    · exact shuffle.perm found
    · exact .refl found
  obtain ⟨xs, hxs, horder⟩ := exists_perm_of_map horder
  have hlive : ∀ x ∈ xs, x ∈ live := fun x hx => (mem_holding.1 (hxs.subset hx)).1
  -- Which of them have the whole phrase does not depend on their order.
  have hmatches : (xs.filter fun x => !(x.1.source.occurrences w.phrase).isEmpty).Perm
      (holding w.phrase (w.accepts domain accept) live) := by
    rw [← filter_holding w.phrase w.prefixLength.toNat]
    exact hxs.filter _
  refine ⟨budget.cut (xs.filter fun x => !(x.1.source.occurrences w.phrase).isEmpty), ?_, ?_, ?_⟩
  · rw [search, candidates_eq h hlimit hphrase hlengths hordered]
    simp only [bind, Except.bind]
    rw [horder, collect_eq fun x hx => hstored x (hlive x hx), filterMap_verify fun x hx => hlengths x (hlive x hx)]
    rw [Budget.cut, Budget.cut, List.length_map, List.map_take]
  · exact (List.take_sublist _ _).subperm.trans hmatches.subperm
  · rw [Budget.length_cut, hmatches.length_eq]

end Samples

end Sampler

end PhraseIndex
