import PhraseIndex.Proofs.Candidates
import PhraseIndex.Proofs.Cursors
import PhraseIndex.Proofs.Values

/-!
# Reading a sound index

On a sound index no reader fails: a cursor takes up the posting lists of its phrase (`Cursor.foldEntries_induct`), a
scan decodes every phrase record, and the markers tell which domains are deleted. A sampler may make its searches at
different moments, each on what it then sees (`Sampler.extendThrough`); as long as the sentences that the index offers
it are in the corpus, it answers with some of these, each from its own place (`Sampler.samplesThrough_spec`).
-/

namespace PhraseIndex

/-! ## Listed postings -/

theorem PostingList.bytes_ofList_inj {ps qs : List Posting} (h : (ofList ps).bytes = (ofList qs).bytes) : ps = qs := by
  have hp := decode_ofList ps
  rw [h, decode_ofList] at hp
  exact (Except.ok.inj hp).symm

/-- The index lists these postings for a phrase in a domain. -/
structure Store.Lists (s : Store) (limit : PrefixLength) (words : Phrase) (domain : Domain) (ps : List Posting) :
    Prop where
  wellFormed : (Key.source words domain).WellFormed limit
  get? : s.get? (Key.source words domain).encode = some (PostingList.ofList ps).bytes

namespace Store.Sound

variable {s : Store} {limit : PrefixLength} {words : Phrase} {domain : Domain} {value : Bytes}

theorem lists (h : s.Sound limit) (hk : (Key.source words domain).WellFormed limit)
    (hv : s.get? (Key.source words domain).encode = some value) :
    ∃ ps, value = (PostingList.ofList ps).bytes ∧ s.Lists limit words domain ps := by
  obtain ⟨ps, hps⟩ := h.postings hk
  rw [PostingList.record] at hps
  split at hps
  · rw [hv] at hps
    cases hps
  · exact ⟨ps, Option.some.inj (hv.symm.trans hps), hk, hps⟩

/-- The source keys of a sound index are well formed. -/
theorem addressed (h : s.Sound limit) : s.Addressed limit := by
  intro key hkey
  obtain ⟨hkind, hsome⟩ := Store.mem_keysOf.1 hkey
  obtain ⟨value, hv⟩ := Option.isSome_iff_exists.1 hsome
  obtain ⟨k, hk, rfl⟩ := h.wellFormed hv
  rw [Key.kindOf?_encode] at hkind
  cases k with
  | source phrase domain => exact ⟨phrase, domain, hk, rfl⟩
  | streams | manifest | target | deletion => cases hkind

end Store.Sound

/-- What an index lists are the postings of the live sentences that it reflects. -/
theorem Store.Reflects.eq_of_lists {s : Store} {limit : PrefixLength} {live all : List Placement} {deleted : DomainSet}
    {words : Phrase} {domain : Domain} {ps : List Posting} (h : s.Reflects limit live all deleted)
    (hps : s.Lists limit words domain ps) : ps = postingsOf words domain live := by
  have hv := hps.get?
  rw [h.postings hps.wellFormed, PostingList.record] at hv
  split at hv
  · cases hv
  · exact (PostingList.bytes_ofList_inj (Option.some.inj hv)).symm

/-! ## Cursors -/

namespace Cursor

variable {β : Type} {P : β → Prop} {f : β → PrefixEntry → Except Error β} {acc : β} {s : Store} {limit : PrefixLength}

/-- What each posting list of the phrase keeps, a whole search keeps, and no key stops it. -/
theorem foldEntries_induct (h : s.Sound limit) (phrase : Phrase) (only : Option Domain) (acc : β)
    (hf : ∀ acc domain ps, P acc → only.all (· == domain) = true → s.Lists limit (phrase.take limit.toNat) domain ps →
      ∃ acc', f acc ⟨domain, (PostingList.ofList ps).bytes⟩ = .ok acc' ∧ P acc') (hacc : P acc) :
    ∃ acc', ((seek { prefixLength := limit, domain := only } s phrase).foldEntries s f acc).1 = .ok acc' ∧ P acc' := by
  obtain ⟨entries, hentries, hfold⟩ := exists_foldEntries h.addressed phrase only
  have hstep : ∀ acc, ∀ e ∈ entries, P acc → ∃ acc', f acc e = .ok acc' ∧ P acc' := by
    intro acc e he hP
    obtain ⟨hdomain, hv⟩ := hentries e he
    have hk := h.addressed.wellFormed (List.length_take_le _ _) hv
    obtain ⟨ps, hvalue, hlists⟩ := h.lists hk hv
    obtain ⟨acc', hacc', hP'⟩ := hf acc e.domain ps hP hdomain hlists
    rw [← hvalue] at hacc'
    exact ⟨acc', hacc', hP'⟩
  obtain ⟨acc', hacc', hP⟩ := foldlM_induct hstep hacc
  exact ⟨acc', (hfold f acc).trans hacc', hP⟩

end Cursor

/-! ## Counts and scans -/

namespace Store.Sound

variable {s : Store} {limit : PrefixLength} {m : Model}

theorem exists_sourceCount (h : s.Sound m.config.prefixLength) (phrase : Phrase) :
    ∃ n, m.sourceCount s phrase = .ok n := by
  obtain ⟨n, hn, -⟩ := Cursor.foldEntries_induct (P := fun _ : Nat => True) h phrase none 0
    (f := fun total entry => do pure (total + (← entry.count))) (fun total domain ps _ _ _ => by
      refine ⟨total + ps.length, ?_, trivial⟩
      rw [PrefixEntry.count, PostingList.count_ofList]
      rfl) trivial
  exact ⟨n, hn⟩

theorem exists_targetCount (h : s.Sound limit) {phrase : Phrase} (hk : (Key.target phrase).WellFormed limit) :
    ∃ n, Model.targetCount s phrase = .ok n := by
  obtain ⟨n, hn⟩ := h.counts hk
  rw [Model.targetCount, hn, Count.record]
  by_cases h0 : n = 0
  · rw [if_pos h0]
    exact ⟨0, rfl⟩
  · rw [if_neg h0]
    simp only [Count.decode_encode]
    exact ⟨_, rfl⟩

/-- Every count is answered. -/
theorem exists_count (h : s.Sound m.config.prefixLength) (side : Side) (phrase : Phrase) :
    ∃ n, m.count s side phrase = .ok n := by
  unfold Model.count
  split
  · exact ⟨1, rfl⟩
  · next hc =>
    have hk : (Key.target phrase).WellFormed m.config.prefixLength := by
      rw [Bool.or_eq_true, List.isEmpty_iff, decide_eq_true_eq, ← List.length_eq_zero_iff] at hc
      exact ⟨by omega, by omega⟩
    cases side with
    | source =>
      obtain ⟨n, hn⟩ := h.exists_sourceCount phrase
      exact ⟨max 1 n, map_eq_ok_iff.2 ⟨n, hn, rfl⟩⟩
    | target =>
      obtain ⟨n, hn⟩ := h.exists_targetCount hk
      exact ⟨max 1 n, map_eq_ok_iff.2 ⟨n, hn, rfl⟩⟩

/-- A scan shows no error. -/
theorem ok_of_mem_entries (h : s.Sound limit) {entry : Except Error IndexEntry}
    (he : entry ∈ (Scan.create s limit).entries) : ∃ e, entry = .ok e := by
  obtain ⟨⟨key, value⟩, hx, hentry⟩ := List.mem_filterMap.1 he
  change IndexEntry.decode? limit key value = some entry at hentry
  have hv : s.get? key = some value := mem_toList.1 hx
  obtain ⟨k, hk, rfl⟩ := h.wellFormed hv
  cases k with
  | source phrase domain =>
    obtain ⟨ps, rfl, -⟩ := h.lists hk hv
    have hdescribes : (IndexEntry.source phrase domain ps).Describes limit (Key.source phrase domain).encode
        (PostingList.ofList ps).bytes := ⟨hk, rfl, rfl⟩
    rw [IndexEntry.decode?_eq_ok_iff.2 hdescribes] at hentry
    exact ⟨_, (Option.some.inj hentry).symm⟩
  | target phrase =>
    obtain ⟨n, hn⟩ := h.counts hk
    rw [hv, Count.record] at hn
    split at hn
    · cases hn
    · cases hn
      have hdescribes : (IndexEntry.target phrase (Int64.ofNat n)).Describes limit (Key.target phrase).encode
          (Count.encode (Int64.ofNat n)) := ⟨hk, rfl, .inl rfl⟩
      rw [IndexEntry.decode?_eq_ok_iff.2 hdescribes] at hentry
      exact ⟨_, (Option.some.inj hentry).symm⟩
  | streams | manifest | deletion =>
    rw [IndexEntry.decode?, Key.kindOf?_encode] at hentry
    cases hentry

end Store.Sound

/-! ## Samplers -/

/-- What a search sees: the index, and the corpus that it takes the sentences from. -/
structure View where
  store : Store
  corpus : Corpus
  disk : Disk

/-- A sampler can always be made, and it leaves out the domains that have markers then. -/
theorem Store.Sound.exists_create {s : Store} {limit : PrefixLength} (h : s.Sound limit) (context : Context)
    (background : Bool) : ∃ w, Sampler.create s limit context background = .ok w ∧ w.prefixLength = limit ∧
      ∀ domain, domain ∈ w.deleted ↔ (s.get? (Sweeper.marker domain)).isSome := by
  obtain ⟨deleted, hdeleted, hmem⟩ := h.markedDomains
  exact ⟨_, bind_eq_ok_iff.2 ⟨deleted, hdeleted, rfl⟩, rfl, hmem⟩

namespace Sampler

/-- The index offers the sampler a posting that it lists in a domain. -/
def Offers (w : Sampler) (s : Store) (domain : Domain) (p : Posting) : Prop :=
  domain ∉ w.deleted ∧ ∃ words ps, s.Lists w.prefixLength words domain ps ∧ p ∈ ps

/-- The sentence pair is in the corpus where a posting points that the index offers in the domain of the pair. -/
def Finds (w : Sampler) (v : View) (x : Placement) : Prop :=
  ∃ p, w.Offers v.store x.1.domain p ∧ p.offset = x.2 ∧ v.corpus.retrieve v.disk x.2 = .ok x.1

/-- The index is sound, and for every posting that it offers there is a sentence pair of the domain. -/
structure Serves (w : Sampler) (v : View) : Prop where
  sound : v.store.Sound w.prefixLength
  retrieves : ∀ {domain : Domain} {p : Posting}, w.Offers v.store domain p →
    ∃ pair : SentencePair, pair.domain = domain ∧ v.corpus.retrieve v.disk p.offset = .ok pair

/-- The samples are those of these placed sentence pairs, each of which was found in the view of some search. -/
structure Draws (w : Sampler) (view : Nat → View) (samples : List Sample) (picked : List Placement) : Prop where
  pairs : samples.map (·.pair) = picked.map (·.1)
  finds : ∀ x ∈ picked, ∃ i, w.Finds (view i) x

/-- The domains one after the other, the first of them in the view of this number. -/
def searchDomainsThrough (w : Sampler) (view : Nat → View) (shuffle : Shuffle) :
    Nat → Budget → List Domain → Except Error (List Sample)
  | _, _, [] => .ok []
  | i, budget, domain :: rest =>
    if budget.isSpent then .ok []
    else do
      let samples ← w.search (view i).store (view i).corpus (view i).disk shuffle budget (some domain) fun _ => true
      let more ← searchDomainsThrough w view shuffle (i + 1) (budget.spend samples.length) rest
      pure (samples ++ more)

/-- The samples of the present phrase when each search has its own view. -/
def samplesThrough (w : Sampler) (view : Nat → View) (shuffle : Shuffle) (budget : Budget) :
    Except Error (List Sample) := do
  if w.phrase.isEmpty then pure []
  else
    let first ← w.searchDomainsThrough view shuffle 0 budget w.context
    let budget := budget.spend first.length
    if w.widens && !budget.isSpent then
      let v := view w.context.length
      let others ← w.search v.store v.corpus v.disk shuffle budget none fun domain => !w.context.contains domain
      pure (first ++ others)
    else pure first

/-- Appends to the phrase and answers its samples, each search with its own view. -/
def extendThrough (w : Sampler) (view : Nat → View) (shuffle : Shuffle) (phrase : Phrase) (limit : Nat) :
    Except Error (List Sample) × Sampler :=
  let w := { w with phrase := w.phrase ++ phrase }
  (w.samplesThrough view shuffle (.ofLimit limit), w)

variable {w : Sampler} {v : View} {view : Nat → View} {s : Store} {corpus : Corpus} {disk : Disk} {shuffle : Shuffle}
  {budget : Budget} {phrase : Phrase} {limit : Nat}

theorem searchDomainsThrough_const (w : Sampler) (v : View) (shuffle : Shuffle) (i : Nat) (budget : Budget)
    (domains : List Domain) : w.searchDomainsThrough (fun _ => v) shuffle i budget domains =
      w.searchDomains v.store v.corpus v.disk shuffle budget domains := by
  induction domains generalizing i budget with
  | nil => rfl
  | cons domain domains ih =>
    unfold searchDomainsThrough searchDomains
    simp only [ih]

/-- While nothing changes all searches have the same view. -/
theorem extendThrough_const (w : Sampler) (v : View) (shuffle : Shuffle) (phrase : Phrase) (limit : Nat) :
    w.extendThrough (fun _ => v) shuffle phrase limit =
      w.extend v.store v.corpus v.disk shuffle phrase limit := by
  simp only [extendThrough, extend, samplesThrough, samples, searchDomainsThrough_const]

/-! ### What is found -/

theorem Draws.nil (w : Sampler) (view : Nat → View) : w.Draws view [] [] := ⟨rfl, nofun⟩

theorem Draws.append {samples more : List Sample} {picked others : List Placement} (h : w.Draws view samples picked)
    (h' : w.Draws view more others) : w.Draws view (samples ++ more) (picked ++ others) where
  pairs := by rw [List.map_append, List.map_append, h.pairs, h'.pairs]
  finds x hx := (List.mem_append.1 hx).elim (h.finds x) (h'.finds x)

/-- The candidates of a search have different offsets, and postings that the index offers in the accepted domains. -/
theorem candidates_spec (h : s.Sound w.prefixLength) (only : Option Domain) (accept : Domain → Bool) :
    ∃ found, w.candidates s only accept = .ok found ∧ (found.map (·.1)).Nodup ∧
      ∀ c ∈ found, ∃ domain p, w.accepts only accept domain = true ∧ w.Offers s domain p ∧ p.offset = c.1 := by
  obtain ⟨ps, hps, hoffers⟩ := Cursor.foldEntries_induct (f := w.gather accept)
    (P := fun out : List Posting => ∀ p ∈ out, ∃ domain, w.accepts only accept domain = true ∧ w.Offers s domain p)
    h w.phrase only []
    (fun out domain ps hout honly hlists => by
      refine ⟨_, w.gather_postings accept out domain ps, fun p hp => ?_⟩
      rcases List.mem_append.1 hp with hp | hp
      · exact hout p hp
      · split at hp
        · next ha =>
          simp only [accepts, Option.all_none, Bool.true_and] at ha
          have hdeleted : domain ∉ w.deleted := by
            rw [Bool.not_eq_true', Bool.or_eq_false_iff] at ha
            rw [Std.ExtTreeSet.mem_iff_contains, ha.1]
            exact Bool.false_ne_true
          exact ⟨domain, by rw [accepts, honly, ha]; rfl, hdeleted, _, ps, hlists, hp⟩
        · cases hp)
    (by simp)
  have hnodup : ((group ps).map (·.1)).Nodup := List.pairwise_map.2 ((group_pairwise ps).imp Int64.ne_of_lt)
  refine ⟨group ps, bind_eq_ok_iff.2 ⟨ps, hps, rfl⟩, hnodup, fun c hc => ?_⟩
  obtain ⟨p, hp, hoffset⟩ := exists_group.1 ⟨c.2, hc⟩
  obtain ⟨domain, haccepts, hoffered⟩ := hoffers p hp
  exact ⟨domain, p, haccepts, hoffered, hoffset⟩

theorem pair_verify {pair : SentencePair} {starts : List Position} {sample : Sample}
    (h : verify phrase pair starts = some sample) : sample.pair = pair := by
  unfold verify at h
  dsimp only at h
  split at h
  · cases h
  · cases h
    rfl

/-- Whatever the budget, the samples of candidates that are in the corpus are those of some of them. -/
theorem collect_spec (phrase : Phrase) {found : List Candidate}
    (h : ∀ c ∈ found, ∃ pair, corpus.retrieve disk c.1 = .ok pair) (budget : Budget) :
    ∃ (samples : List Sample) (picked : List Placement), collect corpus disk phrase budget found = .ok samples ∧
      samples.map (·.pair) = picked.map (·.1) ∧ (picked.map (·.2)).Sublist (found.map (·.1)) ∧
      ∀ x ∈ picked, corpus.retrieve disk x.2 = .ok x.1 := by
  induction found generalizing budget with
  | nil => exact ⟨[], [], rfl, rfl, List.nil_sublist _, nofun⟩
  | cons c found ih =>
    have hrest := ih fun c hc => h c (List.mem_cons_of_mem _ hc)
    obtain ⟨pair, hpair⟩ := h c List.mem_cons_self
    unfold collect
    split
    · exact ⟨[], [], rfl, rfl, List.nil_sublist _, nofun⟩
    · rw [hpair]
      simp only [bind, Except.bind]
      cases hv : verify phrase pair c.2 with
      | none =>
        obtain ⟨samples, picked, hsamples, hpairs, hsub, hfound⟩ := hrest budget
        exact ⟨samples, picked, hsamples, hpairs, hsub.cons _, hfound⟩
      | some sample =>
        obtain ⟨samples, picked, hsamples, hpairs, hsub, hfound⟩ := hrest (budget.spend 1)
        refine ⟨sample :: samples, (pair, c.1) :: picked, by simp only [hsamples]; rfl, ?_, hsub.cons_cons _,
          fun x hx => ?_⟩
        · rw [List.map_cons, List.map_cons, hpairs, pair_verify hv]
        · rcases List.mem_cons.1 hx with rfl | hx
          · exact hpair
          · exact hfound x hx

/-- A search answers with different sentences that the sampler finds in the accepted domains. -/
theorem search_spec {i : Nat} (h : w.Serves (view i)) (shuffle : Shuffle) (budget : Budget) (only : Option Domain)
    (accept : Domain → Bool) : ∃ samples picked,
      w.search (view i).store (view i).corpus (view i).disk shuffle budget only accept = .ok samples ∧
        w.Draws view samples picked ∧ picked.Nodup ∧ ∀ x ∈ picked, w.accepts only accept x.1.domain = true := by
  obtain ⟨found, hfound, hnodup, hoffers⟩ := candidates_spec h.sound only accept
  have hperm : (if budget.isShort found.length then shuffle.order found else found).Perm found := by
    split
    · exact shuffle.perm found
    · exact .refl _
  have hretrieves : ∀ c ∈ found, ∃ pair : SentencePair, w.accepts only accept pair.domain = true ∧
      w.Finds (view i) (pair, c.1) := by
    intro c hc
    obtain ⟨domain, p, haccepts, hp, hoffset⟩ := hoffers c hc
    obtain ⟨pair, rfl, hpair⟩ := h.retrieves hp
    rw [hoffset] at hpair
    exact ⟨pair, haccepts, p, hp, hoffset, hpair⟩
  obtain ⟨samples, picked, hsamples, hpairs, hsub, hpicked⟩ := collect_spec w.phrase (fun c hc => by
    obtain ⟨pair, -, p, -, -, hpair⟩ := hretrieves c (hperm.subset hc)
    exact ⟨pair, hpair⟩) budget
  have hfinds : ∀ x ∈ picked, w.accepts only accept x.1.domain = true ∧ w.Finds (view i) x := by
    intro x hx
    obtain ⟨c, hc, hoffset⟩ := List.mem_map.1 (hsub.subset (List.mem_map_of_mem hx))
    obtain ⟨pair, haccepts, hfind⟩ := hretrieves c (hperm.subset hc)
    obtain ⟨-, -, -, hpair⟩ := id hfind
    rw [hoffset] at hfind hpair
    obtain rfl : pair = x.1 := Except.ok.inj (hpair.symm.trans (hpicked x hx))
    exact ⟨haccepts, hfind⟩
  refine ⟨samples, picked, bind_eq_ok_iff.2 ⟨found, hfound, hsamples⟩, ⟨hpairs, fun x hx => ⟨i, (hfinds x hx).2⟩⟩, ?_,
    fun x hx => (hfinds x hx).1⟩
  exact .of_map _ (((hperm.map _).nodup_iff.2 hnodup).sublist hsub)

theorem searchDomainsThrough_spec (h : ∀ i, w.Serves (view i)) (shuffle : Shuffle) (i : Nat) (budget : Budget)
    (domains : List Domain) : ∃ samples picked,
      w.searchDomainsThrough view shuffle i budget domains = .ok samples ∧ w.Draws view samples picked ∧
        (domains.Nodup → picked.Nodup) ∧ ∀ x ∈ picked, x.1.domain ∈ domains := by
  induction domains generalizing i budget with
  | nil => exact ⟨[], [], rfl, .nil w view, fun _ => .nil, nofun⟩
  | cons domain domains ih =>
    unfold searchDomainsThrough
    split
    · exact ⟨[], [], rfl, .nil w view, fun _ => .nil, nofun⟩
    · obtain ⟨first, picked, hfirst, hdraws, hnodup, haccepts⟩ :=
        search_spec (h i) shuffle budget (some domain) fun _ => true
      obtain ⟨rest, others, hrest, hdraws', hnodup', hmem⟩ := ih (i + 1) (budget.spend first.length)
      have hdomain : ∀ x ∈ picked, x.1.domain = domain := by
        intro x hx
        have ha := haccepts x hx
        rw [accepts, Bool.and_eq_true, Option.all_some, beq_iff_eq] at ha
        exact ha.1.symm
      refine ⟨first ++ rest, picked ++ others, bind_eq_ok_iff.2 ⟨first, hfirst, bind_eq_ok_iff.2 ⟨rest, hrest, rfl⟩⟩,
        hdraws.append hdraws', fun hdomains => ?_, fun x hx => ?_⟩
      · -- A domain that was looked at is not among those to come.
        obtain ⟨hnew, hdomains⟩ := List.nodup_cons.1 hdomains
        refine List.nodup_append.2 ⟨hnodup, hnodup' hdomains, ?_⟩
        rintro x hx _ hx' rfl
        exact hnew (hdomain x hx ▸ hmem x hx')
      · rcases List.mem_append.1 hx with hx | hx
        · rw [hdomain x hx]
          exact List.mem_cons_self
        · exact List.mem_cons_of_mem _ (hmem x hx)

/-- A sampler that is served answers with sentences that it finds in the view of some search, and with none twice if it
looks at no domain twice. -/
theorem samplesThrough_spec (h : ∀ i, w.Serves (view i)) (shuffle : Shuffle) (budget : Budget) :
    ∃ samples picked, w.samplesThrough view shuffle budget = .ok samples ∧ w.Draws view samples picked ∧
      (w.context.Nodup → picked.Nodup) := by
  unfold samplesThrough
  split
  · exact ⟨[], [], rfl, .nil w view, fun _ => .nil⟩
  · obtain ⟨first, picked, hfirst, hdraws, hnodup, hmem⟩ := searchDomainsThrough_spec h shuffle 0 budget w.context
    rw [hfirst]
    simp only [bind, Except.bind]
    split
    · obtain ⟨rest, others, hrest, hdraws', hnodup', haccepts⟩ := search_spec (h w.context.length) shuffle
        (budget.spend first.length) none fun domain => !w.context.contains domain
      rw [hrest]
      refine ⟨first ++ rest, picked ++ others, rfl, hdraws.append hdraws', fun hcontext => ?_⟩
      refine List.nodup_append.2 ⟨hnodup hcontext, hnodup', ?_⟩
      rintro x hx _ hx' rfl
      have ha := haccepts x hx'
      simp [accepts, hmem x hx] at ha
    · exact ⟨first, picked, rfl, hdraws, hnodup⟩

/-- Only the phrase of a sampler changes, and it decides neither what is offered nor what is found. -/
theorem extendThrough_spec (h : ∀ i, w.Serves (view i)) (shuffle : Shuffle) (phrase : Phrase) (limit : Nat) :
    ∃ samples picked, (w.extendThrough view shuffle phrase limit).1 = .ok samples ∧ w.Draws view samples picked ∧
      (w.context.Nodup → picked.Nodup) := by
  obtain ⟨samples, picked, hsamples, hdraws, hnodup⟩ :=
    samplesThrough_spec (w := { w with phrase := w.phrase ++ phrase })
    (fun i => ⟨(h i).sound, (h i).retrieves⟩) shuffle (.ofLimit limit)
  exact ⟨samples, picked, hsamples, ⟨hdraws.pairs, hdraws.finds⟩, hnodup⟩

end Sampler

end PhraseIndex
