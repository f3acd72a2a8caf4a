import Mathlib.Data.List.Sort
import PhraseIndex.Proofs.Counting
import PhraseIndex.Proofs.Order

/-!
# Two ways to the records of a phrase

A cursor over all domains scans the keys that start like its phrase, a cursor of one domain looks up a single key. On an
index with well-formed source keys both read the same records: there is one list of the entries of a phrase
(`Store.Entries.unique`), which the domains make up as well as the scan (`Store.Entries.ofDomains`,
`Store.Addressed.entries_scan`), and the cursors yield it whole or one domain of it (`Cursor.agree`). What a cursor was
used for before does not matter to it (`Cursor.seek_uses`).
-/

namespace PhraseIndex

/-- The domains below a number, in order. -/
def Domain.below (n : Nat) : List Domain := (List.range n).map UInt32.ofNat

theorem Domain.mem_below (domain : Domain) : domain ∈ below UInt32.size :=
  List.mem_map.2 ⟨domain.toNat, List.mem_range.2 domain.toNat_lt, UInt32.ofNat_toNat⟩

theorem Domain.increasing_below : (below UInt32.size).Pairwise (· < ·) := by
  refine List.pairwise_map.2 (List.pairwise_lt_range.imp_of_mem ?_)
  intro m n hm hn hlt
  rw [UInt32.lt_iff_toNat_lt, UInt32.toNat_ofNat_of_lt' (List.mem_range.1 hm),
    UInt32.toNat_ofNat_of_lt' (List.mem_range.1 hn)]
  exact hlt

/-! ## The entries of a phrase -/

namespace Store

/-- The posting list of these words in one domain. -/
def lookup (s : Store) (words : Phrase) (domain : Domain) : Option PrefixEntry :=
  (s.get? (Key.source words domain).encode).map fun value => ⟨domain, value⟩

/-- The list has the entries of these words, one for each domain with a key, in the order of the domains. -/
structure Entries (s : Store) (words : Phrase) (entries : List PrefixEntry) : Prop where
  increasing : entries.Pairwise fun e e' => e.domain < e'.domain
  mem_iff {e : PrefixEntry} : e ∈ entries ↔ s.get? (Key.source words e.domain).encode = some e.value

variable {s : Store} {limit : PrefixLength} {words : Phrase} {domain : Domain} {entries others : List PrefixEntry}
  {e : PrefixEntry} {value : Bytes}

theorem lookup_eq_some_iff : s.lookup words domain = some e ↔
    e.domain = domain ∧ s.get? (Key.source words e.domain).encode = some e.value := by
  rw [lookup, Option.map_eq_some_iff]
  constructor
  · rintro ⟨value, hv, rfl⟩
    exact ⟨rfl, hv⟩
  · rintro ⟨rfl, hv⟩
    exact ⟨e.value, hv, rfl⟩

namespace Entries

theorem unique (h : s.Entries words entries) (h' : s.Entries words others) : entries = others := by
  have hantisymm : Std.Antisymm fun e e' : PrefixEntry => e.domain < e'.domain :=
    ⟨fun _ _ hlt hgt => absurd hlt (UInt32.lt_asymm hgt)⟩
  have hirrefl : Std.Irrefl fun e e' : PrefixEntry => e.domain < e'.domain := ⟨fun e => UInt32.lt_irrefl e.domain⟩
  exact h.increasing.eq_of_mem_iff h'.increasing fun e => h.mem_iff.trans h'.mem_iff.symm

/-- Looking up all domains finds the entries. -/
theorem ofDomains (s : Store) (words : Phrase) :
    s.Entries words ((Domain.below UInt32.size).filterMap (s.lookup words)) where
  increasing := by
    refine Domain.increasing_below.filterMap _ ?_
    intro d d' hlt e he e' he'
    rwa [(lookup_eq_some_iff.1 he).1, (lookup_eq_some_iff.1 he').1]
  mem_iff := by
    intro e
    rw [List.mem_filterMap]
    constructor
    · rintro ⟨d, -, he⟩
      exact (lookup_eq_some_iff.1 he).2
    · intro hv
      exact ⟨e.domain, Domain.mem_below _, lookup_eq_some_iff.2 ⟨rfl, hv⟩⟩

/-- The entry of a domain is found among them. -/
theorem find?_domain (h : s.Entries words entries) (domain : Domain) :
    (entries.find? fun e => e.domain == domain) = s.lookup words domain := by
  cases hfound : entries.find? fun e => e.domain == domain with
  | some e =>
    have hdomain : e.domain = domain := by simpa using List.find?_some hfound
    exact (lookup_eq_some_iff.2 ⟨hdomain, h.mem_iff.1 (List.mem_of_find?_eq_some hfound)⟩).symm
  | none =>
    rw [List.find?_eq_none] at hfound
    cases he : s.lookup words domain with
    | none => rfl
    | some e =>
      obtain ⟨hdomain, hv⟩ := lookup_eq_some_iff.1 he
      exact absurd (beq_iff_eq.2 hdomain) (hfound e (h.mem_iff.2 hv))

end Entries

namespace Addressed

/-- A record that starts like the words is their posting list in some domain. -/
theorem of_mem_scan (h : s.Addressed limit) (hw : words.length ≤ limit.toNat) {x : Bytes × Bytes}
    (hx : x ∈ s.scan (Key.scan words)) :
    (Key.source words (domainAt x)).WellFormed limit ∧ x.1 = (Key.source words (domainAt x)).encode := by
  obtain ⟨key, value⟩ := x
  obtain ⟨hstart, hv⟩ := mem_scan.1 hx
  have hkind : [RecordKind.source.tag] <+: key := List.IsPrefix.trans ⟨Key.phraseBytes words, rfl⟩ hstart
  obtain ⟨phrase, domain, hk, rfl⟩ := h key (Store.mem_keysOf.2 ⟨Key.kindOf?_eq_some_iff.2 hkind, by simp [hv]⟩)
  obtain ⟨d, hd⟩ := (Key.scan_prefix_encode_iff hw hk).1 hstart
  cases hd
  rw [domainAt_source]
  exact ⟨hk, rfl⟩

/-- A source key that the index has is well formed. -/
theorem wellFormed (h : s.Addressed limit) (hw : words.length ≤ limit.toNat)
    (hv : s.get? (Key.source words domain).encode = some value) : (Key.source words domain).WellFormed limit := by
  have hx : ((Key.source words domain).encode, value) ∈ s.scan (Key.scan words) :=
    mem_scan.2 ⟨List.prefix_append _ _, hv⟩
  have hk := (h.of_mem_scan hw hx).1
  rwa [domainAt_source] at hk

/-- No key stands for no words. -/
theorem lookup_nil (h : s.Addressed limit) (domain : Domain) : s.lookup [] domain = none := by
  cases he : s.lookup [] domain with
  | none => rfl
  | some e => exact absurd (h.wellFormed (Nat.zero_le _) (lookup_eq_some_iff.1 he).2).1 (by decide)

theorem entries_nil (h : s.Addressed limit) : s.Entries [] [] where
  increasing := List.Pairwise.nil
  mem_iff := by
    intro e
    refine iff_of_false nofun fun hv => ?_
    have he := lookup_eq_some_iff.2 ⟨rfl, hv⟩
    rw [h.lookup_nil] at he
    cases he

/-- Scanning finds the entries. -/
theorem entries_scan (h : s.Addressed limit) (hw : words.length ≤ limit.toNat) :
    s.Entries words ((s.scan (Key.scan words)).map fun x => ⟨domainAt x, x.2⟩) where
  increasing := by
    refine List.pairwise_map.2 ((s.sorted_toList.sublist List.filter_sublist).imp_of_mem ?_)
    intro x y hx hy hlt
    rwa [(h.of_mem_scan hw hx).2, (h.of_mem_scan hw hy).2, Key.source_lt_source_iff] at hlt
  mem_iff := by
    intro e
    rw [List.mem_map]
    constructor
    · rintro ⟨⟨key, value⟩, hx, rfl⟩
      have hkey := (h.of_mem_scan hw hx).2
      rw [← hkey]
      exact (mem_scan.1 hx).2
    · intro hv
      exact ⟨((Key.source words e.domain).encode, e.value), mem_scan.2 ⟨List.prefix_append _ _, hv⟩,
        by rw [domainAt_source]⟩

end Addressed

end Store

/-! ## What a cursor yields -/

namespace Cursor

variable {s s' : Store} {c c' : Cursor} {limit : PrefixLength} {only : Option Domain} {phrase : Phrase}
  {entries : List PrefixEntry} {entry : PrefixEntry}

/-- A cursor that was not used yet. -/
def fresh (limit : PrefixLength) (only : Option Domain) : Cursor := { prefixLength := limit, domain := only }

/-- The cursor after a number of steps. -/
def skip (s : Store) : Nat → Cursor → Cursor
  | 0, c => c
  | n + 1, c => skip s n (c.next s).2

/-- The steps of the cursor answer these entries in order, and none ever after. -/
def Yields (s : Store) (c : Cursor) (entries : List PrefixEntry) : Prop :=
  ∀ i, ((c.skip s i).next s).1 = .ok entries[i]?

theorem begin_begin (s s' : Store) (c : Cursor) : (c.begin s).begin s' = c.begin s := by
  obtain ⟨limit, only, state⟩ := c
  cases state <;> rfl

theorem next_begin (s : Store) (c : Cursor) : (c.begin s).next s = c.next s := by
  rw [next, begin_begin, next]

theorem yields_begin : (c.begin s).Yields s entries ↔ c.Yields s entries := by
  refine forall_congr' fun i => ?_
  cases i with
  | zero => rw [skip, skip, next_begin]
  | succ i => rw [skip, skip, next_begin]

theorem yields_nil (h : c.next s = (.ok none, c)) : c.Yields s [] := by
  intro i
  induction i with
  | zero => rw [skip, h, List.getElem?_nil]
  | succ i ih => rwa [skip, h]

theorem yields_cons (h : c.next s = (.ok (some entry), c')) (hc : c'.Yields s entries) :
    c.Yields s (entry :: entries) := by
  intro i
  cases i with
  | zero => rw [skip, h, List.getElem?_cons_zero]
  | succ i =>
    rw [skip, h, List.getElem?_cons_succ]
    exact hc i

theorem yields_scanning {rest : List (Bytes × Bytes)} {domain : Bytes × Bytes → Domain}
    (hkey : ∀ x ∈ rest, Key.domainOf limit x.1 = .ok (domain x)) :
    Yields s ⟨limit, only, .scanning rest⟩ (rest.map fun x => ⟨domain x, x.2⟩) := by
  induction rest with
  | nil => exact yields_nil rfl
  | cons x rest ih =>
    have hnext : next ⟨limit, only, .scanning (x :: rest)⟩ s =
        (.ok (some ⟨domain x, x.2⟩), ⟨limit, only, .scanning rest⟩) := by
      simp only [next, begin, step, hkey x List.mem_cons_self]
    exact yields_cons hnext (ih fun y hy => hkey y (List.mem_cons_of_mem _ hy))

theorem yields_single (entry : Option PrefixEntry) : Yields s ⟨limit, only, .single entry⟩ entry.toList := by
  cases entry with
  | none => exact yields_nil rfl
  | some entry =>
    have hnext : next ⟨limit, only, .single (some entry)⟩ s = (.ok (some entry), ⟨limit, only, .single none⟩) := rfl
    exact yields_cons hnext (yields_nil rfl)

/-! ## Where a seek leads -/

/-- A cursor that seeks no words finds nothing. -/
theorem begin_seek_nil (hnil : phrase.take limit.toNat = []) :
    (seek (fresh limit only) s phrase).begin s = ⟨limit, only, .single none⟩ := by
  simp only [seek, fresh, locate, hnil, List.isEmpty_nil, ↓reduceIte, begin]

/-- A cursor of one domain finds the entry of its domain. -/
theorem begin_seek_domain (h : s.Addressed limit) (phrase : Phrase) (domain : Domain) :
    (seek (fresh limit (some domain)) s phrase).begin s =
      ⟨limit, some domain, .single (s.lookup (phrase.take limit.toNat) domain)⟩ := by
  by_cases hnil : phrase.take limit.toNat = []
  · rw [begin_seek_nil hnil, hnil, h.lookup_nil]
  · rw [fresh, begin_seek_some s limit domain hnil, Store.lookup]

/-- A cursor over all domains stands before entries that it yields and takes up. -/
theorem exists_entries (h : s.Addressed limit) (phrase : Phrase) :
    ∃ entries, s.Entries (phrase.take limit.toNat) entries ∧
      ((fresh limit none).seek s phrase).Yields s entries ∧
      ∀ {β : Type} (f : β → PrefixEntry → Except Error β) (acc : β),
        (((fresh limit none).seek s phrase).foldEntries s f acc).1 = entries.foldlM f acc := by
  by_cases hnil : phrase.take limit.toNat = []
  · -- A scan of no words would read every source record, so the cursor does not begin one.
    refine ⟨[], ?_, ?_, ?_⟩
    · rw [hnil]
      exact h.entries_nil
    · rw [← yields_begin, begin_seek_nil hnil]
      exact yields_single none
    · intro β f acc
      rw [foldEntries, begin_seek_nil hnil, foldSteps_single]
      rfl
  · have hw : (phrase.take limit.toNat).length ≤ limit.toNat := List.length_take_le _ _
    have hbegin := begin_seek_none s limit hnil
    have hkey : ∀ x ∈ s.scan (Key.scan (phrase.take limit.toNat)), Key.domainOf limit x.1 = .ok (domainAt x) := by
      intro x hx
      obtain ⟨hk, hkey⟩ := h.of_mem_scan hw hx
      rw [hkey]
      exact Key.domainOf_source hk
    refine ⟨_, h.entries_scan hw, ?_, ?_⟩
    · rw [← yields_begin, fresh, hbegin]
      exact yields_scanning hkey
    · intro β f acc
      rw [foldEntries, fresh, hbegin, foldSteps_scanning hkey]

/-- Whatever domains a cursor reads, it takes up entries of its phrase in them. -/
theorem exists_foldEntries (h : s.Addressed limit) (phrase : Phrase) (only : Option Domain) :
    ∃ entries : List PrefixEntry,
      (∀ e ∈ entries, only.all (· == e.domain) = true ∧
        s.get? (Key.source (phrase.take limit.toNat) e.domain).encode = some e.value) ∧
      ∀ {β : Type} (f : β → PrefixEntry → Except Error β) (acc : β),
        (((fresh limit only).seek s phrase).foldEntries s f acc).1 = entries.foldlM f acc := by
  cases only with
  | none =>
    obtain ⟨entries, hentries, -, hfold⟩ := exists_entries h phrase
    exact ⟨entries, fun e he => ⟨rfl, hentries.mem_iff.1 he⟩, hfold⟩
  | some domain =>
    refine ⟨(s.lookup (phrase.take limit.toNat) domain).toList, ?_, ?_⟩
    · intro e he
      obtain ⟨hdomain, hv⟩ := Store.lookup_eq_some_iff.1 (Option.mem_toList.1 he)
      exact ⟨beq_iff_eq.2 hdomain.symm, hv⟩
    · intro β f acc
      rw [foldEntries, begin_seek_domain h, foldSteps_single]

/-! ## Uses before a seek -/

/-- A use of a cursor, with the index as it is then. -/
inductive Use
  | seek (s : Store) (phrase : Phrase)
  | next (s : Store)
  | count (s : Store)

/-- The use positions the cursor. -/
def Use.positions : Use → Bool
  | seek .. => true
  | next _ | count _ => false

/-- The cursor after a use. -/
def use (c : Cursor) : Use → Cursor
  | .seek s phrase => c.seek s phrase
  | .next s => (c.next s).2
  | .count s => (c.countRemaining s).2

/-- The cursor after some uses. -/
def useAll (c : Cursor) (uses : List Use) : Cursor := uses.foldl use c

theorem seek_begin (s s' : Store) (c : Cursor) (phrase : Phrase) : (c.begin s').seek s phrase = c.seek s phrase := by
  obtain ⟨limit, only, state⟩ := c
  cases state <;> rfl

theorem seek_step (s : Store) (c : Cursor) (phrase : Phrase) : c.step.2.seek s phrase = c.seek s phrase := by
  unfold step
  split
  · rfl
  · rfl
  · rfl
  · rfl
  · dsimp only
    split <;> rfl

theorem seek_foldSteps {β : Type} (f : β → PrefixEntry → Except Error β) (acc : β) (c : Cursor) (s : Store)
    (phrase : Phrase) : (c.foldSteps f acc).2.seek s phrase = c.seek s phrase := by
  fun_induction foldSteps f acc c with
  | case1 acc c e c' h => rw [← seek_step s c, h]
  | case2 acc c c' h => rw [← seek_step s c, h]
  | case3 acc c entry c' h e hf => rw [← seek_step s c, h]
  | case4 acc c entry c' h acc' hf ih => rw [ih, ← seek_step s c, h]

/-- A seek forgets what the cursor was used for. -/
theorem seek_use (s : Store) (c : Cursor) (u : Use) (phrase : Phrase) : (c.use u).seek s phrase = c.seek s phrase := by
  cases u with
  | seek s' other => rfl
  | next s' => rw [use, next, seek_step, seek_begin]
  | count s' => rw [use, countRemaining, foldEntries, seek_foldSteps, seek_begin]

theorem seek_uses (s : Store) (c : Cursor) (uses : List Use) (phrase : Phrase) :
    (c.useAll uses).seek s phrase = c.seek s phrase := by
  induction uses generalizing c with
  | nil => rfl
  | cons u uses ih => exact (ih (c.use u)).trans (seek_use s c u phrase)

theorem use_fresh {u : Use} (hu : u.positions = false) : (fresh limit only).use u = fresh limit only := by
  cases u with
  | seek s phrase => cases hu
  | next s => rfl
  | count s =>
    rw [use, countRemaining, foldEntries]
    unfold foldSteps
    rfl

/-- A cursor that was never positioned stays as it is. -/
theorem uses_fresh {uses : List Use} (hu : ∀ u ∈ uses, u.positions = false) :
    (fresh limit only).useAll uses = fresh limit only := by
  induction uses with
  | nil => rfl
  | cons u uses ih =>
    rw [useAll, List.foldl_cons, use_fresh (hu u List.mem_cons_self)]
    exact ih fun v hv => hu v (List.mem_cons_of_mem _ hv)

/-! ## The cursors agree -/

/-- The cursors of the domains count together what the cursor over all domains counts. -/
theorem count_eq_foldlM (h : s.Addressed limit) (phrase : Phrase) :
    (((fresh limit none).seek s phrase).countRemaining s).1 =
      (Domain.below UInt32.size).foldlM
        (fun total domain => (total + ·) <$> (((fresh limit (some domain)).seek s phrase).countRemaining s).1) 0 := by
  obtain ⟨entries, hentries, -, hfold⟩ := exists_entries h phrase
  -- The domains that have no key add nothing, and the others stand in the order of the entries.
  rw [countRemaining, hfold, hentries.unique (.ofDomains s _), List.foldlM_filterMap]
  congr 1
  funext total domain
  rw [countRemaining, foldEntries, begin_seek_domain h, foldSteps_single]
  cases s.lookup (phrase.take limit.toNat) domain with
  | none => rfl
  | some entry =>
    rw [Option.toList_some, List.foldlM_cons]
    dsimp only
    cases entry.count with
    | error e => rfl
    | ok n =>
      simp only [List.foldlM_nil, bind, Except.bind, pure, Except.pure, Functor.map, Except.map, Nat.zero_add]

/-- Domain cursors and the cursor over all domains agree. On an index with well-formed source keys the cursor over all
domains yields the entries of the leading words in the order of their domains, the cursor of a domain the entry of that
domain, and the counts of the domains make up the whole one, errors included. A seek behaves as on a cursor that was not
used before, and without one every use is an invalid argument. -/
theorem agree (h : s.Addressed limit) (phrase : Phrase) :
    (∃ entries, s.Entries (phrase.take limit.toNat) entries ∧ (phrase = [] → entries = []) ∧
      ((fresh limit none).seek s phrase).Yields s entries ∧
      ∀ domain, ((fresh limit (some domain)).seek s phrase).Yields s
        (entries.find? fun e => e.domain == domain).toList) ∧
    (((fresh limit none).seek s phrase).countRemaining s).1 =
      (Domain.below UInt32.size).foldlM
        (fun total domain => (total + ·) <$> (((fresh limit (some domain)).seek s phrase).countRemaining s).1) 0 ∧
    ∀ (only : Option Domain) (uses : List Use),
      (∀ s', ((fresh limit only).useAll uses).seek s' phrase = (fresh limit only).seek s' phrase) ∧
      ((∀ u ∈ uses, u.positions = false) → ∀ s', ∃ e, e.kind = .invalidArgument ∧
        (((fresh limit only).useAll uses).next s').1 = .error e ∧
        (((fresh limit only).useAll uses).countRemaining s').1 = .error e) := by
  refine ⟨?_, count_eq_foldlM h phrase, fun only uses => ⟨fun s' => seek_uses s' _ uses phrase, fun hu s' => ?_⟩⟩
  · obtain ⟨entries, hentries, hyields, -⟩ := exists_entries h phrase
    refine ⟨entries, hentries, ?_, hyields, fun domain => ?_⟩
    · rintro rfl
      rw [List.take_nil] at hentries
      exact hentries.unique h.entries_nil
    · rw [hentries.find?_domain, ← yields_begin, begin_seek_domain h]
      exact yields_single _
  · rw [uses_fresh hu]
    refine ⟨.cursorBeforeSeek, rfl, rfl, ?_⟩
    rw [countRemaining, foldEntries]
    unfold foldSteps
    rfl

/-- A phrase in two domains, its first word alone, and a phrase beside it. -/
def twoDomains : Store where
  index := Store.putAll ∅ [((Key.source [5, 9] 2).encode, (PostingList.ofList [⟨2, 20, 0⟩]).bytes),
    ((Key.source [5, 9] 1).encode, (PostingList.ofList [⟨1, 0, 0⟩, ⟨1, 10, 3⟩]).bytes),
    ((Key.source [5] 1).encode, (PostingList.ofList [⟨1, 0, 0⟩]).bytes), ((Key.source [5, 10] 2).encode, [])]

theorem addressed_twoDomains : twoDomains.Addressed 2 := by
  have hkeys : twoDomains.keysOf .source =
      [([5], 1), ([5, 9], 1), ([5, 9], 2), ([5, 10], 2)].map fun x => (Key.source x.1 x.2).encode := by decide +kernel
  exact Store.addressed_of_keysOf hkeys (by decide)

theorem agree_twoDomains :
    twoDomains.Addressed 2 ∧
    ((fresh 2 none).seek twoDomains [5, 9, 12]).Yields twoDomains
      [⟨1, (PostingList.ofList [⟨1, 0, 0⟩, ⟨1, 10, 3⟩]).bytes⟩, ⟨2, (PostingList.ofList [⟨2, 20, 0⟩]).bytes⟩] ∧
    ((fresh 2 (some 2)).seek twoDomains [5, 9, 12]).Yields twoDomains
      [⟨2, (PostingList.ofList [⟨2, 20, 0⟩]).bytes⟩] := by
  obtain ⟨⟨entries, hentries, -, hall, hone⟩, -, -⟩ := agree addressed_twoDomains [5, 9, 12]
  have hlisted : entries =
      [⟨1, (PostingList.ofList [⟨1, 0, 0⟩, ⟨1, 10, 3⟩]).bytes⟩, ⟨2, (PostingList.ofList [⟨2, 20, 0⟩]).bytes⟩] :=
    (hentries.unique (addressed_twoDomains.entries_scan (by decide))).trans (by decide +kernel)
  subst hlisted
  exact ⟨addressed_twoDomains, hall, hone 2⟩

end Cursor

end PhraseIndex
