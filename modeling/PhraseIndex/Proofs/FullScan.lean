import Mathlib.Algebra.BigOperators.Ring.Finset
import PhraseIndex.Proofs.Cursors
import PhraseIndex.Proofs.Values

/-!
# The full scan

The full scan decodes every record on its way, the count queries look for the keys of one phrase. The steps of a scan
show one item for every phrase record (`Store.shows_scan`, `Scan.yields_entries`), the entry that the record stands for
or corruption. If none of them is an error, the source keys are well formed (`Store.Tells.addressed`) and the counts can
be read off the items (`Model.scan_agrees`).
-/

namespace PhraseIndex

/-! ## The steps of a scan -/

namespace Scan

/-- The scan after a number of steps. -/
def skip : Nat → Scan → Scan
  | 0, c => c
  | n + 1, c => skip n c.next.2

/-- The steps of the scan show these items in order, and nothing ever after. -/
def Yields (c : Scan) (items : List (Except Error IndexEntry)) : Prop := ∀ i, (c.skip i).next.1 = items[i]?

/-- A scan that shows nothing is at its end. -/
theorem entries_of_next_eq_none {c : Scan} (h : c.next.1 = none) : c.next.2.entries = [] := by
  obtain ⟨limit, rest⟩ := c
  induction rest with
  | nil => rfl
  | cons r rest ih =>
    obtain ⟨key, value⟩ := r
    cases hr : IndexEntry.decode? limit key value with
    | some entry => simp [next, nextOf, hr] at h
    | none =>
      simp only [next, nextOf, hr] at h ih ⊢
      exact ih h

/-- A step takes the first of what is left. -/
theorem next_eq (c : Scan) : c.next.1 = c.entries.head? ∧ c.next.2.entries = c.entries.tail := by
  have hsplit := c.entries_next
  cases hnext : c.next.1 with
  | none =>
    rw [hnext, entries_of_next_eq_none hnext] at hsplit
    rw [hsplit, entries_of_next_eq_none hnext]
    exact ⟨rfl, rfl⟩
  | some item =>
    rw [hnext] at hsplit
    rw [hsplit]
    exact ⟨rfl, rfl⟩

theorem entries_skip (n : Nat) (c : Scan) : (c.skip n).entries = c.entries.drop n := by
  induction n generalizing c with
  | zero => rfl
  | succ n ih => rw [skip, ih, c.next_eq.2, List.drop_tail]

theorem yields_entries (c : Scan) : c.Yields c.entries := by
  intro i
  rw [(next_eq _).1, entries_skip, List.head?_drop]

theorem prefixLength_skip (n : Nat) (c : Scan) : (c.skip n).prefixLength = c.prefixLength := by
  induction n generalizing c with
  | zero => rfl
  | succ n ih => exact ih c.next.2

end Scan

/-! ## What a scan shows -/

/-- The items are what a scan of the index has to show: one for each phrase record, in the order of the keys, and that
is the entry which the record stands for, or corruption if there is none. -/
structure Store.Shows (s : Store) (limit : PrefixLength) (items : List (Bytes × Except Error IndexEntry)) : Prop where
  increasing : items.Pairwise fun x y => x.1 < y.1
  mem_keys {key : Bytes} : key ∈ items.map (·.1) ↔ (s.get? key).isSome ∧ Key.OfPhrase key
  reads {key value : Bytes} {item : Except Error IndexEntry} : (key, item) ∈ items → s.get? key = some value →
    (∃ entry, item = .ok entry ∧ entry.Describes limit key value) ∨
      ∃ e, item = .error e ∧ e.kind = .corruption ∧ ∀ entry : IndexEntry, ¬entry.Describes limit key value

namespace Scan

/-- The items of a scan with their keys. -/
def items (c : Scan) : List (Bytes × Except Error IndexEntry) :=
  c.rest.filterMap fun x => (IndexEntry.decode? c.prefixLength x.1 x.2).map (x.1, ·)

theorem map_items (c : Scan) : c.items.map (·.2) = c.entries := by
  rw [items, entries, List.map_filterMap]
  apply List.filterMap_congr
  intro x _
  rw [Option.map_map]
  exact Option.map_id'

end Scan

namespace Store

variable {s : Store} {limit : PrefixLength}

theorem mem_items {key : Bytes} {item : Except Error IndexEntry} : (key, item) ∈ (Scan.create s limit).items ↔
    ∃ value, s.get? key = some value ∧ IndexEntry.decode? limit key value = some item := by
  rw [Scan.items, List.mem_filterMap]
  constructor
  · rintro ⟨⟨key', value⟩, hx, hitem⟩
    obtain ⟨item', hdecode, he⟩ := Option.map_eq_some_iff.1 hitem
    cases he
    exact ⟨value, mem_toList.1 hx, hdecode⟩
  · rintro ⟨value, hv, hdecode⟩
    exact ⟨(key, value), mem_toList.2 hv, Option.map_eq_some_iff.2 ⟨item, hdecode, rfl⟩⟩

/-- A scan shows what it has to. -/
theorem shows_scan (s : Store) (limit : PrefixLength) : s.Shows limit (Scan.create s limit).items where
  increasing := by
    refine s.sorted_toList.filterMap _ ?_
    intro x y hlt item hitem item' hitem'
    obtain ⟨-, -, rfl⟩ := Option.map_eq_some_iff.1 hitem
    obtain ⟨-, -, rfl⟩ := Option.map_eq_some_iff.1 hitem'
    exact hlt
  mem_keys := by
    intro key
    rw [List.mem_map]
    constructor
    · rintro ⟨⟨key', item⟩, hmem, rfl⟩
      obtain ⟨value, hv, hdecode⟩ := mem_items.1 hmem
      refine ⟨by simp [hv], not_not.1 fun hother => ?_⟩
      rw [IndexEntry.decode?_eq_none_iff.2 hother] at hdecode
      cases hdecode
    · rintro ⟨hsome, hphrase⟩
      obtain ⟨value, hv⟩ := Option.isSome_iff_exists.1 hsome
      cases hdecode : IndexEntry.decode? limit key value with
      | none => exact absurd hphrase (IndexEntry.decode?_eq_none_iff.1 hdecode)
      | some item => exact ⟨(key, item), mem_items.2 ⟨value, hv, hdecode⟩, rfl⟩
  reads := by
    intro key value item hmem hv
    obtain ⟨value', hv', hdecode⟩ := mem_items.1 hmem
    cases hv.symm.trans hv'
    cases item with
    | ok entry => exact .inl ⟨entry, rfl, IndexEntry.decode?_eq_ok_iff.1 hdecode⟩
    | error e =>
      refine .inr ⟨e, rfl, IndexEntry.kind_of_decode? hdecode, fun entry hentry => ?_⟩
      rw [IndexEntry.decode?_eq_ok_iff.2 hentry] at hdecode
      cases hdecode

end Store

/-! ## Counting what a scan shows -/

/-- The entries are all that the phrase records of the index stand for, in the order of their keys. -/
structure Store.Tells (s : Store) (limit : PrefixLength) (entries : List IndexEntry) : Prop where
  increasing : entries.Pairwise fun e e' => e.key.encode < e'.key.encode
  sound {e : IndexEntry} : e ∈ entries →
    ∃ value, s.get? e.key.encode = some value ∧ e.Describes limit e.key.encode value
  complete {key value : Bytes} : s.get? key = some value → Key.OfPhrase key → ∃ e ∈ entries, e.Describes limit key value

/-- The values of the index can be held in memory. -/
def Store.Bounded (s : Store) : Prop := ∀ {key value : Bytes}, s.get? key = some value → value.length < 2 ^ 63

namespace Store.Shows

variable {s : Store} {limit : PrefixLength} {items : List (Bytes × Except Error IndexEntry)}
  {entries : List IndexEntry}

/-- An item without an error has the key of its entry. -/
theorem eq_of_ok (h : s.Shows limit items) {key : Bytes} {entry : IndexEntry} (hx : (key, .ok entry) ∈ items) :
    ∃ value, s.get? key = some value ∧ entry.Describes limit key value := by
  obtain ⟨value, hv⟩ := Option.isSome_iff_exists.1 (h.mem_keys.1 (List.mem_map.2 ⟨_, hx, rfl⟩)).1
  rcases h.reads hx hv with ⟨entry', he, hdescribes⟩ | ⟨e, he, -⟩
  · cases he
    exact ⟨value, hv, hdescribes⟩
  · cases he

/-- Items without errors are the entries with their keys. -/
theorem eq_map (h : s.Shows limit items) (hok : items.map (·.2) = entries.map .ok) :
    items = entries.map fun e => (e.key.encode, .ok e) := by
  have hkey : ∀ x ∈ items, ∀ e, x.2 = .ok e → x = (e.key.encode, .ok e) := by
    rintro ⟨key, item⟩ hx e rfl
    obtain ⟨value, -, hdescribes⟩ := h.eq_of_ok hx
    rw [hdescribes.encode]
  -- A part of the items is not what a scan shows; the induction needs their keys only.
  clear h
  induction items generalizing entries with
  | nil =>
    cases entries with
    | nil => rfl
    | cons e entries => cases hok
  | cons x items ih =>
    cases entries with
    | nil => cases hok
    | cons e entries =>
      obtain ⟨hx, hok⟩ := List.cons.inj hok
      rw [List.map_cons, hkey x List.mem_cons_self e hx, ih hok fun y hy => hkey y (List.mem_cons_of_mem _ hy)]

/-- A scan without errors shows all that the records stand for. -/
theorem tells (h : s.Shows limit items) (hok : items.map (·.2) = entries.map .ok) :
    s.Tells limit entries where
  increasing := by
    have hpairs := h.increasing
    rw [h.eq_map hok] at hpairs
    exact (List.pairwise_map (R := fun x y : Bytes × Except Error IndexEntry => x.1 < y.1)).1 hpairs
  sound := by
    intro e he
    have hx : (e.key.encode, .ok e) ∈ items := by
      rw [h.eq_map hok]
      exact List.mem_map.2 ⟨e, he, rfl⟩
    exact h.eq_of_ok hx
  complete := by
    intro key value hv hphrase
    obtain ⟨⟨key', item⟩, hx, rfl⟩ := List.mem_map.1 (h.mem_keys.2 ⟨by simp [hv], hphrase⟩)
    have hx' := hx
    rw [h.eq_map hok] at hx'
    obtain ⟨e, he, heq⟩ := List.mem_map.1 hx'
    cases heq
    obtain ⟨value', hv', hdescribes⟩ := h.eq_of_ok hx
    cases hv.symm.trans hv'
    exact ⟨e, he, hdescribes⟩

end Store.Shows

namespace IndexEntry

/-- The posting list of these words that the entry comes from. -/
def listing (words : Phrase) : IndexEntry → Option PrefixEntry
  | source phrase domain postings =>
    if phrase = words then some ⟨domain, (PostingList.ofList postings).bytes⟩ else none
  | target .. => none

variable {words : Phrase} {entry : IndexEntry} {x : PrefixEntry}

theorem listing_eq_some_iff : listing words entry = some x ↔
    ∃ postings, entry = source words x.domain postings ∧ (PostingList.ofList postings).bytes = x.value := by
  cases entry with
  | source phrase domain postings =>
    by_cases hp : phrase = words
    · rw [listing, if_pos hp]
      constructor
      · rintro ⟨⟩
        exact ⟨postings, by rw [hp], rfl⟩
      · rintro ⟨postings', he, hvalue⟩
        cases he
        rw [hvalue]
    · rw [listing, if_neg hp]
      refine iff_of_false nofun ?_
      rintro ⟨postings', he, -⟩
      cases he
      exact hp rfl
  | target phrase count => simp [listing]

/-- Counting the posting lists of some words counts their entries' postings. -/
theorem foldlM_count (words : Phrase) (entries : List IndexEntry) (total : Nat) :
    (entries.filterMap (listing words)).foldlM
      (fun total (entry : PrefixEntry) => (do pure (total + (← entry.count)) : Except Error Nat)) total =
      .ok (total + ((entries.filter fun e => e.isSource && e.phrase == words).map fun e => e.postings.length).sum) := by
  induction entries generalizing total with
  | nil => rfl
  | cons entry entries ih =>
    cases entry with
    | source phrase domain postings =>
      by_cases hp : phrase = words
      · have hfirst : listing words (source phrase domain postings) =
            some ⟨domain, (PostingList.ofList postings).bytes⟩ := if_pos hp
        have hcounted : (do pure (total + (← PrefixEntry.count ⟨domain, (PostingList.ofList postings).bytes⟩)) :
            Except Error Nat) = .ok (total + postings.length) := by
          rw [PrefixEntry.count, PostingList.count_ofList]
          rfl
        rw [List.filterMap_cons_some hfirst, List.foldlM_cons, hcounted]
        refine (ih (total + postings.length)).trans ?_
        simp [isSource, IndexEntry.phrase, IndexEntry.postings, hp, Nat.add_assoc]
      · have hfirst : listing words (source phrase domain postings) = none := if_neg hp
        rw [List.filterMap_cons_none hfirst, ih]
        simp [isSource, IndexEntry.phrase, hp]
    | target phrase count =>
      rw [List.filterMap_cons_none rfl, ih]
      simp [isSource]

end IndexEntry

namespace Store.Tells

variable {s : Store} {limit : PrefixLength} {entries : List IndexEntry} {words : Phrase} {m : Model}

/-- If every phrase record is read, source keys are well formed. -/
theorem addressed (h : s.Tells limit entries) : s.Addressed limit := by
  intro key hkey
  obtain ⟨hkind, hsome⟩ := Store.mem_keysOf.1 hkey
  obtain ⟨value, hv⟩ := Option.isSome_iff_exists.1 hsome
  obtain ⟨e, -, hdescribes⟩ := h.complete hv (Key.ofPhrase_iff.2 (.inl hkind))
  have hk := hdescribes.wellFormed
  rw [← hdescribes.encode, Key.kindOf?_encode] at hkind
  cases e with
  | source phrase domain postings => exact ⟨phrase, domain, hk, hdescribes.encode⟩
  | target phrase count => cases hkind

/-- The posting lists of some words are those of their entries. -/
theorem entriesOf (h : s.Tells limit entries) (hw : 1 ≤ words.length ∧ words.length ≤ limit.toNat) :
    s.Entries words (entries.filterMap (IndexEntry.listing words)) where
  increasing := by
    refine h.increasing.filterMap _ ?_
    intro e e' hlt x hx x' hx'
    obtain ⟨postings, rfl, -⟩ := IndexEntry.listing_eq_some_iff.1 hx
    obtain ⟨postings', rfl, -⟩ := IndexEntry.listing_eq_some_iff.1 hx'
    exact Key.source_lt_source_iff.1 hlt
  mem_iff := by
    intro x
    rw [List.mem_filterMap]
    constructor
    · rintro ⟨e, he, hx⟩
      obtain ⟨postings, rfl, hvalue⟩ := IndexEntry.listing_eq_some_iff.1 hx
      obtain ⟨value, hv, hdescribes⟩ := h.sound he
      rw [← hvalue, hdescribes.writes]
      exact hv
    · intro hv
      have hkind : Key.kindOf? (Key.source words x.domain).encode = some .source := Key.kindOf?_encode _
      obtain ⟨e, he, hdescribes⟩ := h.complete hv (Key.ofPhrase_iff.2 (.inl hkind))
      have hkey : e.key = .source words x.domain := Key.encode_inj hdescribes.wellFormed hw hdescribes.encode
      refine ⟨e, he, IndexEntry.listing_eq_some_iff.2 ?_⟩
      cases e with
      | source phrase domain postings =>
        cases hkey
        exact ⟨postings, rfl, hdescribes.writes⟩
      | target phrase count => cases hkey

/-- The source count of a phrase is the number of postings in its entries. -/
theorem sourceCount (h : s.Tells m.config.prefixLength entries) (h1 : 1 ≤ words.length)
    (hl : words.length ≤ m.config.prefixLength.toNat) : m.sourceCount s words =
      .ok ((entries.filter fun e => e.isSource && e.phrase == words).map fun e => e.postings.length).sum := by
  -- The cursor and the scan come to the same list of entries, since there is one only.
  obtain ⟨listed, hlisted, -, hfold⟩ := Cursor.exists_entries h.addressed words
  rw [List.take_of_length_le hl] at hlisted
  have hcount := hfold (fun total (entry : PrefixEntry) => (do pure (total + (← entry.count)) : Except Error Nat)) 0
  rw [hlisted.unique (h.entriesOf ⟨h1, hl⟩), IndexEntry.foldlM_count, Nat.zero_add] at hcount
  exact hcount

/-- The target count of a phrase is that of its entry. -/
theorem targetCount (h : s.Tells limit entries) (hw : 1 ≤ words.length ∧ words.length ≤ limit.toNat) :
    Model.targetCount s words =
      .ok (((entries.find? fun e => !e.isSource && e.phrase == words).map IndexEntry.count).getD 0).toInt.toNat := by
  cases hfound : entries.find? fun e => !e.isSource && e.phrase == words with
  | some e =>
    obtain ⟨value, hv, hdescribes⟩ := h.sound (List.mem_of_find?_eq_some hfound)
    have hmatch := List.find?_some hfound
    cases e with
    | source phrase domain postings => cases hmatch
    | target phrase count =>
      obtain rfl : phrase = words := by simpa [IndexEntry.isSource, IndexEntry.phrase] using hmatch
      have hcount : Count.decode value = .ok count := Count.decode_eq_ok_iff.2 hdescribes.writes
      rw [IndexEntry.key] at hv
      rw [Model.targetCount, hv]
      simp only [hcount]
      rfl
  | none =>
    have hnone : s.get? (Key.target words).encode = none := by
      cases hv : s.get? (Key.target words).encode with
      | none => rfl
      | some value =>
        have hkind : Key.kindOf? (Key.target words).encode = some .target := Key.kindOf?_encode _
        obtain ⟨e, he, hdescribes⟩ := h.complete hv (Key.ofPhrase_iff.2 (.inr hkind))
        have hkey : e.key = .target words := Key.encode_inj hdescribes.wellFormed hw hdescribes.encode
        cases e with
        | source phrase domain postings => cases hkey
        | target phrase count =>
          cases hkey
          exact absurd (by simp [IndexEntry.isSource, IndexEntry.phrase]) (List.find?_eq_none.1 hfound _ he)
    rw [Model.targetCount, hnone]
    rfl

/-- As long as the lists can be held in memory, the counts of the entries are those numbers of postings. -/
theorem sum_count (h : s.Tells limit entries) (hb : s.Bounded) (words : Phrase) :
    ((entries.filter fun e => e.isSource && e.phrase == words).map fun e => e.count.toInt).sum =
      ((entries.filter fun e => e.isSource && e.phrase == words).map fun e => e.postings.length).sum := by
  rw [Nat.cast_list_sum, List.map_map]
  congr 1
  apply List.map_congr_left
  intro e he
  obtain ⟨hmem, hmatch⟩ := List.mem_filter.1 he
  obtain ⟨value, hv, hdescribes⟩ := h.sound hmem
  cases e with
  | source phrase domain postings =>
    have hlength := congrArg List.length hdescribes.writes
    rw [PostingList.length_bytes_ofList, Posting.width] at hlength
    have hvalue := hb hv
    exact Int64.toInt_ofNat_of_lt (by omega)
  | target phrase count => cases hmatch

end Store.Tells

namespace Model

/-- The full scan and the counts agree. Whatever the index holds, a scan shows one item for each phrase record, in the
order of the keys, and after a restart all of them again. If none of the items is an error, the counts of every phrase
up to the prefix length are those of its entries: the postings of all its source entries, which is the sum of their
counts, and the count of its target entry. -/
theorem scan_agrees (m : Model) (s : Store) :
    (∃ items, s.Shows m.config.prefixLength items ∧ (m.scan s).Yields (items.map (·.2)) ∧
      ∀ entries : List IndexEntry, items.map (·.2) = entries.map .ok →
        ∀ phrase : Phrase, 1 ≤ phrase.length → phrase.length ≤ m.config.prefixLength.toNat →
          let sources := entries.filter fun e => e.isSource && e.phrase == phrase
          let target := entries.find? fun e => !e.isSource && e.phrase == phrase
          m.count s .source phrase = .ok (max 1 (sources.map fun e => e.postings.length).sum) ∧
          (s.Bounded → m.count s .source phrase = .ok
            (max 1 (sources.map fun e : IndexEntry => e.count.toInt).sum).toNat) ∧
          m.count s .target phrase = .ok (max 1 ((target.map IndexEntry.count).getD 0).toInt).toNat) ∧
    ∀ n s', ((m.scan s).skip n).restart s' = m.scan s' := by
  refine ⟨⟨(m.scan s).items, s.shows_scan _, ?_, ?_⟩, ?_⟩
  · rw [Scan.map_items]
    exact Scan.yields_entries _
  · intro entries hok phrase h1 hl sources target
    have htells := (s.shows_scan m.config.prefixLength).tells hok
    have hlooked : (phrase.isEmpty || decide (m.config.prefixLength.toNat < phrase.length)) = false := by
      rw [Bool.or_eq_false_iff, List.isEmpty_eq_false_iff, ← List.length_pos_iff, decide_eq_false_iff_not, Nat.not_lt]
      exact ⟨h1, hl⟩
    have hsource : m.count s .source phrase = .ok (max 1 (sources.map fun e => e.postings.length).sum) := by
      rw [count, hlooked, htells.sourceCount h1 hl]
      rfl
    refine ⟨hsource, fun hb => ?_, ?_⟩
    · have htotal : (sources.map fun e => e.count.toInt).sum = (sources.map fun e => e.postings.length).sum :=
        htells.sum_count hb phrase
      rw [hsource, htotal]
      congr 1
      omega
    · rw [count, hlooked, htells.targetCount ⟨h1, hl⟩]
      change Except.ok (max 1 ((target.map IndexEntry.count).getD 0).toInt.toNat) = _
      congr 1
      omega
  · intro n s'
    rw [Scan.restart, Scan.prefixLength_skip]
    rfl

/-- A phrase in two domains, a count of two, and records that a scan passes over. -/
def mixedKinds : Store where
  index := Store.putAll ∅ [(Key.streams.encode, [1]), ((Key.deletion 4).encode, []), ([127, 1, 2, 3], [9]),
    ((Key.source [5, 9, 12] 2).encode, (PostingList.ofList [⟨2, 20, 0⟩]).bytes),
    ((Key.source [5, 9, 12] 1).encode, (PostingList.ofList [⟨1, 0, 0⟩, ⟨1, 10, 3⟩]).bytes),
    ((Key.target [20, 21]).encode, Count.encode 2)]

/-- An index with phrases of up to three words, without sentences. -/
def bare : Model where
  path := ⟨["model"], "model"⟩
  config := { prefixLength := 3 }
  corpus := ⟨⟨["model", "storage"], "model/storage"⟩, 1, [], ⟨0, 0, 0, 0⟩⟩
  streams := .empty
  sweeper := { prefixLength := 3, batchSize := 1 }

theorem scan_agrees_mixedKinds :
    (bare.scan mixedKinds).Yields
      [.ok (.source [5, 9, 12] 1 [⟨1, 0, 0⟩, ⟨1, 10, 3⟩]), .ok (.source [5, 9, 12] 2 [⟨2, 20, 0⟩]),
        .ok (.target [20, 21] 2)] ∧
    mixedKinds.Bounded ∧
    bare.count mixedKinds .source [5, 9, 12] = .ok 3 ∧ bare.count mixedKinds .target [20, 21] = .ok 2 ∧
    bare.count mixedKinds .target [5] = .ok 1 := by
  obtain ⟨⟨items, -, hyields, hcounts⟩, -⟩ := scan_agrees bare mixedKinds
  have hitems : items.map (·.2) =
      [.source [5, 9, 12] 1 [⟨1, 0, 0⟩, ⟨1, 10, 3⟩], .source [5, 9, 12] 2 [⟨2, 20, 0⟩],
        .target [20, 21] 2].map .ok := by
    have hentries : (bare.scan mixedKinds).entries =
        [.source [5, 9, 12] 1 [⟨1, 0, 0⟩, ⟨1, 10, 3⟩], .source [5, 9, 12] 2 [⟨2, 20, 0⟩],
          .target [20, 21] 2].map .ok := by
      rfl
    rw [← hentries]
    exact List.ext_getElem? fun i => (hyields i).symm.trans (Scan.yields_entries _ i)
  rw [hitems] at hyields
  have hbounded : mixedKinds.Bounded := by
    intro key value hv
    have hall : ∀ x ∈ mixedKinds.toList, x.2.length < 2 ^ 63 := by decide +kernel
    exact hall (key, value) (Store.mem_toList.2 hv)
  exact ⟨hyields, hbounded, (hcounts _ hitems [5, 9, 12] (by decide) (by decide)).2.1 hbounded,
    (hcounts _ hitems [20, 21] (by decide) (by decide)).2.2, (hcounts _ hitems [5] (by decide) (by decide)).2.2⟩

end Model

end PhraseIndex
