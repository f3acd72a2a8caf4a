import PhraseIndex.Proofs.Keys
import PhraseIndex.Scan

/-!
# Stored values

The values of phrase records are lists of postings and counts. Whole postings are the bytes of one list
(`PostingList.decode_eq_ok_iff`), so lists and strings of whole postings correspond one to one
(`PostingList.bijective`), and a count has one written form beside no bytes at all (`Count.decode_eq_ok_iff`);
everything else is corruption (`PostingList.decode_eq_error_iff`, `Count.decode_eq_error_iff`). `IndexEntry.Describes`
says which entry a record stands for, without decoding it; decoding finds that entry or reports corruption
(`IndexEntry.decode?_eq_ok_iff`, `IndexEntry.kind_of_decode?`).
-/

namespace PhraseIndex

/-- Reading a number of as many bytes loses nothing. -/
theorem Bytes.be_eq_of_toNat {w n : Nat} {bs : Bytes} (hw : bs.length = w) (h : n = ofBE bs % Nat.pow 256 w) :
    be w n = bs := by
  have hlt := ofLE_lt bs.reverse
  rw [List.length_reverse, hw] at hlt
  rw [h, ofBE, Nat.mod_eq_of_lt hlt, ← hw]
  exact be_ofBE bs

/-! ## Postings -/

theorem Posting.encode_ofBytes {bs : Bytes} (h : bs.length = width) : (ofBytes bs).encode = bs := by
  unfold width at h
  have hd : Bytes.be 4 (ofBytes bs).domain.toNat = bs.take 4 :=
    Bytes.be_eq_of_toNat (by rw [List.length_take]; omega) (UInt32.toNat_ofNat' ..)
  have ho : Bytes.be 8 (ofBytes bs).offset.toUInt64.toNat = (bs.drop 4).take 8 :=
    Bytes.be_eq_of_toNat (by rw [List.length_take, List.length_drop]; omega) (UInt64.toNat_ofNat' ..)
  have hs : Bytes.be 2 (ofBytes bs).start.toNat = (bs.drop 12).take 2 :=
    Bytes.be_eq_of_toNat (by rw [List.length_take, List.length_drop]; omega) (UInt16.toNat_ofNat' ..)
  calc (ofBytes bs).encode = bs.take 4 ++ (bs.drop 4).take 8 ++ (bs.drop 12).take 2 := by rw [encode, hd, ho, hs]
    _ = bs.take (4 + 8) ++ (bs.drop 12).take 2 := by rw [List.take_add]
    _ = bs.take (12 + 2) := List.take_add.symm
    _ = bs := List.take_of_length_le (by omega)

namespace PostingList

variable {bs : Bytes} {ps : List Posting} {e : Error}

theorem flatMap_records {n : Nat} (h : n * Posting.width ≤ bs.length) :
    (records n bs).flatMap Posting.encode = bs.take (n * Posting.width) := by
  induction n generalizing bs with
  | zero => simp [records]
  | succ n ih =>
    rw [Nat.succ_mul] at h ⊢
    have hhead : (bs.take Posting.width).length = Posting.width := by
      rw [List.length_take]
      omega
    rw [records, List.flatMap_cons, Posting.encode_ofBytes hhead, ih (by rw [List.length_drop]; omega), Nat.add_comm,
      List.take_add]

/-- The bytes that can be decoded are those of the postings that are decoded. -/
theorem decode_eq_ok_iff : decode bs = .ok ps ↔ (ofList ps).bytes = bs := by
  constructor
  · intro h
    obtain ⟨n, hcount, h⟩ := bind_eq_ok_iff.1 h
    obtain ⟨_, hvalid, hn⟩ := bind_eq_ok_iff.1 hcount
    cases h
    cases hn
    rw [validate, require_eq_ok_iff, beq_iff_eq] at hvalid
    have hwhole : bs.length / Posting.width * Posting.width = bs.length :=
      Nat.div_mul_cancel (Nat.dvd_of_mod_eq_zero hvalid)
    rw [ofList, flatMap_records (Nat.le_of_eq hwhole), hwhole, List.take_length]
  · rintro rfl
    exact decode_ofList ps

theorem validate_eq_error_iff :
    validate bs = .error e ↔ bs.length % Posting.width ≠ 0 ∧ .postingsSize bs.length = e := by
  rw [validate, require_eq_error_iff, beq_eq_false_iff_ne]

theorem decode_eq_error_iff : decode bs = .error e ↔ bs.length % Posting.width ≠ 0 ∧ .postingsSize bs.length = e := by
  rw [← validate_eq_error_iff]
  cases hvalid : validate bs with
  | error e' => simp [decode, count, hvalid, bind, Except.bind]
  | ok u => simp [decode, count, hvalid, bind, Except.bind, pure, Except.pure]

/-- Counting agrees with decoding, also in what cannot be decoded. -/
theorem count_eq (bs : Bytes) : count bs = List.length <$> decode bs := by
  have hlength : ∀ (n : Nat) (bs : Bytes), (records n bs).length = n := by
    intro n
    induction n with
    | zero => intro bs; rfl
    | succ n ih => intro bs; rw [records, List.length_cons, ih]
  cases hcount : count bs with
  | error e => simp [decode, hcount, bind, Except.bind, Functor.map, Except.map]
  | ok n => simp [decode, hcount, hlength, bind, Except.bind, pure, Except.pure, Functor.map, Except.map]

/-! ### Lists that are built up -/

variable {bs' : Bytes} {ps' : List Posting}

/-- Adds a posting, as a whole or by its parts. -/
inductive Insertion
  | push (p : Posting)
  | append (domain : Domain) (offset : Offset) (start : Position)

namespace Insertion

def posting : Insertion → Posting
  | push p => p
  | append domain offset start => ⟨domain, offset, start⟩

end Insertion

def insert (l : PostingList) : Insertion → PostingList
  | .push p => l.push p
  | .append domain offset start => l.append domain offset start

/-- However postings are added, their bytes are those of the list of them. -/
theorem foldl_insert (calls : List Insertion) : calls.foldl insert empty = ofList (calls.map (·.posting)) := by
  have hpush : insert = fun l call => l.push call.posting := by
    funext l call
    cases call <;> rfl
  rw [hpush, ← foldl_push_empty, List.foldl_map]

theorem exists_decode_iff : (∃ ps, decode bs = .ok ps) ↔ bs.length % Posting.width = 0 := by
  cases hd : decode bs with
  | error e => simpa using (decode_eq_error_iff.1 hd).1
  | ok ps =>
    rw [← decode_eq_ok_iff.1 hd, length_bytes_ofList]
    exact iff_of_true ⟨ps, rfl⟩ (Nat.mul_mod_left _ _)

theorem bytes_ofList_append (ps ps' : List Posting) :
    (ofList (ps ++ ps')).bytes = (ofList ps).bytes ++ (ofList ps').bytes := List.flatMap_append

/-- Lists are joined by joining their bytes. -/
theorem decode_append (h : decode bs = .ok ps) (h' : decode bs' = .ok ps') : decode (bs ++ bs') = .ok (ps ++ ps') := by
  rw [decode_eq_ok_iff] at h h' ⊢
  rw [bytes_ofList_append, h, h']

/-- Postings and bytes of whole records correspond one to one. However postings are added to a list, they are decoded
from its bytes in their order, and adding again what was decoded gives the same bytes. Exactly the strings of whole
records can be decoded; counting agrees with decoding everywhere, joined strings hold the joined lists, and what is
decoded onto a list comes behind it, while a string that cannot be decoded leaves the list. -/
theorem bijective :
    (∀ calls : List Insertion, decode (calls.foldl insert empty).bytes = .ok (calls.map (·.posting))) ∧
    (∀ bs (calls : List Insertion), decode bs = .ok (calls.map (·.posting)) → (calls.foldl insert empty).bytes = bs) ∧
    (∀ bs, (∃ ps, decode bs = .ok ps) ↔ bs.length % 14 = 0) ∧
    (∀ bs, count bs = List.length <$> decode bs) ∧
    (∀ bs bs' ps ps', decode bs = .ok ps → decode bs' = .ok ps' → decode (bs ++ bs') = .ok (ps ++ ps')) ∧
    ∀ out bs, (∀ ps, decode bs = .ok ps → decodeOnto out bs = (.ok (), out ++ ps)) ∧
      (bs.length % 14 ≠ 0 → decodeOnto out bs = (.error (.postingsSize bs.length), out)) := by
  refine ⟨fun calls => ?built, fun bs calls h => ?again, fun bs => exists_decode_iff, count_eq,
    fun bs bs' ps ps' => decode_append, fun out bs => ⟨fun ps h => ?onto, fun h => ?left⟩⟩
  case built => rw [foldl_insert, decode_ofList]
  case again => rw [foldl_insert, decode_eq_ok_iff.1 h]
  case onto => rw [decodeOnto, h]
  case left => rw [decodeOnto, decode_eq_error_iff.2 ⟨h, rfl⟩]

/-- Extreme fields, and an offset of minus two. -/
def extremes : List Insertion := [.append 1 (-2) 3, .push ⟨4294967295, Int64.minValue, 65535⟩]

theorem bijective_extremes :
    decode (extremes.foldl insert empty).bytes = .ok (extremes.map (·.posting)) ∧
    (extremes.foldl insert empty).bytes = [0, 0, 0, 1, 255, 255, 255, 255, 255, 255, 255, 254, 0, 3,
      255, 255, 255, 255, 128, 0, 0, 0, 0, 0, 0, 0, 255, 255] ∧
    decode ((extremes.foldl insert empty).bytes ++ (extremes.foldl insert empty).bytes) =
      .ok (extremes.map (·.posting) ++ extremes.map (·.posting)) ∧
    decodeOnto [⟨7, 7, 7⟩] (extremes.foldl insert empty).bytes = (.ok (), ⟨7, 7, 7⟩ :: extremes.map (·.posting)) ∧
    decodeOnto [⟨7, 7, 7⟩] [0, 0, 0, 1] = (.error (.postingsSize 4), [⟨7, 7, 7⟩]) := by
  obtain ⟨hbuilt, hagain, -, -, hjoined, honto⟩ := bijective
  have hall := hbuilt extremes
  exact ⟨hall, hagain _ extremes (by decide), hjoined _ _ _ _ hall hall, (honto _ _).1 _ hall,
    (honto _ _).2 (by decide)⟩

end PostingList

/-! ## Counts -/

namespace Count

variable {bs : Bytes} {n : Int64} {e : Error}

theorem decode_eq_ok_iff : decode bs = .ok n ↔ encode n = bs ∨ bs = [] ∧ n = 0 := by
  constructor
  · intro h
    unfold decode at h
    split at h
    · next hl =>
      cases h
      exact .inr ⟨List.length_eq_zero_iff.1 hl, rfl⟩
    · next hl =>
      cases h
      refine .inl (Bytes.be_eq_of_toNat hl ?_)
      rw [UInt64.toUInt64_toInt64]
      exact UInt64.toNat_ofNat' ..
    · cases h
  · rintro (rfl | ⟨rfl, rfl⟩)
    · exact decode_encode n
    · rfl

theorem decode_eq_error_iff : decode bs = .error e ↔ (bs.length ≠ 0 ∧ bs.length ≠ 8) ∧ .countSize bs.length = e := by
  unfold decode
  split
  · simp [*]
  · simp [*]
  · next h0 h8 => exact ⟨fun h => ⟨⟨h0, h8⟩, Except.error.inj h⟩, fun h => congrArg Except.error h.2⟩

end Count

/-! ## Phrase records -/

/-- The key is that of a phrase record: its tag is two for postings and three for a count. -/
def Key.OfPhrase (key : Bytes) : Prop := key.head? = some 2 ∨ key.head? = some 3

theorem Key.ofPhrase_iff {key : Bytes} : OfPhrase key ↔ kindOf? key = some .source ∨ kindOf? key = some .target := by
  rw [kindOf?_eq_some_iff, kindOf?_eq_some_iff]
  cases key with
  | nil => simp [OfPhrase]
  | cons b key => simp [OfPhrase, RecordKind.tag, eq_comm]

namespace IndexEntry

/-- The key of the record that an entry comes from. -/
def key : IndexEntry → Key
  | source phrase domain _ => .source phrase domain
  | target phrase _ => .target phrase

/-- The bytes are the value of the entry; no bytes are a count of zero. -/
def Writes (value : Bytes) : IndexEntry → Prop
  | source _ _ postings => (PostingList.ofList postings).bytes = value
  | target _ count => Count.encode count = value ∨ value = [] ∧ count = 0

/-- The record with this key and value stands for the entry. -/
structure Describes (limit : PrefixLength) (key value : Bytes) (entry : IndexEntry) : Prop where
  wellFormed : entry.key.WellFormed limit
  encode : entry.key.encode = key
  writes : entry.Writes value

variable {limit : PrefixLength} {key value : Bytes} {entry other : IndexEntry} {e : Error}

/-- Phrase records are decoded, and no others. -/
theorem decode?_eq_none_iff : decode? limit key value = none ↔ ¬Key.OfPhrase key := by
  rw [Key.ofPhrase_iff]
  unfold decode?
  split
  · next hk => simp [hk]
  · next hk => simp [hk]
  · next hsource htarget => exact iff_of_true rfl fun hphrase => hphrase.elim hsource htarget

/-- What is decoded is the entry that the record stands for. -/
theorem decode?_eq_ok_iff : decode? limit key value = some (.ok entry) ↔ Describes limit key value entry := by
  constructor
  · intro h
    unfold decode? at h
    split at h
    · next hkind =>
      obtain ⟨postings, hpostings, h⟩ := bind_eq_ok_iff.1 (Option.some.inj h)
      obtain ⟨domain, hdomain, h⟩ := bind_eq_ok_iff.1 h
      obtain ⟨phrase, hphrase, h⟩ := bind_eq_ok_iff.1 h
      cases h
      obtain ⟨words, hk, rfl⟩ := Key.exists_source_of_domainOf hkind hdomain
      rw [Key.phraseOf_source hk] at hphrase
      cases hphrase
      exact ⟨hk, rfl, PostingList.decode_eq_ok_iff.1 hpostings⟩
    · next hkind =>
      obtain ⟨phrase, hphrase, h⟩ := bind_eq_ok_iff.1 (Option.some.inj h)
      obtain ⟨count, hcount, h⟩ := bind_eq_ok_iff.1 h
      cases h
      obtain ⟨hk, rfl⟩ := Key.target_of_phraseOf hkind hphrase
      exact ⟨hk, rfl, Count.decode_eq_ok_iff.1 hcount⟩
    · cases h
  · rintro ⟨hk, rfl, hvalue⟩
    cases entry with
    | source phrase domain postings =>
      have hpostings : PostingList.decode value = .ok postings := PostingList.decode_eq_ok_iff.2 hvalue
      simp only [decode?, IndexEntry.key, Key.kindOf?_encode, Key.kind, hpostings, Key.domainOf_source hk,
        Key.phraseOf_source hk]
      rfl
    | target phrase count =>
      have hcount : Count.decode value = .ok count := Count.decode_eq_ok_iff.2 hvalue
      simp only [decode?, IndexEntry.key, Key.kindOf?_encode, Key.kind, hcount, Key.phraseOf_target hk]
      rfl

/-- What cannot be decoded is corrupted. -/
theorem kind_of_decode? (h : decode? limit key value = some (.error e)) : e.kind = .corruption := by
  unfold decode? at h
  split at h
  · rcases bind_eq_error_iff.1 (Option.some.inj h) with h | ⟨postings, -, h⟩
    · rw [← (PostingList.decode_eq_error_iff.1 h).2]
      rfl
    rcases bind_eq_error_iff.1 h with h | ⟨domain, -, h⟩
    · exact Key.kind_of_domainOf h
    rcases bind_eq_error_iff.1 h with h | ⟨phrase, -, h⟩
    · exact Key.kind_of_phraseOf h
    · cases h
  · rcases bind_eq_error_iff.1 (Option.some.inj h) with h | ⟨phrase, -, h⟩
    · exact Key.kind_of_phraseOf h
    rcases bind_eq_error_iff.1 h with h | ⟨count, -, h⟩
    · rw [← (Count.decode_eq_error_iff.1 h).2]
      rfl
    · cases h
  · cases h

namespace Describes

theorem unique (h : Describes limit key value entry) (h' : Describes limit key value other) : entry = other := by
  have hdecode := decode?_eq_ok_iff.2 h
  rw [decode?_eq_ok_iff.2 h'] at hdecode
  exact (Except.ok.inj (Option.some.inj hdecode)).symm

end Describes

end IndexEntry

end PhraseIndex
