import PhraseIndex.Key
import PhraseIndex.Proofs.Results

/-!
# Well-formed keys

The keys of an index with a prefix length are those whose phrase has between one and that many words
(`Key.WellFormed`). On them encoding loses nothing (`Key.encode_inj`), the readers give back the phrase and the domain
(`Key.domainOf_source`, `Key.phraseOf_source`, `Key.phraseOf_target`, `Key.domainOf_deletion`), and `Key.scan phrase`
starts exactly the source keys of that phrase (`Key.scan_prefix_encode_iff`). Bytes that can be read are such a key
(`Key.exists_source_of_domainOf`, `Key.target_of_phraseOf`, `Key.deletion_of_domainOf`), and all others are corruption
(`Key.kind_of_domainOf`, `Key.kind_of_phraseOf`).
-/

namespace PhraseIndex.Key

/-- The keys that an index with this prefix length can hold. -/
def WellFormed (limit : PrefixLength) : Key → Prop
  | source phrase _ | target phrase => 1 ≤ phrase.length ∧ phrase.length ≤ limit.toNat
  | streams | manifest | deletion _ => True

variable {limit : PrefixLength} {phrase other : Phrase} {domain : Domain}

/-! ## The parts of a key -/

theorem wordBytes_inj {v w : Word} (h : wordBytes v = wordBytes w) : v = w := by
  rw [← wordOf_wordBytes v, h, wordOf_wordBytes]

theorem length_flatMap_wordBytes (phrase : Phrase) : (phrase.flatMap wordBytes).length = 4 * phrase.length := by
  induction phrase with
  | nil => rfl
  | cons w phrase ih =>
    rw [List.flatMap_cons, List.length_append, ih, length_wordBytes, List.length_cons]
    omega

/-- Words take four bytes each, so a row of them splits in one way only. -/
theorem flatMap_wordBytes_inj (h : phrase.flatMap wordBytes = other.flatMap wordBytes) : phrase = other := by
  have hlen : phrase.length = other.length := by
    have := congrArg List.length h
    simp only [length_flatMap_wordBytes] at this
    omega
  have hp := wordsOf_flatMap phrase []
  have ho := wordsOf_flatMap other []
  rw [← hp, ← ho, hlen, h]

/-- A length up to the prefix length fits in the length byte. -/
theorem toNat_lengthByte {n : Nat} (h : n ≤ limit.toNat) : (UInt8.ofNat n).toNat = n := by
  have hl := limit.toNat_lt
  rw [UInt8.toNat_ofNat']
  exact Nat.mod_eq_of_lt (by omega)

theorem lengthByte_inj {m n : Nat} (hm : m ≤ limit.toNat) (hn : n ≤ limit.toNat)
    (h : UInt8.ofNat m = UInt8.ofNat n) : m = n := by
  rw [← toNat_lengthByte hm, h, toNat_lengthByte hn]

theorem phraseBytes_inj {r s : Bytes} (hp : phrase.length ≤ limit.toNat) (ho : other.length ≤ limit.toNat)
    (h : phraseBytes phrase ++ r = phraseBytes other ++ s) : phrase = other ∧ r = s := by
  simp only [phraseBytes, List.cons_append, List.cons.injEq] at h
  have hlen := lengthByte_inj hp ho h.1
  obtain ⟨hwords, hrest⟩ := List.append_inj h.2 (by rw [length_flatMap_wordBytes, length_flatMap_wordBytes, hlen])
  exact ⟨flatMap_wordBytes_inj hwords, hrest⟩

/-! ## Encoding loses nothing -/

theorem kind_eq_of_encode_eq {k l : Key} (h : k.encode = l.encode) : k.kind = l.kind := by
  have hk := kindOf?_encode k
  rw [h, kindOf?_encode] at hk
  exact (Option.some.inj hk).symm

/-- Well-formed keys with the same bytes are the same key. -/
theorem encode_inj {k l : Key} (hk : k.WellFormed limit) (hl : l.WellFormed limit) (h : k.encode = l.encode) :
    k = l := by
  have hkind := kind_eq_of_encode_eq h
  cases k with
  | streams => cases l <;> simp_all [kind]
  | manifest => cases l <;> simp_all [kind]
  | source p d =>
    cases l with
    | source q e =>
      simp only [encode, scan, List.cons_append, List.cons.injEq, true_and] at h
      obtain ⟨rfl, hd⟩ := phraseBytes_inj hk.2 hl.2 h
      rw [wordBytes_inj hd]
    | _ => simp [kind] at hkind
  | target p =>
    cases l with
    | target q =>
      simp only [encode, List.cons.injEq, true_and] at h
      obtain ⟨rfl, -⟩ := phraseBytes_inj (r := []) (s := []) hk.2 hl.2 (by simpa using h)
      rfl
    | _ => simp [kind] at hkind
  | deletion d =>
    cases l with
    | deletion e =>
      simp only [encode, List.cons.injEq, true_and] at h
      rw [wordBytes_inj h]
    | _ => simp [kind] at hkind

/-- A marker is no other key's bytes, well formed or not. -/
theorem deletion_encode_inj {d e : Domain} (h : (deletion d).encode = (deletion e).encode) : d = e := by
  simp only [encode, List.cons.injEq, true_and] at h
  exact wordBytes_inj h

/-! ## Reading a well-formed key -/

theorem phraseSection_encode (tag : UInt8) (trailer : Bytes) (h : 1 ≤ phrase.length ∧ phrase.length ≤ limit.toNat) :
    phraseSection limit (tag :: phraseBytes phrase ++ trailer) trailer.length = .ok phrase := by
  have hn := toNat_lengthByte h.2
  have h0 : UInt8.ofNat phrase.length ≠ 0 := by
    intro e
    rw [e] at hn
    simp at hn
    omega
  have hle : UInt8.ofNat phrase.length ≤ limit := by
    rw [UInt8.le_iff_toNat_le, hn]
    exact h.2
  have hsize : (tag :: phraseBytes phrase ++ trailer).length =
      2 + 4 * (UInt8.ofNat phrase.length).toNat + trailer.length := by
    rw [hn]
    simp only [phraseBytes, List.length_append, List.length_cons, length_flatMap_wordBytes]
    omega
  have hwords := wordsOf_flatMap phrase trailer
  simp only [phraseSection, hsize]
  simp only [phraseBytes, List.cons_append, List.drop_succ_cons, List.drop_zero, require, bne_iff_ne, ne_eq, h0,
    not_false_eq_true, hle, decide_true, Bool.and_true, beq_self_eq_true, ↓reduceIte, hn, hwords]
  rfl

theorem phraseOf_source (h : (source phrase domain).WellFormed limit) :
    phraseOf limit (source phrase domain).encode = .ok phrase := by
  have hs := phraseSection_encode RecordKind.source.tag (wordBytes domain) h
  rw [length_wordBytes] at hs
  exact hs

theorem phraseOf_target (h : (target phrase).WellFormed limit) :
    phraseOf limit (target phrase).encode = .ok phrase := by
  have hs := phraseSection_encode RecordKind.target.tag [] h
  rw [List.append_nil] at hs
  exact hs

theorem domainOf_source (h : (source phrase domain).WellFormed limit) :
    domainOf limit (source phrase domain).encode = .ok domain := by
  have hs := phraseSection_encode RecordKind.source.tag (wordBytes domain) h
  rw [length_wordBytes] at hs
  have hd : (source phrase domain).encode.drop ((source phrase domain).encode.length - 4) = wordBytes domain := by
    have hl : (source phrase domain).encode.length - 4 = (scan phrase).length := by
      simp only [encode, List.length_append, length_wordBytes]
      omega
    rw [hl]
    exact List.drop_left
  have hk : kindOf? (source phrase domain).encode = some .source := kindOf?_encode _
  unfold domainOf
  rw [hk]
  simp only
  rw [hd, wordOf_wordBytes]
  change (phraseSection limit (RecordKind.source.tag :: phraseBytes phrase ++ wordBytes domain) 4 >>= _) = _
  rw [hs]
  rfl

theorem domainOf_deletion (limit : PrefixLength) (domain : Domain) :
    domainOf limit (deletion domain).encode = .ok domain := by
  have hk : kindOf? (deletion domain).encode = some .deletion := kindOf?_encode _
  have hd : wordOf ((deletion domain).encode.drop 1) = domain := wordOf_wordBytes domain
  have hl : (deletion domain).encode.length = 5 := by simp [encode]
  unfold domainOf
  rw [hk]
  simp only [hl, hd]
  rfl

/-! ## Keys that can be read -/

theorem kindOf?_eq_some_iff {key : Bytes} {kind : RecordKind} : kindOf? key = some kind ↔ [kind.tag] <+: key := by
  cases key with
  | nil => simp [kindOf?]
  | cons b key =>
    constructor
    · intro h
      have hb := RecordKind.tag_ofTag? h
      simp [hb]
    · intro h
      have hb : kind.tag = b := by simpa using h
      simp only [kindOf?, List.head?_cons, Option.bind_eq_bind, Option.bind_some, ← hb]
      exact RecordKind.ofTag?_tag kind

theorem wordBytes_wordOf {bs : Bytes} (h : bs.length = 4) : wordBytes (wordOf bs) = bs := by
  have hlt := Bytes.ofLE_lt bs.reverse
  rw [List.length_reverse, h] at hlt
  have hnum : (wordOf bs).toNat = Bytes.ofBE bs := by
    rw [wordOf, UInt32.toNat_ofNat']
    exact Nat.mod_eq_of_lt hlt
  rw [wordBytes, hnum, ← h]
  exact Bytes.be_ofBE bs

theorem length_wordsOf (n : Nat) (bs : Bytes) : (wordsOf n bs).length = n := by
  induction n generalizing bs with
  | zero => rfl
  | succ n ih => rw [wordsOf, List.length_cons, ih]

theorem flatMap_wordsOf {n : Nat} {bs : Bytes} (h : 4 * n ≤ bs.length) :
    (wordsOf n bs).flatMap wordBytes = bs.take (4 * n) := by
  induction n generalizing bs with
  | zero => simp [wordsOf]
  | succ n ih =>
    have hhead : (bs.take 4).length = 4 := by
      rw [List.length_take]
      omega
    rw [wordsOf, List.flatMap_cons, wordBytes_wordOf hhead, ih (by rw [List.length_drop]; omega), Nat.mul_succ,
      Nat.add_comm, List.take_add]

theorem phraseSection_eq_ok {key : Bytes} {trailer : Nat} (h : phraseSection limit key trailer = .ok phrase) :
    1 ≤ phrase.length ∧ phrase.length ≤ limit.toNat ∧ trailer ≤ key.length ∧
      key.drop 1 = phraseBytes phrase ++ key.drop (key.length - trailer) := by
  unfold phraseSection at h
  cases hk : key.drop 1 with
  | nil => simp [hk] at h
  | cons length words =>
    simp only [hk] at h
    obtain ⟨_, hrange, h⟩ := bind_eq_ok_iff.1 h
    obtain ⟨_, hsize, h⟩ := bind_eq_ok_iff.1 h
    cases h
    simp only [require_eq_ok_iff, Bool.and_eq_true, bne_iff_ne, decide_eq_true_eq, beq_iff_eq] at hrange hsize
    have hwords : key.length = words.length + 2 := by
      have := congrArg List.length hk
      rw [List.length_drop, List.length_cons] at this
      omega
    have hpos : length.toNat ≠ 0 := fun h0 => hrange.1 (UInt8.toNat_inj.1 h0)
    have hlength : UInt8.ofNat length.toNat = length := UInt8.ofNat_toNat
    have hdrop : key.drop (key.length - trailer) = words.drop (4 * length.toNat) := by
      have : key.length - trailer = 1 + (1 + 4 * length.toNat) := by omega
      rw [this, ← List.drop_drop, hk, Nat.add_comm, List.drop_succ_cons]
    rw [length_wordsOf, phraseBytes, length_wordsOf, hlength, flatMap_wordsOf (by omega), hdrop, List.cons_append,
      List.take_append_drop]
    exact ⟨by omega, UInt8.le_iff_toNat_le.1 hrange.2, by omega, rfl⟩

/-- A source key that can be read is well formed. -/
theorem exists_source_of_domainOf {key : Bytes} (hk : kindOf? key = some .source)
    (h : domainOf limit key = .ok domain) :
    ∃ phrase, (source phrase domain).WellFormed limit ∧ (source phrase domain).encode = key := by
  rw [domainOf, hk] at h
  obtain ⟨phrase, hphrase, h⟩ := bind_eq_ok_iff.1 h
  cases h
  obtain ⟨h1, hl, hsize, hdrop⟩ := phraseSection_eq_ok hphrase
  obtain ⟨rest, hkey⟩ := kindOf?_eq_some_iff.1 hk
  have hlast : (key.drop (key.length - 4)).length = 4 := by
    rw [List.length_drop]
    omega
  refine ⟨phrase, ⟨h1, hl⟩, ?_⟩
  rw [encode, scan, wordBytes_wordOf hlast, List.cons_append, ← hdrop, ← hkey]
  rfl

/-- A deletion key that can be read is a marker. -/
theorem deletion_of_domainOf {key : Bytes} (hk : kindOf? key = some .deletion) (h : domainOf limit key = .ok domain) :
    (deletion domain).encode = key := by
  rw [domainOf, hk] at h
  obtain ⟨_, hsize, h⟩ := bind_eq_ok_iff.1 h
  cases h
  simp only [require_eq_ok_iff, beq_iff_eq] at hsize
  obtain ⟨rest, rfl⟩ := kindOf?_eq_some_iff.1 hk
  have hrest : rest.length = 4 := by simpa using hsize
  rw [encode, List.singleton_append, List.drop_succ_cons, List.drop_zero, wordBytes_wordOf hrest]

/-- A target key that can be read is well formed. -/
theorem target_of_phraseOf {key : Bytes} (hk : kindOf? key = some .target) (h : phraseOf limit key = .ok phrase) :
    (target phrase).WellFormed limit ∧ (target phrase).encode = key := by
  rw [phraseOf, hk] at h
  obtain ⟨h1, hl, -, hdrop⟩ := phraseSection_eq_ok h
  obtain ⟨rest, hkey⟩ := kindOf?_eq_some_iff.1 hk
  rw [Nat.sub_zero, List.drop_length, List.append_nil] at hdrop
  refine ⟨⟨h1, hl⟩, ?_⟩
  rw [encode, ← hdrop, ← hkey]
  rfl

/-! ## Keys that cannot be read -/

theorem kind_of_phraseSection {key : Bytes} {trailer : Nat} {e : Error}
    (h : phraseSection limit key trailer = .error e) :
    e.kind = .corruption := by
  unfold phraseSection at h
  split at h
  · cases h
    rfl
  · rcases bind_eq_error_iff.1 h with h | ⟨-, -, h⟩
    · exact kind_of_require h
    rcases bind_eq_error_iff.1 h with h | ⟨-, -, h⟩
    · exact kind_of_require h
    · cases h

theorem kind_of_domainOf {key : Bytes} {e : Error} (h : domainOf limit key = .error e) : e.kind = .corruption := by
  unfold domainOf at h
  split at h
  · rcases bind_eq_error_iff.1 h with h | ⟨-, -, h⟩
    · exact kind_of_phraseSection h
    · cases h
  · rcases bind_eq_error_iff.1 h with h | ⟨-, -, h⟩
    · exact kind_of_require h
    · cases h
  · cases h
    rfl

theorem kind_of_phraseOf {key : Bytes} {e : Error} (h : phraseOf limit key = .error e) : e.kind = .corruption := by
  unfold phraseOf at h
  split at h
  · exact kind_of_phraseSection h
  · exact kind_of_phraseSection h
  · cases h
    rfl

/-! ## Ranges of keys -/

/-- The records of a phrase are those of its source keys, whatever the domain. -/
theorem scan_prefix_encode_iff {k : Key} (hp : phrase.length ≤ limit.toNat) (hk : k.WellFormed limit) :
    scan phrase <+: k.encode ↔ ∃ domain, k = source phrase domain := by
  constructor
  · rintro ⟨rest, h⟩
    have hkind : kindOf? k.encode = some .source := by
      rw [← h]
      rfl
    rw [kindOf?_encode] at hkind
    cases k with
    | source q d =>
      simp only [encode, scan, List.cons_append, List.cons.injEq, true_and] at h
      obtain ⟨rfl, -⟩ := phraseBytes_inj hp hk.2 h
      exact ⟨d, rfl⟩
    | _ => simp [kind] at hkind
  · rintro ⟨d, rfl⟩
    exact List.prefix_append _ _

end PhraseIndex.Key
