import PhraseIndex.Proofs.Keys

/-!
# Keys in both directions

A key that is made of a part of a sentence is decoded to that part, and bytes that are decoded are the key of what they
are decoded to; so a record has one key. `Key.domainAt` and `Key.phraseAt` decode by positions in the key and have no
result if a position lies outside of it: they always have one, which is that of `Key.domainOf` and `Key.phraseOf`
(`Key.domainAt_eq`, `Key.phraseAt_eq`). All of this together is `Key.lossless`.
-/

namespace PhraseIndex

/-- The bytes from position `lo` up to position `hi`; nothing unless both lie within. -/
def Bytes.slice? (bs : Bytes) (lo hi : Nat) : Option Bytes :=
  if lo ≤ hi ∧ hi ≤ bs.length then some ((bs.drop lo).take (hi - lo)) else none

/-- The last `n` bytes; nothing if there are fewer. -/
def Bytes.last? (bs : Bytes) (n : Nat) : Option Bytes :=
  if n ≤ bs.length then bs.slice? (bs.length - n) bs.length else none

namespace Key

/-! ## Decoding by positions -/

/-- What is decoded by positions: a result or an error, or nothing if a position lies outside the bytes. -/
abbrev Access (α : Type) := ExceptT Error Option α

def readWord (bs : Bytes) : Access Word := do
  let word ← bs.slice? 0 4
  pure (wordOf word)

/-- The first `n` groups of four bytes. -/
def groups : Nat → Bytes → List Bytes
  | 0, _ => []
  | n + 1, bs => bs.take 4 :: groups n (bs.drop 4)

/-- The words of all whole groups of four bytes. -/
def readWords (bs : Bytes) : Access Phrase := (groups (bs.length / 4) bs).mapM readWord

/-- The bytes of the words in a phrase record, after which `trailer` more bytes have to follow. -/
def wordsAt (limit : PrefixLength) (key : Bytes) (trailer : Nat) : Access Bytes :=
  match key[1]? with
  | none => throw .keyTooShort
  | some length =>
    if length = 0 ∨ limit < length then throw (.phraseLength length limit)
    else if key.length ≠ 2 + 4 * length.toNat + trailer then throw (.keyLength key.length length)
    else ExceptT.lift (key.slice? 2 (2 + 4 * length.toNat))

def domainAt (limit : PrefixLength) (key : Bytes) : Access Domain :=
  match kindOf? key with
  | some .source => do
    let _ ← wordsAt limit key 4
    let word ← key.last? 4
    readWord word
  | some .deletion =>
    if key.length ≠ 5 then throw .malformedDeletionKey
    else do
      let word ← key.slice? 1 key.length
      readWord word
  | other => throw (.keyWithoutDomain other)

def phraseAt (limit : PrefixLength) (key : Bytes) : Access Phrase :=
  match kindOf? key with
  | some .source => do
    let words ← wordsAt limit key 4
    readWords words
  | some .target => do
    let words ← wordsAt limit key 0
    readWords words
  | other => throw (.keyWithoutPhrase other)

variable {limit : PrefixLength} {phrase : Phrase} {domain : Domain} {key : Bytes}

/-- The bytes from a position to the end. -/
theorem slice?_eq_drop {bs : Bytes} {lo : Nat} (h : lo ≤ bs.length) : bs.slice? lo bs.length = some (bs.drop lo) := by
  rw [Bytes.slice?, if_pos ⟨h, Nat.le_refl _⟩, ← List.length_drop, List.take_length]

theorem readWord_eq {bs : Bytes} (h : bs.length = 4) : readWord bs = pure (wordOf bs) := by
  have hs : Bytes.slice? bs 0 4 = some bs := by
    rw [← h]
    exact slice?_eq_drop (Nat.zero_le _)
  simp only [readWord, hs]
  rfl

theorem groups_flatMap (phrase : Phrase) : groups phrase.length (phrase.flatMap wordBytes) = phrase.map wordBytes := by
  induction phrase with
  | nil => rfl
  | cons w phrase ih =>
    rw [List.flatMap_cons, List.length_cons, groups, List.take_left' (length_wordBytes w),
      List.drop_left' (length_wordBytes w), ih, List.map_cons]

theorem readWords_flatMap (phrase : Phrase) : readWords (phrase.flatMap wordBytes) = pure phrase := by
  have hread : (phrase.map wordBytes).mapM readWord = pure phrase := by
    induction phrase with
    | nil => rfl
    | cons w phrase ih =>
      rw [List.map_cons, List.mapM_cons, readWord_eq (length_wordBytes w), wordOf_wordBytes, ih]
      rfl
  have hcount : (phrase.flatMap wordBytes).length / 4 = phrase.length := by
    rw [length_flatMap_wordBytes]
    omega
  rw [readWords, hcount, groups_flatMap, hread]

/-- The words that are asked for lie in the key, and are those of the phrase that is read. -/
theorem wordsAt_eq (limit : PrefixLength) (key : Bytes) (trailer : Nat) :
    wordsAt limit key trailer = ExceptT.mk (some ((·.flatMap wordBytes) <$> phraseSection limit key trailer)) := by
  match key with
  | [] => rfl
  | [tag] => rfl
  | tag :: length :: words =>
    have hsecond : (tag :: length :: words)[1]? = some length := rfl
    have hdrop : (tag :: length :: words).drop 1 = length :: words := rfl
    -- Both check the length byte and then the size of the key; only behind these checks a position is used.
    simp only [wordsAt, phraseSection, hsecond, hdrop]
    by_cases hrange : length = 0 ∨ limit < length
    · have hrefused : require (length != 0 && length ≤ limit) (.phraseLength length limit) =
          .error (.phraseLength length limit) := by
        rw [require_eq_error_iff]
        rcases hrange with rfl | hlt
        · exact ⟨rfl, rfl⟩
        · simp [UInt8.not_le.2 hlt]
      rw [if_pos hrange, hrefused]
      rfl
    · have hpassed : require (length != 0 && length ≤ limit) (.phraseLength length limit) = .ok () := by
        rw [not_or, UInt8.not_lt] at hrange
        simp [require, hrange.1, hrange.2]
      rw [if_neg hrange, hpassed]
      by_cases hsize : (tag :: length :: words).length = 2 + 4 * length.toNat + trailer
      · have hin : Bytes.slice? (tag :: length :: words) 2 (2 + 4 * length.toNat) =
            some (words.take (4 * length.toNat)) := by
          rw [Bytes.slice?, if_pos ⟨by omega, by omega⟩]
          simp
        have hbytes : (wordsOf length.toNat words).flatMap wordBytes = words.take (4 * length.toNat) := by
          simp only [List.length_cons] at hsize
          exact flatMap_wordsOf (by omega)
        rw [if_neg (not_not.2 hsize), hin, ← hbytes]
        simp only [hsize, beq_self_eq_true]
        rfl
      · have hrefused : require ((tag :: length :: words).length == 2 + 4 * length.toNat + trailer)
            (.keyLength (tag :: length :: words).length length) =
              .error (.keyLength (tag :: length :: words).length length) := by
          rw [require_eq_error_iff]
          exact ⟨by simpa using hsize, rfl⟩
        rw [if_pos hsize, hrefused]
        rfl

/-- No position is asked for outside the key. -/
theorem domainAt_eq (limit : PrefixLength) (key : Bytes) : (domainAt limit key).run = some (domainOf limit key) := by
  unfold domainAt domainOf
  cases hk : kindOf? key with
  | none => rfl
  | some kind =>
    cases kind with
    | source =>
      simp only [wordsAt_eq]
      cases hphrase : phraseSection limit key 4 with
      | error e => rfl
      | ok phrase =>
        have hsize := (phraseSection_eq_ok hphrase).2.2.1
        have hlast : key.last? 4 = some (key.drop (key.length - 4)) := by
          rw [Bytes.last?, if_pos hsize, slice?_eq_drop (by omega)]
        have hfour : (key.drop (key.length - 4)).length = 4 := by
          rw [List.length_drop]
          omega
        simp only [hlast]
        change (readWord (key.drop (key.length - 4))).run = _
        rw [readWord_eq hfour]
        rfl
    | deletion =>
      dsimp only
      by_cases hsize : key.length = 5
      · have hrest : key.slice? 1 key.length = some (key.drop 1) := slice?_eq_drop (by omega)
        have hfour : (key.drop 1).length = 4 := by rw [List.length_drop, hsize]
        rw [if_neg (not_not.2 hsize), hrest, require, if_pos (by simpa using hsize)]
        change (readWord (key.drop 1)).run = _
        rw [readWord_eq hfour]
        rfl
      · rw [if_pos hsize, require, if_neg (by simpa using hsize)]
        rfl
    | streams | manifest | target => rfl

theorem phraseAt_eq (limit : PrefixLength) (key : Bytes) : (phraseAt limit key).run = some (phraseOf limit key) := by
  have hread : ∀ trailer, (wordsAt limit key trailer >>= readWords).run = some (phraseSection limit key trailer) := by
    intro trailer
    rw [wordsAt_eq]
    cases hphrase : phraseSection limit key trailer with
    | error e => rfl
    | ok phrase =>
      change (readWords (phrase.flatMap wordBytes)).run = _
      rw [readWords_flatMap]
      rfl
  unfold phraseAt phraseOf
  cases hk : kindOf? key with
  | none => rfl
  | some kind =>
    cases kind with
    | source => exact hread 4
    | target => exact hread 0
    | streams | manifest | deletion => rfl

/-! ## Both directions -/

/-- A source key whose parts can be read is the key of these parts. -/
theorem source_of_read (hk : kindOf? key = some .source) (hp : phraseOf limit key = .ok phrase)
    (hd : domainOf limit key = .ok domain) :
    (source phrase domain).WellFormed limit ∧ (source phrase domain).encode = key := by
  obtain ⟨other, hwf, rfl⟩ := exists_source_of_domainOf hk hd
  rw [phraseOf_source hwf] at hp
  cases hp
  exact ⟨hwf, rfl⟩

/-- A greater prefix length admits more keys. -/
theorem WellFormed.mono {k : Key} {limit other : PrefixLength} (h : k.WellFormed limit) (hle : limit ≤ other) :
    k.WellFormed other := by
  have hle' := UInt8.le_iff_toNat_le.1 hle
  cases k with
  | source phrase domain => exact ⟨h.1, Nat.le_trans h.2 hle'⟩
  | target phrase => exact ⟨h.1, Nat.le_trans h.2 hle'⟩
  | streams | manifest | deletion => trivial

/-- Keys lose nothing. What is made of a part of a sentence and a domain is read back, as what it is; keys of different
kinds, phrases or domains are different, also those of indexes with different prefix lengths. Bytes that are read are
the key of what is read from them, so that no record has a second key; all other bytes are corruption. Whatever the
bytes, reading them by positions never leaves them. -/
theorem lossless (limit : PrefixLength) :
    (∀ (s : Sentence) (start length : Nat), 1 ≤ length → length ≤ limit.toNat → start + length ≤ s.length →
      ∃ phrase, s.slice? start length = some phrase ∧ phrase = (s.drop start).take length ∧ ∀ domain,
        kindOf? (source phrase domain).encode = some .source ∧
        phraseOf limit (source phrase domain).encode = .ok phrase ∧
        domainOf limit (source phrase domain).encode = .ok domain ∧
        kindOf? (target phrase).encode = some .target ∧ phraseOf limit (target phrase).encode = .ok phrase ∧
        kindOf? (deletion domain).encode = some .deletion ∧ domainOf limit (deletion domain).encode = .ok domain) ∧
    (∀ (other : PrefixLength) (k l : Key), k.WellFormed limit → l.WellFormed other → k.encode = l.encode → k = l) ∧
    ∀ key : Bytes,
      (∀ phrase domain, kindOf? key = some .source → phraseOf limit key = .ok phrase → domainOf limit key = .ok domain →
        (source phrase domain).WellFormed limit ∧ (source phrase domain).encode = key) ∧
      (∀ phrase, kindOf? key = some .target → phraseOf limit key = .ok phrase →
        (target phrase).WellFormed limit ∧ (target phrase).encode = key) ∧
      (∀ domain, kindOf? key = some .deletion → domainOf limit key = .ok domain → (deletion domain).encode = key) ∧
      (phraseAt limit key).run = some (phraseOf limit key) ∧ (domainAt limit key).run = some (domainOf limit key) ∧
      ∀ e, phraseOf limit key = .error e ∨ domainOf limit key = .error e → e.kind = .corruption := by
  refine ⟨?_, ?_, ?_⟩
  · intro s start length h1 hl hs
    have hlength : ((s.drop start).take length).length = length := by
      rw [List.length_take, List.length_drop]
      omega
    refine ⟨_, if_pos hs, rfl, fun domain => ?_⟩
    have hsource : (source ((s.drop start).take length) domain).WellFormed limit := by
      rw [WellFormed, hlength]
      exact ⟨h1, hl⟩
    exact ⟨kindOf?_encode _, phraseOf_source hsource, domainOf_source hsource, kindOf?_encode _,
      phraseOf_target hsource, kindOf?_encode _, domainOf_deletion limit domain⟩
  · intro other k l hk hl he
    rcases UInt8.le_total limit other with hle | hle
    · exact encode_inj (hk.mono hle) hl he
    · exact encode_inj hk (hl.mono hle) he
  · intro key
    refine ⟨fun phrase domain => source_of_read, fun phrase => target_of_phraseOf, fun domain => deletion_of_domainOf,
      phraseAt_eq limit key, domainAt_eq limit key, ?_⟩
    rintro e (he | he)
    · exact kind_of_phraseOf he
    · exact kind_of_domainOf he

/-- The middle of a sentence, whose words use every byte, and bytes that say two words and hold one. -/
theorem lossless_middle :
    (∃ phrase, Sentence.slice? [9, 70000, 4294967295, 5] 1 2 = some phrase ∧ phrase = [70000, 4294967295] ∧
      (source phrase 256).encode = [2, 2, 0, 1, 17, 112, 255, 255, 255, 255, 0, 0, 1, 0] ∧
      phraseOf 2 (source phrase 256).encode = .ok phrase ∧ domainOf 2 (source phrase 256).encode = .ok 256) ∧
    (phraseAt 2 [2, 2, 0, 0, 0, 7, 0, 0, 0, 1]).run = some (.error (.keyLength 10 2)) ∧
    (Error.keyLength 10 2).kind = .corruption := by
  obtain ⟨hthere, -, hback⟩ := lossless 2
  obtain ⟨-, -, -, hphrase, -, herror⟩ := hback [2, 2, 0, 0, 0, 7, 0, 0, 0, 1]
  refine ⟨?_, hphrase.trans rfl, herror _ (.inl rfl)⟩
  obtain ⟨phrase, hslice, rfl, hread⟩ := hthere [9, 70000, 4294967295, 5] 1 2 (by decide) (by decide) (by decide)
  obtain ⟨-, hp, hd, -⟩ := hread 256
  exact ⟨_, hslice, rfl, by decide, hp, hd⟩

end Key

end PhraseIndex
