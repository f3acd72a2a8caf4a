import PhraseIndex.Bytes
import PhraseIndex.Error

/-!
# Keys of the index

A `Key` names a record; `Key.encode` is its place in the byte order of the index: the tag of its kind, then for phrase
records the number of words and the words, most significant byte first, then for source records the domain. The phrase
stands before the domain, so the postings of one phrase in all domains share the bytes `Key.scan phrase` and stand
together; the length byte keeps longer phrases out of that range.
-/

namespace PhraseIndex

inductive Key
  | streams
  | manifest
  | source (phrase : Phrase) (domain : Domain)
  | target (phrase : Phrase)
  | deletion (domain : Domain)
  deriving DecidableEq, Repr

namespace Key

/-! ## Writing -/

def kind : Key → RecordKind
  | streams => .streams
  | manifest => .manifest
  | source .. => .source
  | target _ => .target
  | deletion _ => .deletion

def wordBytes (w : Word) : Bytes := Bytes.be 4 w.toNat

/-- The number of words in one byte, then the words. -/
def phraseBytes (phrase : Phrase) : Bytes := UInt8.ofNat phrase.length :: phrase.flatMap wordBytes

/-- What the keys of a phrase's postings have in common in every domain. -/
def scan (phrase : Phrase) : Bytes := RecordKind.source.tag :: phraseBytes phrase

def encode : Key → Bytes
  | streams => [RecordKind.streams.tag]
  | manifest => [RecordKind.manifest.tag]
  | source phrase domain => scan phrase ++ wordBytes domain
  | target phrase => RecordKind.target.tag :: phraseBytes phrase
  | deletion domain => RecordKind.deletion.tag :: wordBytes domain

/-! ## Reading -/

/-- The kind of a key; unknown tags are kept free for later kinds. -/
def kindOf? (key : Bytes) : Option RecordKind := key.head? >>= RecordKind.ofTag?

def wordOf (bs : Bytes) : Word := UInt32.ofNat (Bytes.ofBE bs)

/-- The words that `n` groups of four bytes stand for. -/
def wordsOf : Nat → Bytes → Phrase
  | 0, _ => []
  | n + 1, bs => wordOf (bs.take 4) :: wordsOf n (bs.drop 4)

/-- The phrase of a phrase record, after which `trailer` more bytes have to follow. -/
def phraseSection (limit : PrefixLength) (key : Bytes) (trailer : Nat) : Except Error Phrase :=
  match key.drop 1 with
  | [] => .error .keyTooShort
  | length :: words => do
    require (length != 0 && length ≤ limit) (.phraseLength length limit)
    require (key.length == 2 + 4 * length.toNat + trailer) (.keyLength key.length length)
    pure (wordsOf length.toNat words)

/-- The domain of a source or deletion key. -/
def domainOf (limit : PrefixLength) (key : Bytes) : Except Error Domain :=
  match kindOf? key with
  | some .source => do
    let _ ← phraseSection limit key 4
    pure (wordOf (key.drop (key.length - 4)))
  | some .deletion => do
    require (key.length == 5) .malformedDeletionKey
    pure (wordOf (key.drop 1))
  | other => .error (.keyWithoutDomain other)

/-- The phrase of a source or target key. -/
def phraseOf (limit : PrefixLength) (key : Bytes) : Except Error Phrase :=
  match kindOf? key with
  | some .source => phraseSection limit key 4
  | some .target => phraseSection limit key 0
  | other => .error (.keyWithoutPhrase other)

/-! ## Reading what was written -/

@[simp] theorem length_wordBytes (w : Word) : (wordBytes w).length = 4 := by simp [wordBytes]

@[simp] theorem wordOf_wordBytes (w : Word) : wordOf (wordBytes w) = w := by
  simp [wordOf, wordBytes, Bytes.ofBE_be, Nat.mod_eq_of_lt w.toNat_lt]

theorem wordsOf_flatMap (phrase : Phrase) (rest : Bytes) :
    wordsOf phrase.length (phrase.flatMap wordBytes ++ rest) = phrase := by
  induction phrase with
  | nil => rfl
  | cons w phrase ih => simp [wordsOf, ih]

@[simp] theorem kindOf?_encode (k : Key) : kindOf? k.encode = some k.kind := by
  cases k <;> rfl

end Key

end PhraseIndex
