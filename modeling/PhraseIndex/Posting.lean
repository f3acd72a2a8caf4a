import PhraseIndex.Bytes
import PhraseIndex.Error

/-!
# Postings

A `Posting` is one occurrence of a source phrase: the domain, the corpus offset of the sentence and the position in it.
A list of postings is kept as one byte string, fourteen bytes a posting, so lists are joined by joining their bytes and
counted without decoding.
-/

namespace PhraseIndex

structure Posting where
  domain : Domain
  offset : Offset
  start : Position
  deriving DecidableEq, Repr, Inhabited

namespace Posting

/-- Bytes of one posting. -/
def width : Nat := 14

def encode (p : Posting) : Bytes :=
  Bytes.be 4 p.domain.toNat ++ Bytes.be 8 p.offset.toUInt64.toNat ++ Bytes.be 2 p.start.toNat

def ofBytes (bs : Bytes) : Posting where
  domain := UInt32.ofNat (Bytes.ofBE (bs.take 4))
  offset := (UInt64.ofNat (Bytes.ofBE ((bs.drop 4).take 8))).toInt64
  start := UInt16.ofNat (Bytes.ofBE ((bs.drop 12).take 2))

/-- By domain, then offset, then position. -/
def precedes (p q : Posting) : Bool :=
  p.domain < q.domain || (p.domain == q.domain &&
    (p.offset < q.offset || (p.offset == q.offset && p.start ≤ q.start)))

@[simp] theorem length_encode (p : Posting) : p.encode.length = width := by simp [encode, width]

@[simp] theorem ofBytes_encode (p : Posting) : ofBytes p.encode = p := by
  have hd := p.domain.toNat_lt
  have ho := p.offset.toUInt64.toNat_lt
  have hs := p.start.toNat_lt
  have h1 : p.encode.take 4 = Bytes.be 4 p.domain.toNat := by simp [encode]
  have h2 : (p.encode.drop 4).take 8 = Bytes.be 8 p.offset.toUInt64.toNat := by simp [encode]
  have h3 : (p.encode.drop 12).take 2 = Bytes.be 2 p.start.toNat := by
    rw [encode, List.drop_append_of_le_length (by simp), List.drop_of_length_le (by simp), List.nil_append]
    exact List.take_of_length_le (by simp)
  cases p
  simp only [ofBytes, h1, h2, h3, Bytes.ofBE_be] at *
  simp [Nat.mod_eq_of_lt, *]

end Posting

/-- Postings in their encoded form. -/
structure PostingList where
  bytes : Bytes
  deriving DecidableEq, Repr

namespace PostingList

def empty : PostingList := ⟨[]⟩

def push (l : PostingList) (p : Posting) : PostingList := ⟨l.bytes ++ p.encode⟩

/-- Adds an occurrence given by its parts. -/
def append (l : PostingList) (domain : Domain) (offset : Offset) (start : Position) : PostingList :=
  l.push ⟨domain, offset, start⟩

def ofList (ps : List Posting) : PostingList := ⟨ps.flatMap Posting.encode⟩

def isEmpty (l : PostingList) : Bool := l.bytes.isEmpty

def size (l : PostingList) : Nat := l.bytes.length / Posting.width

/-- The bytes hold whole postings only. -/
def validate (bs : Bytes) : Except Error Unit :=
  require (bs.length % Posting.width == 0) (.postingsSize bs.length)

/-- The number of postings, which needs no decoding. -/
def count (bs : Bytes) : Except Error Nat := do
  validate bs
  pure (bs.length / Posting.width)

/-- The postings in the next `n` records. -/
def records : Nat → Bytes → List Posting
  | 0, _ => []
  | n + 1, bs => Posting.ofBytes (bs.take Posting.width) :: records n (bs.drop Posting.width)

def decode (bs : Bytes) : Except Error (List Posting) := do
  let n ← count bs
  pure (records n bs)

/-- Adds the decoded postings to those already there, which stay as they are if the bytes cannot be decoded. -/
def decodeOnto (out : List Posting) (bs : Bytes) : Except Error Unit × List Posting :=
  match decode bs with
  | .ok ps => (.ok (), out ++ ps)
  | .error e => (.error e, out)

@[simp] theorem bytes_push (l : PostingList) (p : Posting) : (l.push p).bytes = l.bytes ++ p.encode := rfl

theorem foldl_push (l : PostingList) (ps : List Posting) :
    ps.foldl push l = ⟨l.bytes ++ (ofList ps).bytes⟩ := by
  induction ps generalizing l with
  | nil => simp [ofList]
  | cons p ps ih => simp [ih, ofList, push]

/-- Adding postings one by one gives the list of them all. -/
theorem foldl_push_empty (ps : List Posting) : ps.foldl push empty = ofList ps := by
  simp [foldl_push, empty, ofList]

theorem records_flatMap (ps : List Posting) : records ps.length (ps.flatMap Posting.encode) = ps := by
  induction ps with
  | nil => rfl
  | cons p ps ih =>
    rw [List.flatMap_cons, List.length_cons, records, List.take_left' (Posting.length_encode p),
      List.drop_left' (Posting.length_encode p), Posting.ofBytes_encode, ih]

@[simp] theorem length_bytes_ofList (ps : List Posting) : (ofList ps).bytes.length = ps.length * Posting.width := by
  induction ps with
  | nil => rfl
  | cons p ps ih =>
    simp only [ofList, List.flatMap_cons, List.length_append, Posting.length_encode, List.length_cons] at ih ⊢
    rw [ih, Nat.succ_mul, Nat.add_comm]

/-- The postings of a list are read back from its bytes, in order. -/
theorem decode_ofList (ps : List Posting) : decode (ofList ps).bytes = .ok ps := by
  have hw : 0 < Posting.width := by decide
  simp only [decode, count, validate, length_bytes_ofList, Nat.mul_mod_left, Nat.mul_div_cancel _ hw]
  exact congrArg Except.ok (records_flatMap ps)

end PostingList

end PhraseIndex
