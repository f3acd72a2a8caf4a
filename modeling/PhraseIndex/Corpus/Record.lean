import PhraseIndex.Binary
import PhraseIndex.Checksum
import PhraseIndex.Error

/-!
# Corpus records

A record is a sentence pair in its persisted form, after a header of eight bytes that holds its length and its
checksum. `Record.read` takes a record off the front of a file's bytes and accepts it only if all of this agrees.
-/

namespace PhraseIndex.Record

def headerSize : Nat := 8

/-- Length and checksum of the payload, then the payload. -/
def encode (pair : SentencePair) : Bytes :=
  let payload := Binary.sentencePair pair
  Bytes.le 4 payload.length ++ Binary.u32 (Checksum.crc32 payload) ++ payload

/-- The next `n` bytes and the rest; a file that ends before them is an error. -/
def take (n : Nat) (bs : Bytes) : Except Error (Bytes × Bytes) :=
  if (bs.take n).length = n then .ok (bs.take n, bs.drop n) else .error .recordCutShort

/-- The record at the front of `bs`, of which at most `left` bytes belong to the file as it is known. -/
def read (offset : Offset) (left : Nat) (bs : Bytes) : Except Error SentencePair := do
  let (header, rest) ← take headerSize bs
  let length := Bytes.ofLE (header.take 4)
  require (length ≤ left - headerSize) (.recordLength offset (UInt32.ofNat length) (left - headerSize))
  let (payload, _) ← take length rest
  require (Checksum.crc32 payload == UInt32.ofNat (Bytes.ofLE (header.drop 4))) (.recordChecksum offset)
  match Binary.decode? Binary.readSentencePair payload with
  | some pair => pure pair
  | none => throw .unexpectedEnd

end PhraseIndex.Record
