import PhraseIndex.Binary
import PhraseIndex.Store

/-!
# The keyspace as one file

A snapshot holds the prefix length, if one is set, and all records in key order.
-/

namespace PhraseIndex.Store

def bytesOf (bs : Bytes) : Bytes := Binary.sequence (fun b => [b]) bs

def readBytes : Reader Bytes := Binary.readSequence (UInt8.ofNat <$> Binary.readNat 1)

def readRecord : Reader (Bytes × Bytes) := do
  let key ← readBytes
  let value ← readBytes
  pure (key, value)

def snapshot (s : Store) : Bytes :=
  bytesOf s.prefixLength.toList ++ Binary.sequence (fun (key, value) => bytesOf key ++ bytesOf value) s.toList

def readSnapshot : Reader Store := do
  let lengths ← readBytes
  let records ← Binary.readSequence readRecord
  pure { index := putAll ∅ records, prefixLength := lengths.head? }

end PhraseIndex.Store
