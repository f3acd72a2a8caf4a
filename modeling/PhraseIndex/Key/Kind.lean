/-!
# Kinds of index records

The first byte of every key says what kind of record it names, so records of one kind stand together in key order.
-/

namespace PhraseIndex

inductive RecordKind
  /-- How far each update stream has been applied. -/
  | streams
  /-- The committed shape of the corpus files. -/
  | manifest
  /-- Postings of a source phrase in one domain. -/
  | source
  /-- Number of occurrences of a target phrase. -/
  | target
  /-- Marker of a domain that is to be purged. -/
  | deletion
  deriving DecidableEq, Repr

namespace RecordKind

def tag : RecordKind → UInt8
  | streams => 0
  | manifest => 1
  | source => 2
  | target => 3
  | deletion => 4

def ofTag? (b : UInt8) : Option RecordKind :=
  match b.toNat with
  | 0 => some streams
  | 1 => some manifest
  | 2 => some source
  | 3 => some target
  | 4 => some deletion
  | _ => none

def name : RecordKind → String
  | streams => "Streams"
  | manifest => "StorageManifest"
  | source => "SourcePrefix"
  | target => "TargetCount"
  | deletion => "DomainDeletion"

theorem ofTag?_tag (k : RecordKind) : ofTag? k.tag = some k := by
  cases k <;> rfl

theorem tag_ofTag? {b : UInt8} {k : RecordKind} (h : ofTag? b = some k) : k.tag = b := by
  unfold ofTag? at h
  split at h <;> cases h <;> exact UInt8.toNat_inj.1 (by simp_all [tag])

end RecordKind

end PhraseIndex
