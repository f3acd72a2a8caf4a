import Std.Data.ExtTreeMap
import PhraseIndex.Merge

/-!
# The index keyspace

A `Store` is a map from keys to values in the byte order of the keys, together with the prefix length that it was built
with. A `WriteBatch` is committed whole or not at all: every merged key is resolved against its value before the batch
and its operands in order, and then merges, puts and removes are applied, the last write of a key winning.
-/

namespace PhraseIndex

abbrev ByteMap := Std.ExtTreeMap Bytes Bytes

structure WriteBatch where
  puts : List (Bytes × Bytes) := []
  merges : List (Bytes × Bytes) := []
  removes : List Bytes := []

namespace WriteBatch

def size (b : WriteBatch) : Nat := b.puts.length + b.merges.length + b.removes.length

def isEmpty (b : WriteBatch) : Bool := b.size == 0

/-- The operands queued for each merged key, in order. -/
def operands (b : WriteBatch) : Std.ExtTreeMap Bytes (List Bytes) :=
  b.merges.foldr (fun (key, operand) m => m.alter key fun ops => some (operand :: ops.getD [])) ∅

end WriteBatch

/-- What a committed batch held: queued puts, distinct merged keys, queued removes. -/
structure CommitStats where
  puts : Nat
  mergedKeys : Nat
  removes : Nat
  deriving DecidableEq, Repr

structure Store where
  index : ByteMap := ∅
  /-- Set when the index is first opened. -/
  prefixLength : Option PrefixLength := none

namespace Store

def get? (s : Store) (key : Bytes) : Option Bytes := s.index[key]?

/-- All records, in key order. -/
def toList (s : Store) : List (Bytes × Bytes) := s.index.toList

/-- The records whose keys start with the given bytes, in key order. -/
def scan (s : Store) (start : Bytes) : List (Bytes × Bytes) :=
  s.toList.filter fun (key, _) => start.isPrefixOf key

/-- The keys of one kind, in order. -/
def keysOf (s : Store) (kind : RecordKind) : List Bytes := (s.scan [kind.tag]).map (·.1)

/-- Bytes of all keys and values. -/
def byteSize (s : Store) : Nat := s.toList.foldl (fun n (key, value) => n + key.length + value.length) 0

/-! ## Committing -/

/-- The new value of a merged key. -/
def mergedValue (s : Store) (key : Bytes) (operands : List Bytes) : Except Error Bytes := do
  match ← Merge.full key (s.get? key) operands with
  | some value => pure value
  | none => throw (.mergeNotApplicable key.head?)

/-- The new values of all merged keys, in key order. -/
def mergedValues (s : Store) (b : WriteBatch) : Except Error (List (Bytes × Bytes)) :=
  b.operands.toList.mapM fun (key, operands) => (key, ·) <$> s.mergedValue key operands

def putAll (m : ByteMap) (writes : List (Bytes × Bytes)) : ByteMap :=
  writes.foldl (fun m (key, value) => m.insert key value) m

def removeAll (m : ByteMap) (keys : List Bytes) : ByteMap := keys.foldl (fun m key => m.erase key) m

def commit (s : Store) (b : WriteBatch) : Except Error (CommitStats × Store) := do
  let merged ← s.mergedValues b
  let stats : CommitStats := ⟨b.puts.length, merged.length, b.removes.length⟩
  pure (stats, { s with index := removeAll (putAll (putAll s.index merged) b.puts) b.removes })

/-- Commits a batch that is built from the state it is applied to. -/
def commitWith (s : Store) (build : Store → Except Error WriteBatch) : Except Error (CommitStats × Store) := do
  s.commit (← build s)

/-- Records the prefix length at the first opening and refuses another one later. -/
def pin (s : Store) (length : PrefixLength) : Except Error Store :=
  match s.prefixLength with
  | none => .ok { s with prefixLength := some length }
  | some stored => if stored == length then .ok s else .error (.otherPrefixLength stored length)

/-! ## What the keyspace holds -/

theorem mem_toList {s : Store} {key value : Bytes} : (key, value) ∈ s.toList ↔ s.get? key = some value := by
  simp [toList, get?]

theorem mem_scan {s : Store} {start key value : Bytes} :
    (key, value) ∈ s.scan start ↔ start <+: key ∧ s.get? key = some value := by
  simp [scan, mem_toList, and_comm]

end Store

end PhraseIndex
