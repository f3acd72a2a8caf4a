import Std.Data.ExtTreeMap
import PhraseIndex.Binary
import PhraseIndex.Error

/-!
# Stream positions

`Streams` holds the number of the last applied update of each stream. Positions only move forward: `advance` and
`merge` take the greater number, so replayed updates are recognised (`covers`) and left out.
-/

namespace PhraseIndex

structure Streams where
  positions : Std.ExtTreeMap StreamId SeqNo
  deriving BEq

namespace Streams

def empty : Streams := ⟨∅⟩

/-- A later pair replaces an earlier one of the same stream. -/
def ofList (pairs : List (StreamId × SeqNo)) : Streams :=
  ⟨pairs.foldl (fun m (stream, seq) => m.insert stream seq) ∅⟩

/-- By increasing stream. -/
def toList (s : Streams) : List (StreamId × SeqNo) := s.positions.toList

def get? (s : Streams) (stream : StreamId) : Option SeqNo := s.positions[stream]?

def size (s : Streams) : Nat := s.positions.size

def isEmpty (s : Streams) : Bool := s.positions.isEmpty

/-- The update has been applied already. -/
def covers (s : Streams) (id : UpdateId) : Bool :=
  match s.get? id.stream with
  | some seq => id.seq ≤ seq
  | none => false

/-- Moves one stream forward, never back. -/
def advance (s : Streams) (id : UpdateId) : Streams :=
  if s.covers id then s else ⟨s.positions.insert id.stream id.seq⟩

/-- Moves every stream to the greater of two positions. -/
def merge (s other : Streams) : Streams :=
  other.toList.foldl (fun s (stream, seq) => s.advance ⟨stream, seq⟩) s

/-! ## Persisted form -/

def encodePair (p : StreamId × SeqNo) : Bytes := Binary.u16 p.1 ++ Binary.i64 p.2

def encode (s : Streams) : Bytes := Binary.sequence encodePair s.toList

def readPair : Reader (StreamId × SeqNo) := do
  let stream ← Binary.readU16
  let seq ← Binary.readI64
  pure (stream, seq)

/-- An absent value is the empty state. -/
def decode (bs : Bytes) : Except Error Streams :=
  if bs.isEmpty then .ok empty
  else
    match Binary.decode? (Binary.readSequence readPair) bs with
    | some pairs => .ok (ofList pairs)
    | none => .error .unexpectedEnd

theorem get?_advance (s : Streams) (id : UpdateId) (stream : StreamId) :
    (s.advance id).get? stream = if id.stream = stream ∧ ¬ s.covers id then some id.seq else s.get? stream := by
  unfold advance
  split
  · simp [*]
  · simp [*, get?, Std.ExtTreeMap.getElem?_insert]

end Streams

end PhraseIndex
