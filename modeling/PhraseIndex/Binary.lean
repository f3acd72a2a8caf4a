import PhraseIndex.Basic
import PhraseIndex.Bytes

/-!
# Layout of persisted values

Numbers are written least significant byte first in their full width, a sequence as the number of its elements (eight
bytes) and then the elements, a structure as its fields in order. A `Reader` takes a value off the front of a byte
string and leaves the rest; it gives nothing exactly when the bytes end too early.
-/

namespace PhraseIndex

/-- Takes a value off the front of the bytes. -/
abbrev Reader (α : Type) := StateT Bytes Option α

namespace Binary

/-! ## Writing -/

def u16 (x : UInt16) : Bytes := Bytes.le 2 x.toNat

def u32 (x : UInt32) : Bytes := Bytes.le 4 x.toNat

def u64 (x : UInt64) : Bytes := Bytes.le 8 x.toNat

def i64 (x : Int64) : Bytes := u64 x.toUInt64

def sequence (element : α → Bytes) (xs : List α) : Bytes :=
  Bytes.le 8 xs.length ++ xs.flatMap element

def alignmentPoint (p : AlignmentPoint) : Bytes := u16 p.source ++ u16 p.target

def sentencePair (p : SentencePair) : Bytes :=
  u32 p.domain ++ sequence u32 p.source ++ sequence u32 p.target ++ sequence alignmentPoint p.alignment

/-! ## Reading -/

/-- The number in the next `w` bytes. -/
def readNat (w : Nat) : Reader Nat := fun bs =>
  if (bs.take w).length = w then some (Bytes.ofLE (bs.take w), bs.drop w) else none

def readU16 : Reader UInt16 := UInt16.ofNat <$> readNat 2

def readU32 : Reader UInt32 := UInt32.ofNat <$> readNat 4

def readU64 : Reader UInt64 := UInt64.ofNat <$> readNat 8

def readI64 : Reader Int64 := UInt64.toInt64 <$> readU64

/-- The next `n` elements. -/
def readMany (element : Reader α) : Nat → Reader (List α)
  | 0 => pure []
  | n + 1 => do
    let x ← element
    let xs ← readMany element n
    pure (x :: xs)

def readSequence (element : Reader α) : Reader (List α) := do
  let n ← readNat 8
  readMany element n

def readAlignmentPoint : Reader AlignmentPoint := do
  let source ← readU16
  let target ← readU16
  pure { source, target }

def readSentencePair : Reader SentencePair := do
  let domain ← readU32
  let source ← readSequence readU32
  let target ← readSequence readU32
  let alignment ← readSequence readAlignmentPoint
  pure { domain, source, target, alignment }

/-- Reads a value from the start of the bytes; what follows it is ignored. -/
def decode? (value : Reader α) (bs : Bytes) : Option α := (value.run bs).map (·.1)

/-! ## Reading what was written -/

/-- A number is read back from in front of any other bytes. -/
theorem readNat_le (w n : Nat) (rest : Bytes) : readNat w (Bytes.le w n ++ rest) = some (n % Nat.pow 256 w, rest) := by
  simp [readNat, Bytes.ofLE_le]

/-- Elements that are read back one by one are read back in a row. -/
theorem readMany_flatMap {write : α → Bytes} {read : Reader α}
    (h : ∀ x rest, read (write x ++ rest) = some (x, rest)) (xs : List α) (rest : Bytes) :
    readMany read xs.length (xs.flatMap write ++ rest) = some (xs, rest) := by
  induction xs with
  | nil => rfl
  | cons x xs ih =>
    simp only [List.length_cons, readMany, List.flatMap_cons, List.append_assoc]
    change (read _ >>= _) = _
    rw [h]
    change (readMany read xs.length _ >>= _) = _
    rw [ih]
    rfl

end Binary

end PhraseIndex
