import PhraseIndex.Count
import PhraseIndex.Key
import PhraseIndex.Posting

/-!
# Merging into stored values

Posting lists and counts are never overwritten: an operand is merged into what the index already holds. Postings are
concatenated, counts are added modulo `2 ^ 64`, and records of other kinds cannot be merged. A malformed operand or
stored value is corruption.
-/

namespace PhraseIndex.Merge

/-- The name under which the operation is known. -/
def name : String := "MergePositionOperator"

/-- Whether values under this key are combined by merging. -/
def applies (key : Bytes) : Bool :=
  match Key.kindOf? key with
  | some .source | some .target => true
  | _ => false

/-- Checks a part of a posting list and adds it at the end. -/
def joinPostings (merged operand : Bytes) : Except Error Bytes := do
  PostingList.validate operand
  pure (merged ++ operand)

def addCount (count : Int64) (operand : Bytes) : Except Error Int64 := do
  let n ← Count.decode operand
  pure (count + n)

/-- The stored value with all operands merged in, in order; nothing if the key takes no merges. -/
def full (key : Bytes) (existing : Option Bytes) (operands : List Bytes) : Except Error (Option Bytes) :=
  let parts := existing.toList ++ operands
  match Key.kindOf? key with
  | some .source => some <$> parts.foldlM joinPostings []
  | some .target => (some ∘ Count.encode) <$> parts.foldlM addCount 0
  | _ => .ok none

/-- The stored value with one operand merged in. -/
def single (key : Bytes) (existing : Option Bytes) (operand : Bytes) : Except Error (Option Bytes) :=
  full key existing [operand]

end PhraseIndex.Merge
