import PhraseIndex.Bytes

/-!
# Checksum of corpus records

The 32-bit cyclic redundancy check with the polynomial `0x04C11DB7`, bits taken from the least significant one.
-/

namespace PhraseIndex.Checksum

/-- The polynomial with its bits in reverse. -/
def polynomial : UInt32 := 0xEDB88320

/-- Divides out one bit. -/
def shift (r : UInt32) : UInt32 := if r &&& 1 == 1 then (r >>> 1) ^^^ polynomial else r >>> 1

def shifts : Nat → UInt32 → UInt32
  | 0, r => r
  | n + 1, r => shifts n (shift r)

/-- Takes one byte into the remainder. -/
def step (r : UInt32) (b : UInt8) : UInt32 := shifts 8 (r ^^^ b.toUInt32)

def crc32 (bs : Bytes) : UInt32 := bs.foldl step 0xFFFFFFFF ^^^ 0xFFFFFFFF

-- The check value that the standard gives, of the digits one to nine.
example : crc32 [49, 50, 51, 52, 53, 54, 55, 56, 57] = 0xCBF43926 := by decide +kernel

end PhraseIndex.Checksum
