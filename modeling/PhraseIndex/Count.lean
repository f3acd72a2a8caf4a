import PhraseIndex.Bytes
import PhraseIndex.Error

/-!
# Count values

An occurrence count is a signed number in eight bytes, most significant first. No bytes at all count as zero.
-/

namespace PhraseIndex.Count

def encode (count : Int64) : Bytes := Bytes.be 8 count.toUInt64.toNat

def decode (bs : Bytes) : Except Error Int64 :=
  match bs.length with
  | 0 => .ok 0
  | 8 => .ok (UInt64.ofNat (Bytes.ofBE bs)).toInt64
  | size => .error (.countSize size)

theorem decode_nil : decode [] = .ok 0 := rfl

@[simp] theorem decode_encode (count : Int64) : decode (encode count) = .ok count := by
  have hl : (encode count).length = 8 := by simp [encode]
  have hb := count.toUInt64.toNat_lt
  unfold decode
  rw [hl]
  simp [encode, Bytes.ofBE_be, Nat.mod_eq_of_lt hb]

end PhraseIndex.Count
