/-!
# Fixed-width numbers in bytes

`Bytes.le w n` writes `n` in `w` bytes, least significant first, and `Bytes.be w n` the other way round; `ofLE` and
`ofBE` read any byte string. Writing and reading back gives the number modulo `256 ^ w` (`ofLE_le`, `ofBE_be`), and
reading and writing back gives the bytes (`le_ofLE`, `be_ofBE`).
-/

namespace PhraseIndex

abbrev Bytes := List UInt8

namespace Bytes

/-- Least significant byte first. -/
def le : Nat → Nat → Bytes
  | 0, _ => []
  | w + 1, n => UInt8.ofNat n :: le w (n / 256)

def ofLE : Bytes → Nat
  | [] => 0
  | b :: bs => b.toNat + 256 * ofLE bs

/-- Most significant byte first. -/
def be (w n : Nat) : Bytes := (le w n).reverse

def ofBE (bs : Bytes) : Nat := ofLE bs.reverse

@[simp] theorem length_le (w n : Nat) : (le w n).length = w := by
  induction w generalizing n with
  | zero => rfl
  | succ w ih => simp [le, ih]

@[simp] theorem length_be (w n : Nat) : (be w n).length = w := by simp [be]

theorem ofLE_le (w n : Nat) : ofLE (le w n) = n % Nat.pow 256 w := by
  induction w generalizing n with
  | zero => simp [le, ofLE, Nat.mod_one]
  | succ w ih =>
    rw [le, ofLE, ih, Nat.pow_eq, Nat.pow_eq, Nat.pow_succ', Nat.mod_mul, UInt8.toNat_ofNat']

theorem ofBE_be (w n : Nat) : ofBE (be w n) = n % Nat.pow 256 w := by simp [ofBE, be, ofLE_le]

theorem le_ofLE (bs : Bytes) : le bs.length (ofLE bs) = bs := by
  induction bs with
  | nil => rfl
  | cons b bs ih =>
    have hb := b.toNat_lt
    have hq : (b.toNat + 256 * ofLE bs) / 256 = ofLE bs := by omega
    have hr : UInt8.ofNat (b.toNat + 256 * ofLE bs) = b := by
      apply UInt8.toNat_inj.1
      simp only [UInt8.toNat_ofNat', Nat.reducePow]
      omega
    simp [le, ofLE, hq, hr, ih]

theorem be_ofBE (bs : Bytes) : be bs.length (ofBE bs) = bs := by
  rw [be, ofBE, ← List.length_reverse, le_ofLE, List.reverse_reverse]

theorem ofLE_lt (bs : Bytes) : ofLE bs < Nat.pow 256 bs.length := by
  induction bs with
  | nil => simp [ofLE]
  | cons b bs ih =>
    have hb := b.toNat_lt
    rw [Nat.pow_eq] at ih ⊢
    rw [ofLE, List.length_cons, Nat.pow_succ]
    omega

end Bytes

end PhraseIndex
