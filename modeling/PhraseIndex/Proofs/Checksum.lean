import Mathlib.Data.Nat.Bitwise
import PhraseIndex.Checksum

/-!
# What the checksum detects

The remainder is shifted bit by bit, which is linear (`Checksum.shift_xor`) and loses nothing (`Checksum.shift_inj`).
So remainders that differ stay different whatever bytes follow (`Checksum.foldl_inj`), and up to four bytes go into the
remainder like one number (`Checksum.foldl_eq_shifts`), of which no two give the same. Together: bytes that differ only
within four of them in a row have different checksums (`Checksum.crc32_ne`).
-/

namespace PhraseIndex.Checksum

variable {r s : UInt32} {n m : Nat} {bs w w' : Bytes}

/-! ## Shifting -/

/-- What is added to the remainder when a bit is shifted out. -/
def feedback (bit : Bool) : UInt32 := if bit then polynomial else 0

theorem feedback_xor (a b : Bool) : feedback (a ^^ b) = feedback a ^^^ feedback b := by
  cases a <;> cases b <;> decide

theorem shift_eq (r : UInt32) : shift r = (r >>> 1) ^^^ feedback (r.toNat.testBit 0) := by
  have hone : (r &&& 1 == 1) = r.toNat.testBit 0 := by
    rw [Bool.eq_iff_iff, beq_iff_eq, ← UInt32.toNat_inj, UInt32.toNat_and, Nat.testBit_zero, decide_eq_true_iff]
    exact iff_of_eq (congrArg (· = 1) (Nat.and_one_is_mod _))
  rw [shift, hone, feedback]
  split
  · rfl
  · rw [UInt32.xor_zero]

theorem toNat_half (r : UInt32) : (r >>> 1).toNat = r.toNat / 2 := by
  rw [UInt32.toNat_shiftRight]
  exact Nat.shiftRight_one _

/-- Shifting is linear. -/
theorem shift_xor (x y : UInt32) : shift (x ^^^ y) = shift x ^^^ shift y := by
  rw [shift_eq, shift_eq, shift_eq, UInt32.shiftRight_xor, UInt32.toNat_xor, Nat.testBit_xor, feedback_xor]
  ac_rfl

/-- The polynomial has its highest bit set, so the bit that is shifted out is seen in the remainder. -/
theorem eq_zero_of_shift (h : shift r = 0) : r = 0 := by
  have hlt := r.toNat_lt
  rw [shift_eq, UInt32.xor_eq_zero_iff, ← UInt32.toNat_inj, toNat_half, feedback] at h
  split at h
  · have hpoly : polynomial.toNat = 0xEDB88320 := rfl
    omega
  · next heven =>
    rw [Nat.testBit_zero, decide_eq_true_iff] at heven
    have hzero : (0 : UInt32).toNat = 0 := rfl
    rw [← UInt32.toNat_inj]
    omega

theorem shift_inj : shift r = shift s ↔ r = s := by
  constructor
  · intro h
    rw [← UInt32.xor_eq_zero_iff, ← shift_xor] at h
    exact UInt32.xor_eq_zero_iff.1 (eq_zero_of_shift h)
  · rintro rfl
    rfl

/-- What is even is halved. -/
theorem shift_ofNat (h : 2 * m < 2 ^ 32) : shift (UInt32.ofNat (2 * m)) = UInt32.ofNat m := by
  have hdouble : (UInt32.ofNat (2 * m)).toNat = 2 * m := UInt32.toNat_ofNat_of_lt' h
  have heven : (2 * m).testBit 0 = false := by simp
  have hhalf : (UInt32.ofNat m).toNat = m :=
    UInt32.toNat_ofNat_of_lt' (Nat.lt_of_le_of_lt (Nat.le_mul_of_pos_left m Nat.two_pos) h)
  rw [shift_eq, hdouble, heven, feedback, if_neg Bool.false_ne_true, UInt32.xor_zero, ← UInt32.toNat_inj, toNat_half,
    hdouble, hhalf, Nat.mul_div_cancel_left m Nat.two_pos]

theorem shifts_xor (n : Nat) (x y : UInt32) : shifts n (x ^^^ y) = shifts n x ^^^ shifts n y := by
  induction n generalizing x y with
  | zero => rfl
  | succ n ih => rw [shifts, shift_xor, ih, shifts, shifts]

theorem shifts_inj : shifts n r = shifts n s ↔ r = s := by
  induction n generalizing r s with
  | zero => rfl
  | succ n ih => rw [shifts, shifts, ih, shift_inj]

theorem shifts_add (n m : Nat) (r : UInt32) : shifts (n + m) r = shifts m (shifts n r) := by
  induction n generalizing r with
  | zero => rw [Nat.zero_add, shifts]
  | succ n ih => rw [Nat.succ_add, shifts, ih, shifts]

theorem shifts_ofNat (h : 2 ^ n * m < 2 ^ 32) : shifts n (UInt32.ofNat (2 ^ n * m)) = UInt32.ofNat m := by
  induction n with
  | zero => rw [shifts, Nat.pow_zero, Nat.one_mul]
  | succ n ih =>
    rw [Nat.pow_succ', Nat.mul_assoc] at h ⊢
    rw [shifts, shift_ofNat h, ih (by omega)]

/-! ## Bytes in the remainder -/

/-- Numbers that share no bits are added bit by bit. -/
theorem add_eq_xor {a : Nat} (ha : a < 2 ^ n) (m : Nat) : a + 2 ^ n * m = a ^^^ 2 ^ n * m := by
  apply Nat.eq_of_testBit_eq
  intro i
  have hhigh := Nat.testBit_two_pow_mul_add m (Nat.two_pow_pos n) i
  rw [Nat.add_zero] at hhigh
  rw [Nat.add_comm, Nat.testBit_two_pow_mul_add m ha, Nat.testBit_xor, hhigh]
  split
  · rw [Nat.zero_testBit, Bool.xor_false]
  · next hi =>
    have hlt : a < 2 ^ i := Nat.lt_of_lt_of_le ha (Nat.pow_le_pow_right Nat.two_pos (Nat.le_of_not_lt hi))
    rw [Nat.testBit_lt_two_pow hlt, Bool.false_xor]

/-- A byte below a number. -/
theorem ofNat_add (b : UInt8) (h : 2 ^ 8 * m < 2 ^ 32) :
    UInt32.ofNat (b.toNat + 2 ^ 8 * m) = b.toUInt32 ^^^ UInt32.ofNat (2 ^ 8 * m) := by
  have hb : b.toNat < 2 ^ 8 := b.toNat_lt
  have hsum : b.toNat + 2 ^ 8 * m < 2 ^ 32 := by omega
  rw [← UInt32.toNat_inj, UInt32.toNat_xor, UInt32.toNat_ofNat_of_lt' hsum, UInt32.toNat_ofNat_of_lt' h,
    UInt8.toNat_toUInt32, add_eq_xor hb]

theorem ofLE_lt_two_pow (h : bs.length ≤ n) : Bytes.ofLE bs < 2 ^ (8 * n) := by
  have hpow : Nat.pow 256 bs.length ≤ Nat.pow 256 n := Nat.pow_le_pow_right (by decide) h
  rw [Nat.pow_mul]
  exact Nat.lt_of_lt_of_le (Bytes.ofLE_lt bs) hpow

/-- Up to four bytes go into the remainder like one number. -/
theorem foldl_eq_shifts (h : bs.length ≤ 4) (r : UInt32) :
    bs.foldl step r = shifts (8 * bs.length) (r ^^^ UInt32.ofNat (Bytes.ofLE bs)) := by
  induction bs generalizing r with
  | nil => simp [shifts, Bytes.ofLE]
  | cons b bs ih =>
    rw [List.length_cons] at h ⊢
    have hlt : 2 ^ 8 * Bytes.ofLE bs < 2 ^ 32 := by
      have hbs := ofLE_lt_two_pow (Nat.le_of_succ_le_succ h)
      omega
    have hhigh : UInt32.ofNat (Bytes.ofLE bs) = shifts 8 (UInt32.ofNat (2 ^ 8 * Bytes.ofLE bs)) :=
      (shifts_ofNat hlt).symm
    rw [List.foldl_cons, ih (Nat.le_of_succ_le h), step, hhigh, ← shifts_xor, ← shifts_add, UInt32.xor_assoc,
      Bytes.ofLE, Nat.mul_add_one, Nat.add_comm 8]
    exact congrArg (fun z => shifts _ (r ^^^ z)) (ofNat_add b hlt).symm

/-- Remainders that differ stay different. -/
theorem foldl_inj : bs.foldl step r = bs.foldl step s ↔ r = s := by
  induction bs generalizing r s with
  | nil => rfl
  | cons b bs ih => rw [List.foldl_cons, List.foldl_cons, ih, step, step, shifts_inj, UInt32.xor_left_inj]

/-- Up to four bytes of which one differs leave different remainders. -/
theorem foldl_ne (hlen : w.length = w'.length) (hw : w.length ≤ 4) (hne : w ≠ w') (r : UInt32) :
    w.foldl step r ≠ w'.foldl step r := by
  intro h
  rw [foldl_eq_shifts hw, foldl_eq_shifts (hlen ▸ hw), hlen, shifts_inj, UInt32.xor_right_inj] at h
  have hnumber := congrArg UInt32.toNat h
  rw [UInt32.toNat_ofNat_of_lt' (ofLE_lt_two_pow hw),
    UInt32.toNat_ofNat_of_lt' (ofLE_lt_two_pow (hlen ▸ hw))] at hnumber
  exact hne (by rw [← Bytes.le_ofLE w, ← Bytes.le_ofLE w', hnumber, hlen])

/-- Bytes that differ, and only within four of them in a row, have different checksums. -/
theorem crc32_ne (hlen : w.length = w'.length) (hw : w.length ≤ 4) (hne : w ≠ w') (before after : Bytes) :
    crc32 (before ++ w ++ after) ≠ crc32 (before ++ w' ++ after) := by
  rw [crc32, crc32, Ne, UInt32.xor_left_inj]
  simp only [List.foldl_append, foldl_inj]
  exact foldl_ne hlen hw hne _

/-- The parts of two strings around a window outside of which they agree. -/
theorem split_of_window {start : Nat} (hsame : ∀ i, i < start ∨ start + n ≤ i → w'[i]? = w[i]?) :
    w'.take start = w.take start ∧ w'.drop (start + n) = w.drop (start + n) := by
  constructor
  · apply List.ext_getElem?
    intro i
    rw [List.getElem?_take, List.getElem?_take]
    split
    · next hi => exact hsame i (.inl hi)
    · rfl
  · apply List.ext_getElem?
    intro i
    rw [List.getElem?_drop, List.getElem?_drop]
    exact hsame _ (.inr (Nat.le_add_right _ _))

theorem take_drop_append (start n : Nat) (bs : Bytes) :
    bs.take start ++ (bs.drop start).take n ++ bs.drop (start + n) = bs := by
  rw [List.append_assoc, ← List.drop_drop, List.take_append_drop, List.take_append_drop]

/-- A string that is changed within a window of four bytes has another checksum. -/
theorem crc32_ne_of_window {start : Nat} (hlen : w'.length = w.length) (hne : w' ≠ w) (hn : n ≤ 4)
    (hsame : ∀ i, i < start ∨ start + n ≤ i → w'[i]? = w[i]?) : crc32 w' ≠ crc32 w := by
  obtain ⟨hbefore, hafter⟩ := split_of_window hsame
  have hw := take_drop_append start n w
  have hw' := take_drop_append start n w'
  rw [hbefore, hafter] at hw'
  rw [← hw, ← hw'] at hne ⊢
  refine crc32_ne ?_ ?_ (fun he => hne (by rw [he])) _ _
  · rw [List.length_take, List.length_take, List.length_drop, List.length_drop, hlen]
  · exact Nat.le_trans (List.length_take_le _ _) hn

end PhraseIndex.Checksum
