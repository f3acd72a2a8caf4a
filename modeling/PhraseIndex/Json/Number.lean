import PhraseIndex.Decimal.Binary
import PhraseIndex.Json.Value

/-!
# What a number of a document stands for

A whole number is read exactly. A floating-point number is read with a significand of 64 bits and one scaling by a
power of ten, so its last digit is not always the nearest: digits before the point that no longer fit into the
significand only raise the exponent, and digits behind it are dropped.
-/

namespace PhraseIndex.Json.Number

/-- The number that digits stand for. -/
def ofDigits (ds : List Nat) : Nat := ds.foldl (fun n d => 10 * n + d) 0

/-- The value of a number that is written as a whole number, without a sign, point or exponent. -/
def toNat? (n : Number) : Option Nat :=
  if n.negative || !n.fraction.isEmpty || n.exponent.isSome then none else some (ofDigits n.whole)

/-- Takes digits into the significand until one does not fit; also tells how many there were and how many are left. -/
def accumulate : Nat → List Nat → Nat × Nat × Nat
  | significand, [] => (significand, 0, 0)
  | significand, d :: ds =>
    if 10 * significand + d < UInt64.size then
      let (significand, taken, left) := accumulate (10 * significand + d) ds
      (significand, taken + 1, left)
    else (significand, 0, ds.length + 1)

/-- The nearest double to a power of ten. -/
def powerOfTen (n : Nat) : Float := Float.ofBits (UInt64.ofNat (Decimal.BinaryFormat.double.nearest (Nat.pow 10 n) 1))

/-- `x · 10 ^ e`, by one multiplication or by divisions; nothing if it is too large. -/
def scale (x : Float) (e : Int) : Option Float :=
  if e.natAbs ≤ 308 then
    if 0 ≤ e then
      let r := x * powerOfTen e.natAbs
      if r.isInf then none else some r
    else some (x / powerOfTen e.natAbs)
  else if x == 0.0 then some x
  else if 0 ≤ e then none
  else scale (x / powerOfTen 308) (e + 308)
termination_by (-e).toNat
decreasing_by omega

/-- The double that the number stands for, unless it is too large. -/
def toFloat? (n : Number) : Option Float := do
  let (whole, _, raised) := accumulate 0 n.whole
  let (significand, lowered, _) := accumulate whole n.fraction
  let x := (UInt64.ofNat significand).toFloat
  let start : Int := raised - lowered
  let magnitude ← match n.exponent with
    | none => scale x start
    | some (negative, ds) =>
      let e := ofDigits ds
      if e < 0x80000000 then scale x (if negative then start - e else start + e)
      else if significand != 0 && !negative then none
      else some 0.0
  pure (if n.negative then -magnitude else magnitude)

end PhraseIndex.Json.Number
