import PhraseIndex.Decimal.Binary

/-!
# Shortest decimals

A `Digits` value `⟨c, q⟩` stands for `c · 10 ^ q`. `shortest` finds, for a positive binary number, the decimal with the
fewest digits among those that read back as the number, and of these the nearest. It looks at the grids of one, two,
… seventeen digits in turn: if any point of a grid reads back, then so does one of the number's two neighbours on it.
-/

namespace PhraseIndex.Decimal

/-- The decimal number `coefficient · 10 ^ exponent`. -/
structure Digits where
  coefficient : Nat
  exponent : Int
  deriving DecidableEq, Repr

/-- The numbers that read back as one binary number lie between `low / unit` and `high / unit` around
`middle / unit`; the ends belong to them if `closed`. -/
structure Interval where
  low : Nat
  middle : Nat
  high : Nat
  unit : Nat
  closed : Bool

/-- The interval of `mantissa · 2 ^ exponent`, in quarters of its last place. Below a power of two the numbers stand
twice as close. -/
def BinaryFormat.interval (f : BinaryFormat) (mantissa : Nat) (exponent : Int) : Interval :=
  let scale := Nat.pow 2 exponent.toNat
  let narrow := mantissa == Nat.pow 2 f.fractionBits && exponent != f.leastExponent
  { low := (4 * mantissa - (if narrow then 1 else 2)) * scale
    middle := 4 * mantissa * scale
    high := (4 * mantissa + 2) * scale
    unit := 4 * Nat.pow 2 (-exponent).toNat
    closed := mantissa % 2 == 0 }

/-- The decimal reads back as the number of the interval. -/
def Interval.contains (i : Interval) (d : Digits) : Bool :=
  let point := d.coefficient * Nat.pow 10 d.exponent.toNat * i.unit
  let scale := Nat.pow 10 (-d.exponent).toNat
  if i.closed then i.low * scale ≤ point && point ≤ i.high * scale
  else i.low * scale < point && point < i.high * scale

/-- How many digits the whole part of the middle has; at or below zero, how many noughts follow the point, negated. -/
def Interval.pointPosition (i : Interval) : Int :=
  if i.unit ≤ i.middle then ((Nat.toDigits 10 (i.middle / i.unit)).length : Int)
  else 1 - ((Nat.toDigits 10 ((i.unit - 1) / i.middle)).length : Int)

/-- The decimal of `n` digits that reads back, if there is one; of two, the nearer. -/
def Interval.onGrid? (tie : Tie) (i : Interval) (n : Nat) : Option Digits :=
  let q := i.pointPosition - n
  let num := i.middle * Nat.pow 10 (-q).toNat
  let den := i.unit * Nat.pow 10 q.toNat
  let lower : Digits := ⟨num / den, q⟩
  let upper : Digits := ⟨num / den + 1, q⟩
  match i.contains lower, i.contains upper with
  | true, true => some ⟨roundDiv tie num den, q⟩
  | true, false => some lower
  | false, true => some upper
  | false, false => none

/-- Drops the noughts at the end. -/
def Digits.trim : Nat → Digits → Digits
  | 0, d => d
  | fuel + 1, d =>
    if d.coefficient != 0 && d.coefficient % 10 == 0 then trim fuel ⟨d.coefficient / 10, d.exponent + 1⟩ else d

/-- The shortest decimal of the positive number `mantissa · 2 ^ exponent`. Seventeen digits always suffice. -/
def shortest (tie : Tie) (f : BinaryFormat) (mantissa : Nat) (exponent : Int) : Digits :=
  let i := f.interval mantissa exponent
  let digits := ((List.range' 1 17).findSome? (i.onGrid? tie)).getD ⟨0, 0⟩
  digits.trim 18

end PhraseIndex.Decimal
