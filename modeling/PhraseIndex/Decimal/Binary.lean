import PhraseIndex.Decimal.Rounding

/-!
# Binary floating-point numbers as exact numbers

A `BinaryFormat` fixes how many bits of a word hold the fraction and how many the exponent. `unpack` reads a word as
the exact number `mantissa · 2 ^ exponent`, and `nearest` is the word of the number nearest to a given fraction, a tie
going to the even mantissa.
-/

namespace PhraseIndex.Decimal

structure BinaryFormat where
  fractionBits : Nat
  exponentBits : Nat
  deriving DecidableEq, Repr

namespace BinaryFormat

/-- Eleven bits of exponent and fifty-two of fraction. -/
def double : BinaryFormat := ⟨52, 11⟩

/-- Eight bits of exponent and twenty-three of fraction. -/
def single : BinaryFormat := ⟨23, 8⟩

def bias (f : BinaryFormat) : Nat := Nat.pow 2 (f.exponentBits - 1) - 1

/-- Exponent of the unit in the last place of the least numbers. -/
def leastExponent (f : BinaryFormat) : Int := 1 - (f.bias : Int) - f.fractionBits

/-- Word of the positive infinity. -/
def infinity (f : BinaryFormat) : Nat := (Nat.pow 2 f.exponentBits - 1) * Nat.pow 2 f.fractionBits

/-- Word of a quiet not-a-number. -/
def quietNaN (f : BinaryFormat) : Nat := f.infinity + Nat.pow 2 (f.fractionBits - 1)

/-- The bit that holds the sign. -/
def signBit (f : BinaryFormat) : Nat := Nat.pow 2 (f.exponentBits + f.fractionBits)

end BinaryFormat

/-- What a floating-point word stands for. -/
inductive Binary
  | nan
  | infinite (negative : Bool)
  | finite (negative : Bool) (mantissa : Nat) (exponent : Int)
  deriving DecidableEq, Repr

namespace BinaryFormat

def unpack (f : BinaryFormat) (word : Nat) : Binary :=
  let negative := word / f.signBit % 2 == 1
  let field := word / Nat.pow 2 f.fractionBits % Nat.pow 2 f.exponentBits
  let fraction := word % Nat.pow 2 f.fractionBits
  if field == Nat.pow 2 f.exponentBits - 1 then
    if fraction == 0 then .infinite negative else .nan
  else if field == 0 then .finite negative fraction f.leastExponent
  else .finite negative (Nat.pow 2 f.fractionBits + fraction) (f.leastExponent + (field - 1 : Nat))

/-- Word of the number nearest to `num / den`; too large a number becomes the infinity. -/
def nearest (f : BinaryFormat) (num den : Nat) : Nat :=
  if num == 0 then 0
  else
    let scaled (q : Int) : Nat × Nat := (num * Nat.pow 2 (-q).toNat, den * Nat.pow 2 q.toNat)
    -- the quotient at this exponent has as many bits as a mantissa, or one more
    let q := (num.log2 : Int) - den.log2 - (f.fractionBits + 1 : Nat)
    let fits := (scaled q).1 / (scaled q).2 < Nat.pow 2 (f.fractionBits + 1)
    let q := max (if fits then q else q + 1) f.leastExponent
    let mantissa := roundDiv .even (scaled q).1 (scaled q).2
    min (mantissa + (q - f.leastExponent).toNat * Nat.pow 2 f.fractionBits) f.infinity

end BinaryFormat

/-- The number that a double-precision value stands for. -/
def ofFloat (x : Float) : Binary := BinaryFormat.double.unpack x.toBits.toNat

end PhraseIndex.Decimal
