import PhraseIndex.Decimal.Shortest

/-!
# How a floating-point number is written

A `Layout` records the choices that the shortest digits leave open; `Layout.write` follows them. Two layouts are in
use: `plain` in messages and in the metrics text, `document` in configuration files.
-/

namespace PhraseIndex.Decimal

structure Layout where
  /-- Which of two equally near decimals is taken. -/
  tie : Tie
  /-- Whether a number with its point at this position is written without an exponent. -/
  positional : Int → Bool
  /-- What follows a whole number. -/
  wholeSuffix : String
  /-- What stands before a positive exponent; a negative one has its minus sign. -/
  positiveExponent : String
  nan : String
  infinity : Bool → String

namespace Layout

/-- Digits only, never an exponent. -/
def plain : Layout where
  tie := .up
  positional _ := true
  wholeSuffix := ""
  positiveExponent := ""
  nan := "NaN"
  infinity negative := if negative then "-inf" else "inf"

/-- Positional from 1e-5 and below 1e16, where a whole number keeps its `.0`; a document has no infinities. -/
def document : Layout where
  tie := .even
  positional point := -5 < point && point ≤ 16
  wholeSuffix := ".0"
  positiveExponent := "+"
  nan := "null"
  infinity _ := "null"

def noughts (n : Nat) : String := String.ofList (List.replicate n '0')

/-- Digits with a point after the first `point` of them, filled up with noughts on either side. -/
def positionalText (l : Layout) (ds : String) (point : Int) : String :=
  if point ≤ 0 then "0." ++ noughts (-point).toNat ++ ds
  else if ds.length ≤ point.toNat then ds ++ noughts (point.toNat - ds.length) ++ l.wholeSuffix
  else String.ofList (ds.toList.take point.toNat) ++ "." ++ String.ofList (ds.toList.drop point.toNat)

/-- One digit before the point and the exponent after the rest. -/
def scientificText (l : Layout) (ds : String) (point : Int) : String :=
  let fraction := String.ofList (ds.toList.drop 1)
  let mantissa := String.ofList (ds.toList.take 1) ++ (if fraction.isEmpty then "" else "." ++ fraction)
  let exponent := point - 1
  mantissa ++ "e" ++ (if exponent < 0 then "" else l.positiveExponent) ++ toString exponent

def digitsText (l : Layout) (d : Digits) : String :=
  let ds := toString d.coefficient
  let point := (ds.length : Int) + d.exponent
  if l.positional point then l.positionalText ds point else l.scientificText ds point

def write (l : Layout) (x : Float) : String :=
  match ofFloat x with
  | .nan => l.nan
  | .infinite negative => l.infinity negative
  | .finite negative mantissa exponent =>
    let magnitude :=
      if mantissa == 0 then "0" ++ l.wholeSuffix
      else l.digitsText (shortest l.tie .double mantissa exponent)
    if negative then "-" ++ magnitude else magnitude

end Layout

end PhraseIndex.Decimal
