/-!
# Reading whole numbers

Decimal digits, as many as there are, after an optional sign. A number outside its range is no number.
-/

namespace PhraseIndex.Decimal

/-- The number that a non-empty row of digits stands for. -/
def digits? (cs : List Char) : Option Nat :=
  if cs.isEmpty || !cs.all Char.isDigit then none
  else some (cs.foldl (fun n c => 10 * n + (c.toNat - '0'.toNat)) 0)

/-- A number below the bound, also with a plus sign. -/
def unsigned? (bound : Nat) (cs : List Char) : Option Nat :=
  let digits := match cs with
    | '+' :: rest => rest
    | _ => cs
  (digits? digits).filter (· < bound)

/-- A number below the bound, also with a plus sign, or nought with a minus sign. -/
def signed? (bound : Nat) (cs : List Char) : Option Nat :=
  match cs with
  | '-' :: rest => (digits? rest).filter (· == 0)
  | _ => unsigned? bound cs

end PhraseIndex.Decimal
