/-!
# Rounding a quotient to a whole number

`roundDiv tie num den` is the whole number nearest to `num / den`; `tie` decides between two that are equally near.
-/

namespace PhraseIndex.Decimal

/-- What becomes of a value half way between two neighbours. -/
inductive Tie
  /-- The even neighbour. -/
  | even
  /-- The greater neighbour. -/
  | up
  deriving DecidableEq, Repr

/-- Whether a value half way between `n` and `n + 1` goes to `n + 1`. -/
def Tie.takesUpper (tie : Tie) (n : Nat) : Bool :=
  match tie with
  | .even => n % 2 == 1
  | .up => true

def roundDiv (tie : Tie) (num den : Nat) : Nat :=
  let n := num / den
  match compare (2 * (num % den)) den with
  | .lt => n
  | .gt => n + 1
  | .eq => if tie.takesUpper n then n + 1 else n

/-- Rounding moves a value by at most one half. -/
theorem roundDiv_near (tie : Tie) (num : Nat) {den : Nat} (h : 0 < den) :
    2 * num ≤ 2 * (roundDiv tie num den * den) + den ∧ 2 * (roundDiv tie num den * den) ≤ 2 * num + den := by
  have hd := Nat.div_add_mod num den
  have hm := Nat.mod_lt num h
  have hc : den * (num / den) = num / den * den := Nat.mul_comm _ _
  have hs : (num / den + 1) * den = num / den * den + den := Nat.succ_mul _ _
  unfold roundDiv
  dsimp only
  split
  · next hlt =>
    rw [Nat.compare_eq_lt] at hlt
    constructor <;> omega
  · next hgt =>
    rw [Nat.compare_eq_gt] at hgt
    rw [hs]
    constructor <;> omega
  · next heq =>
    rw [Nat.compare_eq_eq] at heq
    split
    · rw [hs]
      constructor <;> omega
    · constructor <;> omega

end PhraseIndex.Decimal
