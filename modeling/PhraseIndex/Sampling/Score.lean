/-!
# Scores and their total order

A score is a single-precision number, kept as its word so that signs of zero and of not-a-numbers count. The total
order runs from the negative not-a-numbers over the infinity, the numbers and the zeros to the positive ones:
`Score.rank` places every word in it.
-/

namespace PhraseIndex

structure Score where
  word : UInt32
  deriving DecidableEq, Repr

namespace Score

/-- Position in the total order: a positive word counts up from zero, a negative one down from minus one. -/
def rank (s : Score) : Int :=
  let n : Int := s.word.toNat
  if n < 0x80000000 then n else 0x7FFFFFFF - n

/-- Different words have different places. -/
theorem rank_inj {s t : Score} (h : s.rank = t.rank) : s = t := by
  have hs := s.word.toNat_lt
  have ht := t.word.toNat_lt
  have hn : s.word.toNat = t.word.toNat := by
    unfold rank at h
    dsimp only at h
    split at h <;> split at h <;> omega
  cases s
  cases t
  exact congrArg mk (UInt32.toNat_inj.1 hn)

end Score

end PhraseIndex
