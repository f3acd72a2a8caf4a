import PhraseIndex.Sampling.Score
import PhraseIndex.UpdateBatch

/-!
# Search contexts

A context names the domains that a search looks at first. They are taken by falling score, of equal scores the smaller
domain first, and a domain named several times counts with its highest score.
-/

namespace PhraseIndex

/-- Weight of a domain in the context. -/
structure ContextScore where
  domain : Domain
  score : Score
  deriving DecidableEq, Repr

abbrev Context := List ContextScore

namespace Context

/-- Higher scores first, then smaller domains. -/
def precedes (a b : ContextScore) : Bool :=
  b.score.rank < a.score.rank || (a.score == b.score && a.domain ≤ b.domain)

/-- Keeps the first entry of each domain. -/
def firsts (c : Context) : Context :=
  c.foldl (fun kept e => if kept.any (·.domain == e.domain) then kept else kept ++ [e]) []

/-- The domains in the order in which they are searched. -/
def searchOrder (c : Context) : List Domain := (firsts (c.mergeSort precedes)).map (·.domain)

end Context

end PhraseIndex
