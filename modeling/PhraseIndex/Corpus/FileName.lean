import PhraseIndex.Decimal.Whole

/-!
# Names of corpus files

A corpus file is named by its number, `corpus.000007.dat` for seven. Reading a name back is more lenient than writing
it: any number of digits will do, also after a plus sign, as long as the number fits in 32 bits.
-/

namespace PhraseIndex.FileName

def lead : String := "corpus."

def trail : String := ".dat"

/-- Six digits, or more if the number has more. -/
def ofId (id : UInt32) : String :=
  let digits := toString id
  lead ++ String.ofList (List.replicate (6 - digits.length) '0') ++ digits ++ trail

/-- What stands between the fixed parts of a file name. -/
def middle? (name : String) : Option (List Char) :=
  let cs := name.toList
  let front := lead.toList
  let back := trail.toList
  if front.isPrefixOf cs then
    let rest := cs.drop front.length
    if back.isSuffixOf rest then some (rest.take (rest.length - back.length)) else none
  else none

def id? (name : String) : Option UInt32 := do
  let n ← Decimal.unsigned? UInt32.size (← middle? name)
  pure (UInt32.ofNat n)

end PhraseIndex.FileName
