/-
GrammarInference/Generalization/Samples.lean

Samples of a token, split into leading white space and the rest.
-/
import GrammarInference.Collection.SortedSet
import GrammarInference.Pattern.Library

namespace GrammarInference

/-- What is seen when leading white space is taken off a set of samples. -/
structure Stripped where
  /-- The characters that were taken off. -/
  spaceAlphabet : SortedSet Char
  /-- The number of samples that had leading white space. -/
  spacedCount : Nat
  /-- The samples that are left. -/
  rest : SortedSet String
  deriving DecidableEq

namespace Stripped

/-- The leading white space of a sample, and the rest. -/
def split (sample : String) : List Char × String :=
  let (space, rest) := sample.toList.span isSpaceOrControl
  (space, String.ofList rest)

/-- Takes leading white space off every sample. -/
def ofSamples (samples : SortedSet String) : Stripped :=
  let parts := samples.toList.map split
  { spaceAlphabet := .ofList (parts.flatMap Prod.fst)
    spacedCount := (parts.filter fun p => !p.1.isEmpty).length
    rest := .ofList (parts.map Prod.snd) }

/-- Were all samples white space alone, and at least one? -/
def isSpaceOnly (s : Stripped) : Bool := decide (s.rest.toList = [""])

end Stripped

end GrammarInference
