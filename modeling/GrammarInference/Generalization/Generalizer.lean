/-
GrammarInference/Generalization/Generalizer.lean

Replacing the samples of tokens by patterns.

Design.  The strings that an unobserved function was seen to read are kept as alternatives of an external
nonterminal.  Each of these is sampled and becomes one of three things.  If enough samples start with white
space and only few strings are left behind it, these strings stay, behind optional white space.  If there are
only few samples, they stay.  Otherwise the first pattern of the library that covers the samples takes their
place, narrowed to the known alphabet where that is a proper part of its own, and tried as it is before it is
tried behind white space; without such a pattern the samples are listed.  Numbers in new names are given out by
the state, so that all fragments can stand in one grammar.
-/
import GrammarInference.Collection.OrderedSet
import GrammarInference.Config
import GrammarInference.Derivation.Generator
import GrammarInference.Generalization.Samples
import GrammarInference.Grammar.Reachable

namespace GrammarInference

/-- Is this the nonterminal of an unobserved function, or of the samples of a token? -/
def isExternal (n : String) : Bool := "<__external_".toList.isPrefixOf n.toList

/-- What became of a token. -/
inductive Generalization where
  /-- Its strings stand behind optional white space, with the given root. -/
  | spacedLiterals (root : String)
  /-- Its strings are listed. -/
  | literals
  /-- A pattern with the given root took their place. -/
  | pattern (root : String)
  deriving DecidableEq, Repr

/-- What the generalization of one token shows the next. -/
structure Generalizer where
  /-- The settings. -/
  config : GeneralizeConfig
  /-- The number of narrowed patterns. -/
  patternCount : Nat
  /-- The number of nonterminals for literals. -/
  literalCount : Nat
  /-- The sets of white space, in the order in which they were numbered. -/
  spaces : OrderedSet (SortedSet Char)

namespace Generalizer

/-- Nothing was generalized. -/
def new (config : GeneralizeConfig) : Generalizer := ⟨config, 0, 0, ∅⟩

/-- The number of a set of white space. -/
def spaceId (gen : Generalizer) (chars : SortedSet Char) : Nat × Generalizer :=
  let spaces := gen.spaces.insert chars
  (spaces.indexOf chars + 1, { gen with spaces := spaces })

/-- One alternative for each string. -/
def literalRules (strings : SortedSet String) : List Rule := strings.toList.map fun s => [.terminal s]

/-- Does the pattern match all samples but an allowed share? -/
def covers (gen : Generalizer) (p : Pattern) (samples : SortedSet String) : Except Error Bool :=
  if samples.isEmpty then .ok false
  else
    match p.matcher with
    | .error e => .error e
    | .ok accepts =>
      let mismatches := (samples.toList.filter fun s => !accepts s).length
      .ok (Float.ofNat mismatches / Float.ofNat samples.size < gen.config.allowedMismatchRate)

/-- The pattern, narrowed to the alphabet where that is a proper part of its own. -/
def narrow (gen : Generalizer) (p : Pattern) (alphabet : SortedSet Char) : Pattern × Generalizer :=
  if p.isRun && !alphabet.isEmpty && decide (alphabet ≠ p.alphabet) && alphabet.isSubset p.alphabet then
    let id := gen.patternCount + 1
    (p.narrowed alphabet id, { gen with patternCount := id })
  else (p, gen)

/-- The forms in which a pattern is tried: as it is, then behind white space. -/
def forms (gen : Generalizer) (p : Pattern) (spaced : Bool) (stripped : Stripped) :
    List Pattern × Generalizer :=
  if !p.whitespace && spaced then
    let (id, gen) := gen.spaceId stripped.spaceAlphabet
    ([p, p.withLeadingSpace stripped.spaceAlphabet id], gen)
  else ([p], gen)

/-- The first of some patterns that covers the samples. -/
def firstCovering (gen : Generalizer) (samples : SortedSet String) :
    List Pattern → Except Error (Option Pattern)
  | [] => .ok none
  | p :: rest =>
    match gen.covers p samples with
    | .error e => .error e
    | .ok true => .ok (some p)
    | .ok false => firstCovering gen samples rest

/-- The first pattern of a list that covers the samples in one of its forms. -/
def search (gen : Generalizer) (samples : SortedSet String) (alphabet : SortedSet Char) (spaced : Bool)
    (stripped : Stripped) : List Pattern → Except Error (Option Pattern) × Generalizer
  | [] => (.ok none, gen)
  | p :: rest =>
    let (p, gen) := gen.narrow p alphabet
    let (candidates, gen) := gen.forms p spaced stripped
    match gen.firstCovering samples candidates with
    | .error e => (.error e, gen)
    | .ok (some found) => (.ok (some found), gen)
    | .ok none => search gen samples alphabet spaced stripped rest

/-- The root of a pattern that is referred to: that of single characters if no sample is longer. -/
def rootFor (p : Pattern) (stripped : Stripped) : String :=
  match p.charName? with
  | some c =>
    if (stripped.rest.toList.all fun s => decide (s.length ≤ 1)) && !p.whitespace then c else p.stringName
  | none => p.stringName

/-- Literals behind optional white space, as a definition of `n`. -/
def spacedLiterals (gen : Generalizer) (n : String) (stripped : Stripped) :
    (Generalization × Grammar) × Generalizer :=
  let id := gen.literalCount + 1
  let literal := "<toknt" ++ toString id ++ ">"
  let (spaceId, gen) := { gen with literalCount := id }.spaceId stripped.spaceAlphabet
  let plain : Pattern :=
    { regex := .nothing
      stringName := literal
      charName? := none
      grammar := .ofList [(literal, literalRules stripped.rest)]
      whitespace := false }
  let p := plain.withLeadingSpace stripped.spaceAlphabet spaceId
  ((.spacedLiterals p.stringName, p.grammar.insert n [[.nonterminal p.stringName]]), gen)

/-- Decides on one token with the given alternatives: what becomes of it, and a fragment that defines it with
all that it refers to. -/
def generalizeToken (gen : Generalizer) (n : String) (rules : List Rule) (samples : SortedSet String)
    (alphabet : SortedSet Char) : Except Error (Generalization × Grammar) × Generalizer :=
  let stripped := Stripped.ofSamples samples
  let threshold := gen.config.thresholdGeneralization
  let spaced := decide (0 < stripped.spacedCount) &&
    Float.ofNat samples.size * gen.config.spaceRatio ≤ Float.ofNat stripped.spacedCount
  if spaced && decide (stripped.rest.size ≤ threshold) && !stripped.isSpaceOnly then
    let (result, gen) := gen.spacedLiterals n stripped
    (.ok result, gen)
  else if samples.size ≤ threshold then (.ok (.literals, .ofList [(n, rules)]), gen)
  else
    match gen.search samples alphabet spaced stripped patternLibrary with
    | (.error e, gen) => (.error e, gen)
    | (.ok (some p), gen) =>
      let root := rootFor p stripped
      (.ok (.pattern root, p.grammar.insert n [[.nonterminal root]]), gen)
    | (.ok none, gen) => (.ok (.literals, .ofList [(n, literalRules samples)]), gen)

/-! ### Whole grammars -/

/-- The distinct strings of a number of derivations from `n`. -/
def sample (n : String) : Nat → Generator → List String → Except Error (SortedSet String) × Generator
  | 0, source, found => (.ok (.ofList found), source)
  | draws + 1, source, found =>
    match source.generateString n .never with
    | (.ok s, source) => sample n draws source (if s ∈ found then found else s :: found)
    | (.error e, source) => (.error e, source)

/-- Generalizes the external nonterminals among some definitions, and adds all of them to `out`. -/
def generalizeEntries (g : Grammar) (alphabets : OrderedMap String (SortedSet Char)) :
    List (String × List Rule) → Generalizer → Generator → Grammar → Except Error Grammar
  | [], _, _, out => .ok out
  | (n, rules) :: rest, gen, source, out =>
    if !isExternal n then generalizeEntries g alphabets rest gen source (out.insert n rules)
    else
      match sample n gen.config.samples source [] with
      | (.error e, _) => .error e
      | (.ok samples, source) =>
        let alphabet := (alphabets.get? n).getD (g.terminalAlphabet n)
        match gen.generalizeToken n rules samples alphabet with
        | (.error e, _) => .error e
        | (.ok (_, fragment), gen) =>
          generalizeEntries g alphabets rest gen source (out.overlay fragment)

/-- Generalizes every external nonterminal.  The characters that a token may consist of are given, or else
those of the terminals that it reaches. -/
def generalize (gen : Generalizer) (g : Grammar) (alphabets : OrderedMap String (SortedSet Char)) :
    Except Error Grammar :=
  generalizeEntries g alphabets g.entries gen (.new g gen.config.maxDepth gen.config.seed) ∅

end Generalizer

end GrammarInference
