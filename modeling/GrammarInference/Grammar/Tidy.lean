/-
GrammarInference/Grammar/Tidy.lean

Two steps that make a grammar smaller and keep its language.

Design.  Inlining replaces every reference to a nonterminal with a single alternative by that alternative; all
definitions are looked up as they were before the pass, so a chain of such nonterminals is shortened from every
link at once.  Factoring merges two alternatives that differ by one inserted nonterminal `X` into the longer
one, with `X` replaced by a nonterminal for an optional `X`.  Each can enable the other, so they alternate.
Pattern roots keep the structure of tokens readable: they are neither inlined nor changed by inlining.
Passes of inlining can go in circles, so tidying gives up after a number of passes that grows with the grammar.
-/
import GrammarInference.Grammar.Basic
import GrammarInference.Pattern.Library

namespace GrammarInference

namespace Grammar

/-! ### Inlining -/

/-- May references to `n`, with these alternatives, be replaced?  Then gives the only alternative. -/
def inlineBody? (n : String) : List Rule → Option Rule
  | [r] => if isPatternRoot n || r.names.contains n then none else some r
  | _ => none

/-- The bodies of the nonterminals that are inlined. -/
def inlineBodies (g : Grammar) : List (String × Rule) :=
  g.entries.filterMap fun e => (inlineBody? e.1 e.2).map fun r => (e.1, r)

/-- Replaces the references for which there is a body. -/
def inlineInto (bodies : List (String × Rule)) (r : Rule) : Rule :=
  r.flatMap fun s =>
    match s with
    | .terminal _ => [s]
    | .nonterminal n => (OrderedMap.find n bodies).getD [s]

/-- Does the rule mention a nonterminal for which there is a body? -/
def mentionsBody (bodies : List (String × Rule)) (r : Rule) : Bool :=
  r.names.any fun n => (OrderedMap.find n bodies).isSome

/-- One pass of inlining, and whether it replaced a reference. -/
def inlineSingles (g : Grammar) : Grammar × Bool :=
  match inlineBodies g with
  | [] => (g, false)
  | bodies =>
    (g.mapValues fun n rs => if isPatternRoot n then rs else distinct (rs.map (inlineInto bodies)),
     g.entries.any fun e => !isPatternRoot e.1 && e.2.any (mentionsBody bodies))

/-! ### Factoring -/

/-- The index at which `long` is `short` with one symbol inserted. -/
def insertionPoint? : Rule → Rule → Option Nat
  | [], [_] => some 0
  | s :: short, l :: long =>
    if long = s :: short then some 0
    else if s = l then (insertionPoint? short long).map (· + 1) else none
  | _, _ => none

/-- The mark of nonterminals for optional parts. -/
def isOptionalName (n : String) : Bool := "<opt_".toList.isPrefixOf n.toList

/-- A pair of alternatives of which one is the other with a nonterminal inserted. -/
structure OptionalPart where
  /-- The index of the shorter alternative. -/
  short : Nat
  /-- The index of the longer alternative. -/
  long : Nat
  /-- The place of the inserted nonterminal in the longer one. -/
  point : Nat
  /-- The inserted nonterminal. -/
  name : String
  deriving DecidableEq, Repr

/-- The optional part by which the alternatives `a` and `b`, at indices `i` and `j`, differ. -/
def optionalPart? (i j : Nat) (a b : Rule) : Option OptionalPart :=
  let (short, long, s, l) := if a.length < b.length then (a, b, i, j) else (b, a, j, i)
  match insertionPoint? short long with
  | none => none
  | some k =>
    match long[k]? with
    | some (.nonterminal n) => if isOptionalName n then none else some ⟨s, l, k, n⟩
    | _ => none

/-- The first pair of alternatives, in the order of their indices, that differ by an optional part. -/
def findOptional (rs : List Rule) : Option OptionalPart :=
  rs.zipIdx.findSome? fun (a, i) =>
    (rs.zipIdx.drop (i + 1)).findSome? fun (b, j) => optionalPart? i j a b

/-- The definition of an optional `n`. -/
def optionalRules (n : String) : List Rule := [[Symbol.epsilon], [.nonterminal n]]

/-- May `name` be defined by `rs`: is it undefined, or defined that way already? -/
def isFreeFor (g : Grammar) (rs : List Rule) (name : String) : Bool :=
  match g.get? name with
  | none => true
  | some existing => decide (existing = rs)

/-- The name for an optional `n`: the plain one, or the first numbered one that is free. -/
def optionalName (g : Grammar) (n : String) : String :=
  let base := "<opt_" ++ bareName n
  let plain := base ++ ">"
  if g.isFreeFor (optionalRules n) plain then plain
  else
    (((List.range (g.size + 1)).map fun i => base ++ "_" ++ toString (i + 1) ++ ">").find?
      (g.isFreeFor (optionalRules n))).getD plain

/-- Merges the two alternatives of `n` that differ by the optional part `o`. -/
def mergeOptional (g : Grammar) (n : String) (o : OptionalPart) : Grammar :=
  let name := g.optionalName o.name
  let g := g.insert name (optionalRules o.name)
  let rs := (alternatives g n).modify o.long fun r => r.set o.point (.nonterminal name)
  g.insert n (distinct (rs.eraseIdx o.short))

/-- Merges pairs of alternatives of `n`, at most `bound` times, and says whether there was one. -/
def factorDefinition : Nat → Grammar → String → Grammar × Bool
  | 0, g, _ => (g, false)
  | bound + 1, g, n =>
    match findOptional (g.alternatives n) with
    | none => (g, false)
    | some o => ((factorDefinition bound (g.mergeOptional n o) n).1, true)

/-- Merges pairs of alternatives of every nonterminal, and says whether there was one. -/
def factorOptionals (g : Grammar) : Grammar × Bool :=
  g.keys.foldl (fun (g, changed) n =>
    let (g', c) := factorDefinition (g.alternatives n).length g n
    (g', changed || c)) (g, false)

/-! ### Both steps -/

/-- Passes of inlining until one replaces nothing, and whether any did; none if `bound` passes are not
enough. -/
def inlineAll : Nat → Grammar → Option (Grammar × Bool)
  | 0, _ => none
  | bound + 1, g =>
    match inlineSingles g with
    | (g', false) => some (g', false)
    | (g', true) => (inlineAll bound g').map fun (g'', _) => (g'', true)

/-- Inlining and factoring until neither changes anything, in at most `rounds` rounds. -/
def tidyWithin (passes : Nat) : Nat → Grammar → Option Grammar
  | 0, _ => none
  | rounds + 1, g =>
    match inlineAll passes g with
    | none => none
    | some (g₁, inlined) =>
      let (g₂, factored) := factorOptionals g₁
      if inlined || factored then tidyWithin passes rounds g₂ else some g₂

/-- The number of passes, and of rounds, after which tidying is cut off.  Tidying itself has no such number, and what
is proved of it is proved for all numbers. -/
def tidyBound (g : Grammar) : Nat := 64 + 16 * (g.size + g.ruleCount)

/-- Tidies a grammar; none if the passes go in circles. -/
def tidy (g : Grammar) : Option Grammar := tidyWithin (tidyBound g) (tidyBound g) g

end Grammar

end GrammarInference
