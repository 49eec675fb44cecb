/-
GrammarInference/Derivation/Generator.lean

Random derivations of limited depth.

Design.  A nonterminal is expanded by an alternative chosen uniformly at random, among those that can end;
from a given depth on only among the cheapest ones, so every derivation ends.  The nodes of a tree are
allocated from left to right, each behind its children.  The random stream goes on from one derivation to the
next, also behind one that failed.  The depth of a derivation is at most the given depth plus the largest
height of a nonterminal, which bounds the recursion.
-/
import GrammarInference.Deadline
import GrammarInference.Derivation.Cost
import GrammarInference.Error
import GrammarInference.Random.Stream
import GrammarInference.Tree.Arena

namespace GrammarInference

/-- A source of random derivations of one grammar. -/
structure Generator where
  /-- The alternatives of every nonterminal, with their heights. -/
  options : OrderedMap String (List (Rule × Height))
  /-- The depth from which the cheapest alternatives are taken. -/
  maxDepth : Nat
  /-- The bound on the depth of derivations. -/
  depthBound : Nat
  /-- The random stream. -/
  random : RandomStream

namespace Generator

/-- The largest height of a nonterminal that has one. -/
def largestHeight (known : Grammar.Heights) : Nat := (known.values.map fun h => h.getD 0).foldl max 0

/-- A source of derivations. -/
def new (g : Grammar) (maxDepth seed : Nat) : Generator :=
  let known := g.heights
  { options := g.mapValues fun _ rs => rs.map fun r => (r, Grammar.ruleHeight (Grammar.heightIn known) r)
    maxDepth := maxDepth
    depthBound := max maxDepth 1 + largestHeight known + 1
    random := .ofSeed seed }

/-- The least height of a derivation from `n`; none if there is no finite one. -/
def cost (gen : Generator) (n : String) : Height :=
  Height.minimum (((gen.options.get? n).getD []).map Prod.snd)

/-- What changes while a tree is derived. -/
structure State where
  /-- The random stream. -/
  random : RandomStream
  /-- The nodes. -/
  arena : Arena
  /-- The count of expansions. -/
  checkpoint : Checkpoint

/-- Adds a node. -/
def State.alloc : State → Symbol → List NodeId → NodeId × State
  | ⟨random, arena, checkpoint⟩, symbol, children =>
    let (id, arena) := arena.alloc symbol children
    (id, ⟨random, arena, checkpoint⟩)

/-- The alternatives to choose from at a depth: those that can end, or the cheapest of them. -/
def candidates (gen : Generator) (depth : Nat) (options : List (Rule × Height)) : List Rule :=
  if gen.maxDepth ≤ depth then
    let least := Height.minimum (options.map Prod.snd)
    (options.filter fun o => least.isSome && decide (o.2 = least)).map Prod.fst
  else (options.filter fun o => o.2.isSome).map Prod.fst

/-- The forced alternative, or a random one. -/
def pick (gen : Generator) (n : String) (forced : Option Nat) (depth : Nat) (options : List (Rule × Height))
    (s : State) : Except Error Rule × State :=
  match forced with
  | some i =>
    match options[i]? with
    | some (r, some _) => (.ok r, s)
    | _ => (.error (.unproductive n), s)
  | none =>
    match s.random.choose (gen.candidates depth options) with
    | (some r, random) => (.ok r, { s with random := random })
    | (none, random) => (.error (.unproductive n), { s with random := random })

/-- Derives the symbols of a rule from left to right, given how a nonterminal is derived. -/
def expandRule (expandName : String → State → Except Error NodeId × State) :
    Rule → State → Except Error (List NodeId) × State
  | [], s => (.ok [], s)
  | .terminal text :: rest, s =>
    let (id, s) := s.alloc (.terminal text) []
    match expandRule expandName rest s with
    | (.ok ids, s) => (.ok (id :: ids), s)
    | (.error e, s) => (.error e, s)
  | .nonterminal n :: rest, s =>
    match expandName n s with
    | (.error e, s) => (.error e, s)
    | (.ok id, s) =>
      match expandRule expandName rest s with
      | (.ok ids, s) => (.ok (id :: ids), s)
      | (.error e, s) => (.error e, s)

/-- Derives a tree from `n` at a depth; `bound` limits the depth of what is below. -/
def expand (gen : Generator) : Nat → String → Option Nat → Nat → State → Except Error NodeId × State
  | 0, n, _, _, s => (.error (.unproductive n), s)
  | bound + 1, n, forced, depth, s =>
    let (stop, checkpoint) := s.checkpoint.tick
    let s := { s with checkpoint := checkpoint }
    if stop then (.error .interrupted, s)
    else
      match gen.options.get? n with
      | none => (.error (.undefinedNonterminal n), s)
      | some options =>
        match gen.pick n forced depth options s with
        | (.error e, s) => (.error e, s)
        | (.ok r, s) =>
          match expandRule (fun m s => gen.expand bound m none (depth + 1) s) r s with
          | (.error e, s) => (.error e, s)
          | (.ok ids, s) =>
            let (id, s) := s.alloc (.nonterminal n) ids
            (.ok id, s)

/-- The expansions from one look at the deadline to the next. -/
def period : Nat := 256

/-- Derives a tree from `start`, at its root by the alternative `forced` if one is given. -/
def generate (gen : Generator) (arena : Arena) (start : String) (forced : Option Nat) (deadline : Deadline) :
    Except Error NodeId × Arena × Generator :=
  let (result, s) := gen.expand gen.depthBound start forced 0 ⟨gen.random, arena, .start deadline period⟩
  (result, s.arena, { gen with random := s.random })

/-- Derives a string from `start`. -/
def generateString (gen : Generator) (start : String) (deadline : Deadline) :
    Except Error String × Generator :=
  match gen.generate ∅ start none deadline with
  | (.ok id, arena, gen) => (.ok (arena.yieldString id), gen)
  | (.error e, _, gen) => (.error e, gen)

/-- Derives strings until there are `count` of them or no attempts are left; interrupted attempts are passed
over. -/
def collectStrings (deadline : Deadline) (count : Nat) :
    Nat → Generator → List String → Except Error (List String)
  | 0, _, found => .ok found
  | attempts + 1, gen, found =>
    if count ≤ found.length then .ok found
    else
      match gen.generateString startName deadline with
      | (.ok s, gen) => collectStrings deadline count attempts gen (found ++ [s])
      | (.error .interrupted, gen) => collectStrings deadline count attempts gen found
      | (.error e, _) => .error e

end Generator

/-- Derives `count` strings from the start symbol, in at most ten times as many attempts. -/
def sampleStrings (g : Grammar) (count maxDepth seed timeout : Nat) : Except Error (List String) :=
  let attempts := max (count * 10) 10
  Generator.collectStrings (.after timeout) count attempts (.new g maxDepth seed) []

end GrammarInference
