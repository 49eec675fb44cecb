/-
GrammarInference/Earley/Table.lean

A grammar prepared for parsing.

Design.  The alternatives of all nonterminals stand in one list, in the order of the grammar, and are referred
to by their places in it; texts are split into characters.  A nonterminal is nullable if it derives the empty
string.
-/
import GrammarInference.Grammar.Basic
import Std.Data.TreeMap

namespace GrammarInference

namespace Earley

/-- A part of an alternative. -/
inductive Part where
  /-- A literal text. -/
  | text (chars : List Char)
  /-- A reference to a nonterminal. -/
  | name (n : String)
  deriving DecidableEq, Repr

/-- The part for a symbol. -/
def Part.ofSymbol : Symbol → Part
  | .terminal t => .text t.toList
  | .nonterminal n => .name n

/-- An alternative with its nonterminal. -/
structure Production where
  /-- The nonterminal. -/
  lhs : String
  /-- The parts of the alternative. -/
  parts : Array Part
  deriving DecidableEq, Repr

/-- A grammar prepared for parsing. -/
structure Table where
  /-- The alternatives of all nonterminals. -/
  productions : Array Production
  /-- The places of the alternatives of each nonterminal. -/
  places : Std.TreeMap String (List Nat)
  /-- The nonterminals that derive the empty string. -/
  nullable : List String

namespace Table

/-! ### Productions -/

/-- The alternatives of all nonterminals, in the order of the grammar. -/
def productionList (g : Grammar) : List Production :=
  g.entries.flatMap fun e => e.2.map fun r => ⟨e.1, (r.map Part.ofSymbol).toArray⟩

/-- The places of the productions for `n`. -/
def placesOf (ps : List Production) (n : String) : List Nat :=
  (ps.zipIdx.filter fun p => decide (p.1.lhs = n)).map Prod.snd

/-! ### Nullable nonterminals -/

/-- Does the part derive the empty string, if the nonterminals in `known` do? -/
def isNullablePart (known : List String) : Part → Bool
  | .text w => w.isEmpty
  | .name n => known.contains n

/-- The nonterminals with an alternative whose parts all derive the empty string. -/
def nullableStep (ps : List Production) (known : List String) : List String :=
  distinct ((ps.filter fun p => p.parts.toList.all (isNullablePart known)).map Production.lhs)

/-- Repeats the step until it finds nothing new, at most `rounds` times. -/
def nullableWithin (ps : List Production) : Nat → List String → List String
  | 0, known => known
  | rounds + 1, known =>
    let more := nullableStep ps known
    if more.length = known.length then known else nullableWithin ps rounds more

/-- The nonterminals that derive the empty string. -/
def nullableNames (ps : List Production) : List String := nullableWithin ps (ps.length + 1) []

/-- Prepares a grammar. -/
def ofGrammar (g : Grammar) : Table :=
  let ps := productionList g
  { productions := ps.toArray
    places := g.keys.foldl (fun m n => m.insert n (placesOf ps n)) ∅
    nullable := nullableNames ps }

/-- The places of the alternatives of `n`. -/
def alternatives (t : Table) (n : String) : List Nat := (t.places.get? n).getD []

/-- The part of production `p` at `dot`. -/
def part? (t : Table) (p dot : Nat) : Option Part :=
  match t.productions[p]? with
  | some production => production.parts[dot]?
  | none => none

/-- The nonterminal of production `p`. -/
def lhs (t : Table) (p : Nat) : String := ((t.productions[p]?).map Production.lhs).getD ""

/-- The number of places that a dot can take in all productions. -/
def dots (t : Table) : Nat := (t.productions.toList.map fun p => p.parts.size + 1).foldr (· + ·) 0

end Table

/-- Does the text stand in the input at `pos`, and end no later than `last`? -/
def matchesAt (input : Array Char) (pos last : Nat) : List Char → Bool
  | [] => true
  | c :: rest => decide (pos < last) && decide (input[pos]? = some c) && matchesAt input (pos + 1) last rest

end Earley

end GrammarInference
