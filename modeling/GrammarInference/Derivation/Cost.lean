/-
GrammarInference/Derivation/Cost.lean

The least heights of derivation trees.

Design.  The height of an alternative is one more than the greatest height of a nonterminal that it mentions,
and the height of a nonterminal is the least height of its alternatives.  Nothing is known at first, and rounds
of improvement are made until one changes nothing; a nonterminal without a height then derives no finite
string.  A tree of least height repeats no nonterminal on a path, so there are no more rounds than definitions.
-/
import GrammarInference.Grammar.Basic

namespace GrammarInference

/-- A height, where none stands for a derivation that never ends. -/
abbrev Height := Option Nat

namespace Height

/-- The smaller of two heights. -/
def min : Height → Height → Height
  | none, b => b
  | a, none => a
  | some a, some b => some (Nat.min a b)

/-- The least height of a list. -/
def minimum (l : List Height) : Height := l.foldl min none

end Height

namespace Grammar

/-- The height of an alternative, given those of the nonterminals. -/
def ruleHeight (height : String → Height) (r : Rule) : Height :=
  r.names.foldl (fun h n =>
    match h, height n with
    | some a, some b => some (max a (b + 1))
    | _, _ => none) (some 1)

/-- What is known about the heights of the defined nonterminals. -/
abbrev Heights := OrderedMap String Height

/-- The height of `n`, as far as it is known. -/
def heightIn (known : Heights) (n : String) : Height := (known.get? n).getD none

/-- One round of improvement. -/
def improveHeights (g : Grammar) (known : Heights) : Heights :=
  g.mapValues fun _ rs => Height.minimum (rs.map (ruleHeight (heightIn known)))

/-- Rounds of improvement until nothing changes. -/
def improveWithin (g : Grammar) : Nat → Heights → Heights
  | 0, known => known
  | rounds + 1, known =>
    let better := g.improveHeights known
    if better = known then known else improveWithin g rounds better

/-- The least heights of all defined nonterminals. -/
def heights (g : Grammar) : Heights := g.improveWithin (g.size + 1) (g.mapValues fun _ _ => none)

end Grammar

end GrammarInference
