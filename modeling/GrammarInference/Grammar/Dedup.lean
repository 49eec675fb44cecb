/-
GrammarInference/Grammar/Dedup.lean

Merging nonterminals that have the same alternatives.

Design.  One pass collapses every definition onto the first one with the same list of alternatives and redirects
the references to it; the start symbol takes no part.  Redirected references can make two alternatives, and then
two definitions, equal, so passes are repeated until one finds nothing.  A pass that finds something removes a
definition, which bounds the number of passes by the size of the grammar.
-/
import GrammarInference.Grammar.Basic

namespace GrammarInference

namespace Grammar

/-- The first nonterminal, the start symbol apart, that has exactly the alternatives `rs`. -/
def firstWith (g : Grammar) (rs : List Rule) : Option String :=
  (g.entries.find? fun e => decide (e.1 ≠ startName) && decide (e.2 = rs)).map Prod.fst

/-- Each nonterminal that repeats an earlier definition, with the earlier one. -/
def duplicates (g : Grammar) : List (String × String) :=
  g.entries.filterMap fun e =>
    if e.1 = startName then none
    else
      match g.firstWith e.2 with
      | some kept => if kept = e.1 then none else some (e.1, kept)
      | none => none

/-- Removes a repeated definition and lets its references point to the one that is kept. -/
def collapse (g : Grammar) (duplicate kept : String) : Grammar :=
  replaceReferences (g.erase duplicate) duplicate kept

/-- Drops repeated alternatives everywhere. -/
def distinctAlternatives (g : Grammar) : Grammar := g.mapValues fun _ rs => distinct rs

/-- One pass; none if no definition is repeated. -/
def dedupOnce? (g : Grammar) : Option Grammar :=
  match g.duplicates with
  | [] => none
  | pairs => some (distinctAlternatives (pairs.foldl (fun g p => collapse g p.1 p.2) g))

/-- At most `passes` passes. -/
def dedupWithin : Nat → Grammar → Grammar
  | 0, g => g
  | passes + 1, g =>
    match g.dedupOnce? with
    | none => g
    | some g' => dedupWithin passes g'

/-- Merges repeated definitions until there are none. -/
def dedup (g : Grammar) : Grammar := dedupWithin g.size g

end Grammar

end GrammarInference
