/-
GrammarInference/Grammar/Listing.lean

The listing of a grammar for readers: one block per nonterminal, in the order in which they are reached from
the start symbol, then the others, then the undefined names.
-/
import GrammarInference.Grammar.Reachable

namespace GrammarInference

namespace Grammar

/-- The line of one alternative. -/
def listRule (r : Rule) : String :=
  match r with
  | [] => "    | \"\"\n"
  | _ => "    | " ++ " ".intercalate (r.map Symbol.display) ++ "\n"

/-- The listing of a grammar. -/
def listing (g : Grammar) : String :=
  let order := g.reachableFrom startName ++ g.unreachableFrom startName
  let blocks := order.map fun n => n ++ " ::=\n" ++ String.join ((g.alternatives n).map listRule)
  let undefined := g.undefinedNames
  String.join blocks ++
    (if undefined.isEmpty then "" else "undefined: " ++ ", ".intercalate undefined.toList ++ "\n")

end Grammar

end GrammarInference
