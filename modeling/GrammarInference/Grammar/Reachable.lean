/-
GrammarInference/Grammar/Reachable.lean

Which nonterminals can be reached from one of them, and which names lead nowhere.

Design.  The search is breadth first over a queue of names that were found and not yet visited; a name enters
the queue once, when it is first mentioned, and only if it is defined.  So a search takes at most one step per
definition, which is the bound on the number of steps.
-/
import GrammarInference.Error
import GrammarInference.Grammar.Basic

namespace GrammarInference

namespace Grammar

/-- The names that visiting `n` adds to those already found. -/
def freshMentions (g : Grammar) (found : List String) (n : String) : List String :=
  distinct ((g.mentions n).filter fun m => g.contains m && !found.contains m)

/-- Visits the queue in order; gives the visited names in the order of their visits. -/
def visit (g : Grammar) : Nat → List String → List String → List String
  | 0, visited, _ => visited
  | _ + 1, visited, [] => visited
  | steps + 1, visited, n :: queue =>
    visit g steps (visited ++ [n]) (queue ++ freshMentions g (visited ++ n :: queue) n)

/-- The defined nonterminals that can be reached from `start`, in the order of their discovery. -/
def reachableFrom (g : Grammar) (start : String) : List String :=
  if g.contains start then visit g g.size [] [start] else []

/-- The names that cannot be reached from `start`, in the order of the grammar. -/
def unreachableFrom (g : Grammar) (start : String) : List String :=
  let reachable := g.reachableFrom start
  g.keys.filter fun n => !reachable.contains n

/-- Removes the definitions that cannot be reached from `start`. -/
def pruneUnreachable (g : Grammar) (start : String) : Grammar :=
  let reachable := g.reachableFrom start
  g.filterKeys fun n => reachable.contains n

/-- The names that are mentioned anywhere and defined nowhere. -/
def undefinedNames (g : Grammar) : SortedSet String :=
  .ofList ((g.values.flatten.flatMap Rule.names).filter fun n => !g.contains n)

/-- The undefined names that the definitions reachable from `start` mention. -/
def danglingFrom (g : Grammar) (start : String) : SortedSet String :=
  .ofList (((g.reachableFrom start).flatMap g.mentions).filter fun n => !g.contains n)

/-- The characters of a rule's terminals. -/
def terminalChars (r : Rule) : List Char :=
  r.flatMap fun s => if s.isTerminal then s.text.toList else []

/-- The characters of all terminals in the definitions reachable from `n`. -/
def terminalAlphabet (g : Grammar) (n : String) : SortedSet Char :=
  .ofList ((g.reachableFrom n).flatMap fun m => (g.alternatives m).flatMap terminalChars)

/-- Checks that the start symbol is defined, that nothing it reaches is undefined, and that no nonterminal
lists an alternative twice. -/
def validate (g : Grammar) : Except Error Unit :=
  if !g.contains startName then .error .missingStart
  else
    let dangling := g.danglingFrom startName
    if !dangling.isEmpty then .error (.danglingNonterminals dangling.toList)
    else
      match g.entries.find? fun e => decide (¬ e.2.Nodup) with
      | some e => .error (.duplicateAlternative e.1)
      | none => .ok ()

end Grammar

end GrammarInference
