/-
GrammarInference/Tree/Basic.lean

Trees of symbols: what they derive, and how they are listed.

Design.  A node holds a symbol and its children.  A terminal contributes its own text to the yield, whatever
stands below it; a nonterminal contributes what its children yield, from left to right.
-/
import GrammarInference.Grammar.Basic

namespace GrammarInference

/-- A tree of symbols. -/
inductive Tree where
  /-- A symbol with the trees below it. -/
  | node (symbol : Symbol) (children : List Tree)

namespace Tree

/-- The symbol at the root. -/
def symbol : Tree → Symbol
  | .node s _ => s

/-- The trees below the root. -/
def children : Tree → List Tree
  | .node _ ts => ts

/-- The rule that is applied at the root. -/
def rule (t : Tree) : Rule := t.children.map symbol

mutual

/-- The characters that a tree derives. -/
def yield : Tree → List Char
  | .node (.terminal text) _ => text.toList
  | .node (.nonterminal _) ts => yieldAll ts

/-- The characters that a list of trees derives, from left to right. -/
def yieldAll : List Tree → List Char
  | [] => []
  | t :: ts => t.yield ++ yieldAll ts

end

mutual

/-- The yield of a tree in front of some characters. -/
def yieldOnto : Tree → List Char → List Char
  | .node (.terminal text) _, l => text.toList ++ l
  | .node (.nonterminal _) ts, l => yieldAllOnto ts l

/-- The yield of a list of trees in front of some characters. -/
def yieldAllOnto : List Tree → List Char → List Char
  | [], l => l
  | t :: ts, l => yieldOnto t (yieldAllOnto ts l)

end

mutual

theorem yieldOnto_eq (t : Tree) (l : List Char) : t.yieldOnto l = t.yield ++ l := by
  match t with
  | .node (.terminal text) _ => rw [yieldOnto, yield]
  | .node (.nonterminal _) ts => rw [yieldOnto, yield, yieldAllOnto_eq ts l]

theorem yieldAllOnto_eq (ts : List Tree) (l : List Char) : yieldAllOnto ts l = yieldAll ts ++ l := by
  match ts with
  | [] => rfl
  | t :: ts => rw [yieldAllOnto, yieldAll, yieldOnto_eq t, yieldAllOnto_eq ts l, List.append_assoc]

end

/-- The string that a tree derives. -/
def yieldString (t : Tree) : String := String.ofList (t.yieldOnto [])

theorem toList_yieldString (t : Tree) : t.yieldString.toList = t.yield := by
  rw [yieldString, String.toList_ofList, yieldOnto_eq, List.append_nil]

mutual

/-- The nodes from the root on, each before its children, with their depths. -/
def preorder : Nat → Tree → List (Nat × Symbol)
  | depth, .node s ts => (depth, s) :: preorderAll (depth + 1) ts

/-- The same for a list of trees. -/
def preorderAll : Nat → List Tree → List (Nat × Symbol)
  | _, [] => []
  | depth, t :: ts => preorder depth t ++ preorderAll depth ts

end

/-- One line for each node, indented by its depth. -/
def outline (t : Tree) : String :=
  String.join ((t.preorder 0).map fun (depth, s) =>
    String.ofList (List.replicate (2 * depth) ' ') ++ s.display ++ "\n")

mutual

/-- Is this a derivation tree: is every rule at a nonterminal one of its alternatives, and every terminal a
leaf? -/
def isDerivation (g : Grammar) : Tree → Bool
  | .node (.terminal _) ts => ts.isEmpty
  | .node (.nonterminal n) ts => decide (ts.map symbol ∈ g.alternatives n) && areDerivations g ts

/-- The same for all trees of a list. -/
def areDerivations (g : Grammar) : List Tree → Bool
  | [] => true
  | t :: ts => isDerivation g t && areDerivations g ts

end

end Tree

end GrammarInference
