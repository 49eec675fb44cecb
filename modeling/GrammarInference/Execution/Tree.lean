/-
GrammarInference/Execution/Tree.lean

Execution trees: which calls and loop iterations read which part of an input.

Design.  Inner nodes stand for calls, loops and single iterations of loops.  A bucket is a leaf that holds the
values that one input position may take.
-/
import GrammarInference.Symbol

namespace GrammarInference

/-- What a node of an execution tree stands for. -/
inductive NodeKind where
  /-- A call of a function. -/
  | call
  /-- A loop of a function. -/
  | loop
  /-- One iteration of a loop. -/
  | iteration
  /-- The sorted values that one input position may take. -/
  | bucket (values : List Nat)
  deriving DecidableEq, Repr

/-- An execution tree. -/
inductive ExecutionTree where
  /-- A labelled node with the trees below it. -/
  | node (label : String) (kind : NodeKind) (children : List ExecutionTree)

instance : Inhabited ExecutionTree := ⟨.node "" .call []⟩

namespace ExecutionTree

/-- The label of the root. -/
def label : ExecutionTree → String
  | .node l _ _ => l

/-- What the root stands for. -/
def kind : ExecutionTree → NodeKind
  | .node _ k _ => k

/-- The trees below the root. -/
def children : ExecutionTree → List ExecutionTree
  | .node _ _ ts => ts

/-- The labels below the root: the rule that the root stands for. -/
def childLabels (t : ExecutionTree) : List String := t.children.map label

mutual

/-- The number of nodes. -/
def size : ExecutionTree → Nat
  | .node _ _ ts => 1 + sizeAll ts

/-- The number of nodes of all trees of a list. -/
def sizeAll : List ExecutionTree → Nat
  | [] => 0
  | t :: ts => t.size + sizeAll ts

end

mutual

/-- The nodes, each before its children, with their depths. -/
def preorder : Nat → ExecutionTree → List (Nat × String × NodeKind)
  | depth, .node l k ts => (depth, l, k) :: preorderAll (depth + 1) ts

/-- The same for a list of trees. -/
def preorderAll : Nat → List ExecutionTree → List (Nat × String × NodeKind)
  | _, [] => []
  | depth, t :: ts => preorder depth t ++ preorderAll depth ts

end

/-- The trees of a queue and those below them, level by level; at most `bound` of them. -/
def breadthFirst : Nat → List ExecutionTree → List ExecutionTree
  | 0, _ => []
  | _, [] => []
  | bound + 1, t :: queue => t :: breadthFirst bound (queue ++ t.children)

/-- All subtrees, level by level. -/
def levels (t : ExecutionTree) : List ExecutionTree := breadthFirst t.size [t]

end ExecutionTree

end GrammarInference
