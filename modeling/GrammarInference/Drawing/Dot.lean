/-
GrammarInference/Drawing/Dot.lean

Drawings of trees in the DOT format.

Design.  Execution trees get fresh numbers in the order in which their nodes are written, a node before its
subtrees and the edge to a child behind that child's subtree.  Nodes of parse trees are named after their
addresses, so a shared subtree is drawn once while every reference to it gets an edge.  A drawing is a list of
statements, for nodes and for edges, that is written out at the end.  Labels are quoted: nothing in them ends
the quotes, breaks the line or stays an open escape.
-/
import GrammarInference.Execution.Tree
import GrammarInference.Text.Quoted
import GrammarInference.Tree.Arena

namespace GrammarInference

/-- Settings of a drawing. -/
structure DotConfig where
  /-- The shape of inner nodes. -/
  nodeShape : String := "box"
  /-- The shape of buckets and terminals. -/
  terminalShape : String := "ellipse"
  /-- The style of edges to loops and iterations. -/
  loopEdgeStyle : String := "dashed"
  /-- Buckets with more values are abbreviated. -/
  maxBucketChars : Nat := 16
  deriving DecidableEq, Repr

namespace Dot

/-! ### Labels -/

/-- How a character is written in a label. -/
def escapeChar (c : Char) : List Char :=
  if c = quoteMark then [backslash, quoteMark]
  else if c = backslash then [backslash, backslash]
  else if c = '\n' then [backslash, 'n']
  else if isControl c then backslash :: backslash :: 'x' :: padZeros 2 (hexDigits c.toNat)
  else [c]

/-- A text inside the quotes of a label. -/
def escape (s : String) : String := String.ofList (s.toList.flatMap escapeChar)

/-- The text for the values of a bucket, at most `limit` of them. -/
def bucketText (values : List Nat) (limit : Nat) : String :=
  let shown := String.ofList ((values.take limit).filterMap charOfCode?)
  if limit < values.length then shown ++ "… (" ++ toString values.length ++ " values)" else shown

/-! ### Lines -/

/-- A statement of a drawing. -/
inductive Line where
  /-- A node, with a shape of its own or the default one, and the text inside the quotes of its label. -/
  | node (n : Nat) (shape : Option String) (label : String)
  /-- An edge, with a style of its own or the default one. -/
  | edge (m n : Nat) (style : Option String)
  deriving DecidableEq, Repr

/-- The name of a node. -/
def nodeName (n : Nat) : String := "n" ++ toString n

/-- The text of a statement. -/
def Line.render : Line → String
  | .node n none label => nodeName n ++ " [label=\"" ++ label ++ "\"];\n"
  | .node n (some shape) label => nodeName n ++ " [shape=" ++ shape ++ ", label=\"" ++ label ++ "\"];\n"
  | .edge m n none => nodeName m ++ " -> " ++ nodeName n ++ ";\n"
  | .edge m n (some style) => nodeName m ++ " -> " ++ nodeName n ++ " [style=" ++ style ++ "];\n"

/-- The text of a drawing. -/
def render (config : DotConfig) (lines : List Line) : String :=
  "digraph \x7b\nnode [shape=" ++ config.nodeShape ++ "];\n" ++ String.join (lines.map Line.render) ++ "\x7d\n"

/-! ### Execution trees -/

/-- The statement for a node of an execution tree. -/
def executionNode (config : DotConfig) (n : Nat) (label : String) : NodeKind → Line
  | .bucket values =>
    .node n (some config.terminalShape)
      (escape label ++ String.ofList [backslash, 'n'] ++ escape (bucketText values config.maxBucketChars))
  | _ => .node n none (escape label)

/-- The style of an edge to a node of the given kind. -/
def edgeStyle (config : DotConfig) : NodeKind → Option String
  | .loop => some config.loopEdgeStyle
  | .iteration => some config.loopEdgeStyle
  | _ => none

mutual

/-- The statements for a tree whose root gets the number `next`. -/
def executionLines (config : DotConfig) (next : Nat) : ExecutionTree → List Line
  | .node label kind ts => executionNode config next label kind :: childLines config next (next + 1) ts

/-- The statements for the subtrees of node `parent`, numbered from `next` on, each with its edge. -/
def childLines (config : DotConfig) (parent next : Nat) : List ExecutionTree → List Line
  | [] => []
  | t :: ts =>
    executionLines config next t ++ .edge parent next (edgeStyle config t.kind) ::
      childLines config parent (next + t.size) ts

end

/-- The drawing of an execution tree. -/
def ofExecutionTree (config : DotConfig) (t : ExecutionTree) : String :=
  render config (executionLines config 0 t)

/-! ### Parse trees -/

/-- The statement for a node of a parse tree. -/
def parseNode (config : DotConfig) (n : Nat) : Symbol → Line
  | .nonterminal name => .node n none (escape name)
  | .terminal text => .node n (some config.terminalShape) (escape (quoted text))

/-- The statements for the nodes on a stack and those below them that were not seen; at most `bound` nodes are
taken from the stack. -/
def parseLines (config : DotConfig) (a : Arena) : Nat → List NodeId → List NodeId → List Line
  | 0, _, _ => []
  | _, _, [] => []
  | bound + 1, seen, id :: stack =>
    if seen.contains id then parseLines config a bound seen stack
    else
      let children := a.children id
      parseNode config id.index (a.symbol id) ::
        children.map (fun c => .edge id.index c.index none) ++
        parseLines config a bound (id :: seen) (children.reverse ++ stack)

/-- The number of references from nodes to their children. -/
def referenceCount (a : Arena) : Nat := (a.nodes.toList.map fun n => n.children.length).foldr (· + ·) 0

/-- The drawing of the tree at an address. -/
def ofParseTree (config : DotConfig) (a : Arena) (root : NodeId) : String :=
  render config (parseLines config a (referenceCount a + 1) [] [root])

end Dot

end GrammarInference
