/-
GrammarInference/Execution/Build.lean

The execution tree of an ordered trace.

Design.  Every position contributes the path of its call stack with a bucket at the end.  Paths are merged only
along the right edge of the tree: reads that follow each other in one call stand under one node, while a call
that is repeated later gets a node of its own.
-/
import GrammarInference.Execution.Label
import GrammarInference.Trace.Order

namespace GrammarInference

namespace ExecutionTree

/-- Inserts a path with a leaf at its end below some siblings, sharing the last of them if its label fits. -/
def insertPath (leaf : ExecutionTree) : List PathElement → List ExecutionTree → List ExecutionTree
  | [], siblings => siblings ++ [leaf]
  | e :: path, siblings =>
    match siblings.getLast? with
    | some (.node label kind children) =>
      if label = e.label then siblings.dropLast ++ [.node label kind (insertPath leaf path children)]
      else siblings ++ [.node e.label e.kind (insertPath leaf path [])]
    | none => siblings ++ [.node e.label e.kind (insertPath leaf path [])]

/-- Inserts the positions one by one. -/
def insertPositions (mode : ContextMode) (keepNull : Bool) (roots : List ExecutionTree) (s : LabelState) :
    List OrderedPosition → List ExecutionTree × LabelState
  | [] => (roots, s)
  | p :: rest =>
    let (path, s) := s.path p.context mode
    let (leaf, s) := s.bucket p.solutions keepNull
    insertPositions mode keepNull (insertPath leaf path roots) s rest

/-- The tree of an ordered trace: of several trees at the top the first one.  None for a trace without
positions. -/
def build (t : OrderedTrace) (s : LabelState) (mode : ContextMode) (keepNull : Bool) :
    Option ExecutionTree × LabelState :=
  let (roots, s) := insertPositions mode keepNull [] s t.positions
  (roots.head?, s)

end ExecutionTree

end GrammarInference
