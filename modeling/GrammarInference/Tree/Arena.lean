/-
GrammarInference/Tree/Arena.lean

Trees whose nodes are stored in one growing table.

Design.  A node is addressed by its index in the table and is never changed once it is there.  A tree is
changed by copying the nodes from its root down to the place of the change; the new tree shares everything else
with the old one, which stays as it was.  The children of a node are allocated before it, so their indices are
smaller; this bounds the depth of every tree, and `treeAt` reads a tree back from the table.
-/
import GrammarInference.Tree.Basic

namespace GrammarInference

/-- The address of a node.  It is unbounded: an address of 32 bits agrees with it as long as there are at most `2 ^ 32`
nodes, and would begin anew behind them. -/
structure NodeId where
  /-- The index in the table. -/
  index : Nat
  deriving DecidableEq, Repr

/-- How an address is shown. -/
def NodeId.display (id : NodeId) : String := "@" ++ toString id.index

/-- A node of the table. -/
structure Node where
  /-- The symbol. -/
  symbol : Symbol
  /-- The addresses of the children, from left to right. -/
  children : List NodeId
  deriving DecidableEq, Repr

/-- A table of nodes. -/
structure Arena where
  /-- The nodes, oldest first. -/
  nodes : Array Node

namespace Arena

/-- The table without nodes. -/
def empty : Arena := ⟨#[]⟩

instance : EmptyCollection Arena := ⟨empty⟩
instance : Inhabited Arena := ⟨empty⟩

/-- The number of nodes. -/
def size (a : Arena) : Nat := a.nodes.size

/-- Are there no nodes? -/
def isEmpty (a : Arena) : Bool := a.nodes.isEmpty

/-- Adds a node. -/
def alloc (a : Arena) (symbol : Symbol) (children : List NodeId) : NodeId × Arena :=
  (⟨a.nodes.size⟩, ⟨a.nodes.push ⟨symbol, children⟩⟩)

/-- Adds a terminal without children. -/
def leaf (a : Arena) (text : String) : NodeId × Arena := a.alloc (.terminal text) []

/-- The node at an address. -/
def node? (a : Arena) (id : NodeId) : Option Node := a.nodes[id.index]?

/-- The symbol at an address. -/
def symbol (a : Arena) (id : NodeId) : Symbol := ((a.node? id).map Node.symbol).getD Symbol.epsilon

/-- The children of the node at an address. -/
def children (a : Arena) (id : NodeId) : List NodeId := ((a.node? id).map Node.children).getD []

/-- The rule that is applied at an address. -/
def ruleAt (a : Arena) (id : NodeId) : Rule := (a.children id).map a.symbol

/-- Are the children of every node older than the node? -/
def Ordered (a : Arena) : Prop :=
  ∀ (i : Nat) (n : Node), a.nodes[i]? = some n → ∀ c ∈ n.children, c.index < i

/-- The tree at an address, cut off below the given depth. -/
def treeWithin (a : Arena) : Nat → NodeId → Tree
  | 0, id => .node (a.symbol id) []
  | depth + 1, id => .node (a.symbol id) ((a.children id).map (a.treeWithin depth))

/-- The tree at an address. -/
def treeAt (a : Arena) (id : NodeId) : Tree := a.treeWithin id.index id

/-- The node that is reached from `root` by taking the children with the given numbers. -/
def nodeAt (a : Arena) (root : NodeId) : List Nat → Option NodeId
  | [] => some root
  | i :: path =>
    match (a.children root)[i]? with
    | none => none
    | some c => a.nodeAt c path

/-- A new root whose tree is the tree of `root` with `replacement` at `path`; none, and nothing is added, if the
path leaves the tree. -/
def splice (a : Arena) (root : NodeId) (path : List Nat) (replacement : NodeId) : Option NodeId × Arena :=
  match path with
  | [] => (some replacement, a)
  | i :: path =>
    let symbol := a.symbol root
    let children := a.children root
    match children[i]? with
    | none => (none, a)
    | some c =>
      match a.splice c path replacement with
      | (none, a) => (none, a)
      | (some child, a) =>
        let (id, a) := a.alloc symbol (children.set i child)
        (some id, a)

/-- The string that the tree at an address derives. -/
def yieldString (a : Arena) (id : NodeId) : String := (a.treeAt id).yieldString

@[simp] theorem size_alloc (a : Arena) (s : Symbol) (cs : List NodeId) :
    (a.alloc s cs).2.size = a.size + 1 := by
  simp [alloc, size]

@[simp] theorem node?_alloc_self (a : Arena) (s : Symbol) (cs : List NodeId) :
    (a.alloc s cs).2.node? (a.alloc s cs).1 = some ⟨s, cs⟩ := by
  simp [alloc, node?]

theorem node?_alloc_of_lt {a : Arena} {s : Symbol} {cs : List NodeId} {id : NodeId}
    (h : id.index < a.size) : (a.alloc s cs).2.node? id = a.node? id := by
  have hne : id.index ≠ a.nodes.size := Nat.ne_of_lt h
  simp [alloc, node?, Array.getElem?_push, hne]

theorem Ordered.alloc {a : Arena} {s : Symbol} {cs : List NodeId} (h : a.Ordered)
    (hcs : ∀ c ∈ cs, c.index < a.size) : (a.alloc s cs).2.Ordered := by
  intro i n hn c hc
  simp only [Arena.alloc, Array.getElem?_push] at hn
  split at hn
  · rename_i hi
    cases hn
    exact hi ▸ hcs c hc
  · exact h i n hn c hc

end Arena

end GrammarInference
