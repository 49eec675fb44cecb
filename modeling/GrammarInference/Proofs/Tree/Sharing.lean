/-
GrammarInference/Proofs/Tree/Sharing.lean

Splicing copies the path from the root and shares everything else.

Design.  A tree may use a node in several places, so a place is a path and not an address.  `Arena.nodeAt` follows a
path through addresses and `Tree.subtreeAt?` through the tree that is read off them; in an arena whose children are
older than their parents every address holds a finite tree, and the two agree (`Stores.nodeAt`).  What one splice does
is one structure, `Arena.Spliced`: one new node for each step of the path, which is the node that stood there with one
child exchanged, and at the end of the path the replacement itself.  On trees, the places left and right of a path
yield what they yielded before (`Tree.yield_replaceAt`), unless a terminal above hides the place.
-/
import GrammarInference.Proofs.Tree.Splice
import Mathlib.Data.List.TakeDrop

namespace GrammarInference

/-! ### What a tree yields around a place -/

namespace Tree

variable {t u d c : Tree} {path : List Nat} {i : Nat}

/-- What the subtrees left of a path yield. -/
def yieldBefore (t : Tree) : List Nat → List Char
  | [] => []
  | i :: path => yieldAll (t.children.take i) ++ (t.children[i]?.elim [] fun c => c.yieldBefore path)

/-- What the subtrees right of a path yield. -/
def yieldAfter (t : Tree) : List Nat → List Char
  | [] => []
  | i :: path => (t.children[i]?.elim [] fun c => c.yieldAfter path) ++ yieldAll (t.children.drop (i + 1))

/-- Does every node above the place yield what its children yield?  A terminal yields its own text. -/
def Shows (t : Tree) : List Nat → Prop
  | [] => True
  | i :: path => (∃ n, t.symbol = .nonterminal n) ∧ ∀ c, t.children[i]? = some c → c.Shows path

theorem yieldAll_append (ts ts' : List Tree) : yieldAll (ts ++ ts') = yieldAll ts ++ yieldAll ts' := by
  induction ts with
  | nil => rfl
  | cons t ts ih => rw [List.cons_append, yieldAll, yieldAll, ih, List.append_assoc]

theorem yield_of_nonterminal {n : String} (h : t.symbol = .nonterminal n) : t.yield = yieldAll t.children := by
  cases t with
  | node s ts =>
    obtain rfl : s = .nonterminal n := h
    rw [yield]
    rfl

/-- Below a terminal nothing counts. -/
theorem yield_of_terminal {text : String} (h : t.symbol = .terminal text) : t.yield = text.toList := by
  cases t with
  | node s ts =>
    obtain rfl : s = .terminal text := h
    rw [yield]

/-- The children, with one of them exchanged, yield from left to right. -/
theorem yieldAll_set {ts : List Tree} (hi : ts[i]? = some c) (d : Tree) :
    yieldAll (ts.set i d) = yieldAll (ts.take i) ++ (d.yield ++ yieldAll (ts.drop (i + 1))) := by
  obtain ⟨hlt, -⟩ := List.getElem?_eq_some_iff.mp hi
  rw [List.set_eq_take_append_cons_drop, if_pos hlt, yieldAll_append, yieldAll]

/-- What is put at a place stands between what is left and what is right of the path. -/
theorem yield_replaceAt (hu : t.subtreeAt? path = some u) (h : t.Shows path) (d : Tree) :
    (t.replaceAt path d).yield = t.yieldBefore path ++ d.yield ++ t.yieldAfter path := by
  induction path generalizing t with
  | nil => simp [replaceAt, yieldBefore, yieldAfter]
  | cons i path ih =>
    rw [subtreeAt?_cons, Option.bind_eq_some_iff] at hu
    obtain ⟨c, hc, hu⟩ := hu
    obtain ⟨⟨n, hn⟩, hbelow⟩ := h
    have hc' := ih hu (hbelow c hc)
    rw [replaceAt_cons hc, hn, yield, yieldAll_set hc, hc']
    simp [yieldBefore, yieldAfter, hc]

/-- Below a terminal a replacement is not seen. -/
theorem yield_replaceAt_of_not_shows (hu : t.subtreeAt? path = some u) (h : ¬ t.Shows path) (d : Tree) :
    (t.replaceAt path d).yield = t.yield := by
  induction path generalizing t with
  | nil => exact absurd trivial h
  | cons i path ih =>
    rw [subtreeAt?_cons, Option.bind_eq_some_iff] at hu
    obtain ⟨c, hc, hu⟩ := hu
    rw [replaceAt_cons hc]
    rcases hs : t.symbol with text | n
    · rw [yield, yield_of_terminal hs]
    · -- the terminal is further down
      have hbelow : ¬ c.Shows path := fun hc' => h ⟨⟨n, hs⟩, fun c' h' => by
        obtain rfl : c = c' := Option.some.inj (hc.symm.trans h')
        exact hc'⟩
      obtain ⟨hlt, hget⟩ := List.getElem?_eq_some_iff.mp hc
      have hsame : t.children.set i c = t.children := by
        rw [← hget]
        exact List.set_getElem_self hlt
      rw [yield, yieldAll_set hc, ih hu hbelow, ← yieldAll_set hc c, hsame, yield_of_nonterminal hs]

/-- A subtree put where it stands changes nothing. -/
theorem replaceAt_self (hu : t.subtreeAt? path = some u) : t.replaceAt path u = t := by
  induction path generalizing t with
  | nil => exact (Option.some.inj hu).symm
  | cons i path ih =>
    rw [subtreeAt?_cons, Option.bind_eq_some_iff] at hu
    obtain ⟨c, hc, hu⟩ := hu
    obtain ⟨hlt, hget⟩ := List.getElem?_eq_some_iff.mp hc
    rw [replaceAt_cons hc, ih hu, ← hget, List.set_getElem_self hlt]
    cases t with
    | node s ts => rfl

/-- A tree yields its parts left of a path, at its end and right of it. -/
theorem yield_eq_around (hu : t.subtreeAt? path = some u) (h : t.Shows path) :
    t.yield = t.yieldBefore path ++ u.yield ++ t.yieldAfter path := by
  rw [← yield_replaceAt hu h u, replaceAt_self hu]

end Tree

/-! ### Addresses and places -/

namespace Arena

variable {a a' : Arena} {root id below c replacement : NodeId} {path : List Nat} {i : Nat}

theorem children_eq {n : Node} (h : a.node? id = some n) : a.children id = n.children := by
  rw [children, h]
  rfl

theorem symbol_eq {n : Node} (h : a.node? id = some n) : a.symbol id = n.symbol := by
  rw [symbol, h]
  rfl

/-- An address that has children is the address of a node. -/
theorem exists_node?_of_children (h : (a.children root)[i]? = some c) :
    ∃ n, a.node? root = some n ∧ n.children[i]? = some c := by
  rcases hn : a.node? root with - | n
  · simp [children, hn] at h
  · rw [children_eq hn] at h
    exact ⟨n, rfl, h⟩

theorem nodeAt_cons_iff :
    a.nodeAt root (i :: path) = some below ↔ ∃ c, (a.children root)[i]? = some c ∧ a.nodeAt c path = some below := by
  rw [nodeAt]
  cases (a.children root)[i]? with
  | none => simp
  | some c => simp

theorem exists_node?_of_lt (h : id.index < a.size) : ∃ n, a.node? id = some n :=
  ⟨a.nodes[id.index], Array.getElem?_eq_getElem h⟩

/-- Nodes that are kept keep their children's places. -/
theorem Extends.nodeAt (h : a.Extends a') (hpath : a.nodeAt root path = some below) :
    a'.nodeAt root path = some below := by
  induction path generalizing root with
  | nil => exact hpath
  | cons i path ih =>
    obtain ⟨c, hc, hbelow⟩ := nodeAt_cons_iff.mp hpath
    obtain ⟨n, hn, hi⟩ := exists_node?_of_children hc
    refine nodeAt_cons_iff.mpr ⟨c, ?_, ih hbelow⟩
    rw [children_eq (h root n hn)]
    exact hi

namespace Ordered

theorem children_lt (h : a.Ordered) (hc : c ∈ a.children id) : c.index < id.index := by
  rcases hn : a.node? id with - | n
  · simp [children, hn] at hc
  · rw [children_eq hn] at hc
    exact h id.index n hn c hc

/-- The way down leads to older and older nodes: no node stands below itself, and no way is longer than the address
of its start. -/
theorem index_nodeAt_le (h : a.Ordered) (hpath : a.nodeAt root path = some below) :
    below.index + path.length ≤ root.index := by
  induction path generalizing root with
  | nil =>
    obtain rfl : root = below := Option.some.inj hpath
    exact Nat.le_refl _
  | cons i path ih =>
    obtain ⟨c, hc, hbelow⟩ := nodeAt_cons_iff.mp hpath
    have hlt := h.children_lt (List.mem_of_getElem? hc)
    have hle := ih hbelow
    rw [List.length_cons]
    omega

theorem storesAll_map {f : NodeId → Tree} {cs : List NodeId} (h : ∀ c ∈ cs, a.Stores (f c) c) :
    a.StoresAll (cs.map f) cs := by
  induction cs with
  | nil => rfl
  | cons c cs ih =>
    obtain ⟨hc, hcs⟩ := List.forall_mem_cons.mp h
    exact ⟨c, cs, rfl, hc, ih hcs⟩

/-- Reading as deep as the address is large reads the whole tree. -/
theorem stores_treeWithin (h : a.Ordered) {depth : Nat} (hd : id.index ≤ depth) (hid : id.index < a.size) :
    a.Stores (a.treeWithin depth id) id := by
  induction depth generalizing id with
  | zero =>
    obtain ⟨n, hn⟩ := exists_node?_of_lt hid
    have hnone : n.children = [] := List.eq_nil_iff_forall_not_mem.mpr fun c hc => by
      have hlt := h id.index n hn c hc
      omega
    refine ⟨[], ?_, fun c hc => absurd hc List.not_mem_nil, rfl⟩
    rw [hn, symbol_eq hn, ← hnone]
  | succ depth ih =>
    obtain ⟨n, hn⟩ := exists_node?_of_lt hid
    have hlt : ∀ c ∈ a.children id, c.index < id.index := fun c hc => h.children_lt hc
    refine ⟨a.children id, ?_, hlt, storesAll_map fun c hc => ?_⟩
    · rw [hn, symbol_eq hn, children_eq hn]
    · have hc' := hlt c hc
      exact ih (by omega) (by omega)

/-- In an arena whose children are older than their parents, every address holds a finite tree. -/
theorem stores (h : a.Ordered) (hid : id.index < a.size) : a.Stores (a.treeAt id) id :=
  h.stores_treeWithin (Nat.le_refl _) hid

end Ordered

theorem StoresAll.exists_tree {ts : List Tree} {cs : List NodeId} (h : a.StoresAll ts cs) (hc : cs[i]? = some c) :
    ∃ t, ts[i]? = some t ∧ a.Stores t c := by
  induction ts generalizing cs i with
  | nil =>
    obtain rfl : cs = [] := h
    cases hc
  | cons t ts ih =>
    obtain ⟨c', rest, rfl, hstore, hrest⟩ := h
    cases i with
    | zero =>
      obtain rfl : c' = c := Option.some.inj hc
      exact ⟨t, rfl, hstore⟩
    | succ i => exact ih hrest (i := i) hc

/-- The tree at the end of a path is the subtree at that path. -/
theorem Stores.nodeAt {t : Tree} (ht : a.Stores t root) (hpath : a.nodeAt root path = some below) :
    ∃ u, t.subtreeAt? path = some u ∧ a.Stores u below := by
  induction path generalizing t root with
  | nil =>
    obtain rfl : root = below := Option.some.inj hpath
    exact ⟨t, rfl, ht⟩
  | cons i path ih =>
    obtain ⟨c, hc, hbelow⟩ := nodeAt_cons_iff.mp hpath
    cases t with
    | node s ts =>
      obtain ⟨cs, hnode, -, hcs⟩ := ht
      rw [children_eq hnode] at hc
      obtain ⟨t, ht, hstore⟩ := hcs.exists_tree hc
      obtain ⟨u, hu, hu'⟩ := ih hstore hbelow
      refine ⟨u, ?_, hu'⟩
      rw [Tree.subtreeAt?_cons]
      show ts[i]?.bind _ = some u
      rw [ht]
      exact hu

/-! ### One splice -/

/-- The arena `a'` holds, at `new`, a copy of the nodes of `a` from `root` along `path`, and shares the rest with
`a`. -/
structure Spliced (a a' : Arena) (root : NodeId) (path : List Nat) (replacement new : NodeId) : Prop where
  /-- There is one new node for each step of the path. -/
  size_eq : a'.size = a.size + path.length
  /-- The nodes that were there are there. -/
  kept : a.Extends a'
  /-- The path leads to the replacement. -/
  reaches : a'.nodeAt new path = some replacement
  /-- On the way each node is new, and is the node that stood there with the next one as its child. -/
  copied : ∀ above i beneath, path = above ++ i :: beneath → ∃ old copy child,
    a.nodeAt root above = some old ∧ a'.nodeAt new above = some copy ∧
    a'.nodeAt new (above ++ [i]) = some child ∧ a.size ≤ copy.index ∧
    a'.node? copy = some ⟨a.symbol old, (a.children old).set i child⟩

theorem Spliced.nil (a : Arena) (root replacement : NodeId) : a.Spliced a root [] replacement replacement where
  size_eq := rfl
  kept := .refl a
  reaches := rfl
  copied := fun above i beneath h => by simp at h

/-- One step above a splice, the node there is copied with its child exchanged. -/
theorem Spliced.cons {child : NodeId} (h : a.Spliced a' c path replacement child)
    (hc : (a.children root)[i]? = some c) :
    a.Spliced (a'.alloc (a.symbol root) ((a.children root).set i child)).2 root (i :: path) replacement
      (a'.alloc (a.symbol root) ((a.children root).set i child)).1 := by
  have hnode := node?_alloc_self a' (a.symbol root) ((a.children root).set i child)
  have hkept := extends_alloc a' (a.symbol root) ((a.children root).set i child)
  generalize hnew : (a'.alloc (a.symbol root) ((a.children root).set i child)).1 = new at hnode
  generalize ha'' : (a'.alloc (a.symbol root) ((a.children root).set i child)).2 = a'' at hnode hkept
  have hfirst : (a''.children new)[i]? = some child := by
    rw [children_eq hnode]
    exact List.getElem?_set_self (List.getElem?_eq_some_iff.mp hc).1
  have hdown : ∀ {p : List Nat} {x : NodeId}, a'.nodeAt child p = some x → a''.nodeAt new (i :: p) = some x :=
    fun hx => nodeAt_cons_iff.mpr ⟨child, hfirst, hkept.nodeAt hx⟩
  constructor
  · rw [← ha'', size_alloc, h.size_eq, List.length_cons]
    omega
  · exact h.kept.trans hkept
  · exact hdown h.reaches
  · intro above j beneath hsplit
    cases above with
    | nil =>
      obtain ⟨rfl, rfl⟩ : i = j ∧ path = beneath := by simpa using hsplit
      refine ⟨root, new, child, rfl, rfl, hdown rfl, ?_, hnode⟩
      have hsize : new.index = a'.size := by rw [← hnew]; rfl
      rw [hsize, h.size_eq]
      omega
    | cons k above =>
      obtain ⟨rfl, hbelow⟩ : i = k ∧ path = above ++ j :: beneath := by simpa using hsplit
      obtain ⟨old, copy, next, hold, hcopy, hnext, hfresh, hcopied⟩ := h.copied above j beneath hbelow
      exact ⟨old, copy, next, nodeAt_cons_iff.mpr ⟨c, hc, hold⟩, hdown hcopy, hdown hnext, hfresh,
        hkept copy _ hcopied⟩

/-- Splicing at a path to a node copies the nodes on the path. -/
theorem exists_spliced (hpath : a.nodeAt root path = some below) (replacement : NodeId) :
    ∃ new a', a.splice root path replacement = (some new, a') ∧ a.Spliced a' root path replacement new := by
  induction path generalizing root with
  | nil => exact ⟨replacement, a, rfl, .nil a root replacement⟩
  | cons i path ih =>
    obtain ⟨c, hc, hbelow⟩ := nodeAt_cons_iff.mp hpath
    obtain ⟨child, a', hsplice, hspliced⟩ := ih hbelow
    refine ⟨_, _, ?_, hspliced.cons hc⟩
    simp only [splice, hc, hsplice]

/-- What was stored before a splice is read off as it was. -/
theorem Spliced.treeAt_eq {new : NodeId} (h : a.Spliced a' root path replacement new) (hordered : a.Ordered)
    (hid : id.index < a.size) : a'.treeAt id = a.treeAt id :=
  ((hordered.stores hid).mono h.kept).treeAt_eq

end Arena

end GrammarInference
