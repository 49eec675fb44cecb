/-
GrammarInference/Proofs/Tree/Stored.lean

Trees that stand in an arena, and the derivations they are.

Design.  `Arena.Stores a t id` says that the tree `t` can be read off the arena from the address `id`, with
every child older than its parent.  It is about the nodes of this one tree, so it holds of new trees in an arena
whose older nodes are arbitrary, and it survives any growth of the arena (`Stores.mono`).  The tree that is read
back at the address is then `t` (`Stores.treeAt_eq`).  A tree whose nodes apply alternatives of a grammar is a
derivation of its yield (`Tree.derives_yield`).
-/
import GrammarInference.Grammar.Language
import GrammarInference.Tree.Arena

namespace GrammarInference

namespace Arena

/-! ### Growth -/

/-- The arena `a'` keeps all nodes of `a`. -/
def Extends (a a' : Arena) : Prop := ∀ (id : NodeId) (n : Node), a.node? id = some n → a'.node? id = some n

theorem Extends.refl (a : Arena) : Extends a a := fun _ _ h => h

theorem Extends.trans {a a' a'' : Arena} (h : Extends a a') (h' : Extends a' a'') : Extends a a'' :=
  fun id n hn => h' id n (h id n hn)

theorem lt_size_of_node? {a : Arena} {id : NodeId} {n : Node} (h : a.node? id = some n) : id.index < a.size :=
  (Array.getElem?_eq_some_iff.mp h).1

theorem extends_alloc (a : Arena) (s : Symbol) (cs : List NodeId) : Extends a (a.alloc s cs).2 := by
  intro id n h
  rw [node?_alloc_of_lt (lt_size_of_node? h)]
  exact h

/-! ### Stored trees -/

mutual

/-- The arena holds the tree at the address, each child older than its parent. -/
def Stores (a : Arena) : Tree → NodeId → Prop
  | .node s ts, id => ∃ cs, a.node? id = some ⟨s, cs⟩ ∧ (∀ c ∈ cs, c.index < id.index) ∧ StoresAll a ts cs

/-- The arena holds the trees at the addresses, one by one. -/
def StoresAll (a : Arena) : List Tree → List NodeId → Prop
  | [], cs => cs = []
  | t :: ts, cs => ∃ c rest, cs = c :: rest ∧ Stores a t c ∧ StoresAll a ts rest

end

variable {a a' : Arena}

theorem Stores.symbol_eq {t : Tree} {id : NodeId} (h : Stores a t id) : a.symbol id = t.symbol := by
  cases t with
  | node s ts =>
    obtain ⟨cs, hn, -, -⟩ := h
    rw [symbol, hn]
    rfl

theorem Stores.lt_size {t : Tree} {id : NodeId} (h : Stores a t id) : id.index < a.size := by
  cases t with
  | node s ts =>
    obtain ⟨cs, hn, -, -⟩ := h
    exact lt_size_of_node? hn

theorem StoresAll.lt_size {ts : List Tree} {cs : List NodeId} (h : StoresAll a ts cs) :
    ∀ c ∈ cs, c.index < a.size := by
  induction ts generalizing cs with
  | nil =>
    obtain rfl : cs = [] := h
    exact fun c hc => absurd hc List.not_mem_nil
  | cons t ts ih =>
    obtain ⟨c, rest, rfl, hc, hrest⟩ := h
    exact List.forall_mem_cons.mpr ⟨hc.lt_size, ih hrest⟩

mutual

theorem Stores.mono (h : Extends a a') {t : Tree} {id : NodeId} (hs : Stores a t id) : Stores a' t id := by
  match t with
  | .node s ts =>
    obtain ⟨cs, hn, hlt, hcs⟩ := hs
    exact ⟨cs, h id _ hn, hlt, StoresAll.mono h hcs⟩

theorem StoresAll.mono (h : Extends a a') {ts : List Tree} {cs : List NodeId} (hs : StoresAll a ts cs) :
    StoresAll a' ts cs := by
  match ts with
  | [] => exact hs
  | t :: ts =>
    obtain ⟨c, rest, hcons, hc, hrest⟩ := hs
    exact ⟨c, rest, hcons, hc.mono h, StoresAll.mono h hrest⟩

end

/-- A new node holds the tree of its children. -/
theorem StoresAll.alloc {ts : List Tree} {cs : List NodeId} (h : StoresAll a ts cs) (s : Symbol) :
    Stores (a.alloc s cs).2 (.node s ts) (a.alloc s cs).1 :=
  ⟨cs, node?_alloc_self a s cs, h.lt_size, h.mono (extends_alloc a s cs)⟩

/-- A new leaf holds its own tree. -/
theorem stores_leaf (a : Arena) (s : Symbol) : Stores (a.alloc s []).2 (.node s []) (a.alloc s []).1 := by
  have hnil : StoresAll a [] [] := rfl
  exact hnil.alloc s

mutual

/-- A stored tree is read back from its address, if the depth of reading is large enough. -/
theorem Stores.treeWithin_eq {t : Tree} {id : NodeId} (h : Stores a t id) {d : Nat} (hd : id.index ≤ d) :
    a.treeWithin d id = t := by
  match t, d with
  | .node s ts, 0 =>
    obtain ⟨cs, hn, hlt, hcs⟩ := h
    -- the oldest node has no children
    have hcs₀ : cs = [] := List.eq_nil_iff_forall_not_mem.mpr fun c hc => by
      have hc' := hlt c hc
      omega
    subst hcs₀
    have hts : ts = [] := by
      cases ts with
      | nil => rfl
      | cons t ts =>
        obtain ⟨c, rest, hcons, -⟩ := hcs
        cases hcons
    rw [treeWithin, symbol, hn, hts]
    rfl
  | .node s ts, d + 1 =>
    obtain ⟨cs, hn, hlt, hcs⟩ := h
    have hmap : cs.map (a.treeWithin d) = ts := StoresAll.map_treeWithin_eq hcs fun c hc => by
      have hc' := hlt c hc
      omega
    rw [treeWithin, symbol, children, hn]
    exact congrArg (Tree.node s) hmap

theorem StoresAll.map_treeWithin_eq {ts : List Tree} {cs : List NodeId} (h : StoresAll a ts cs) {d : Nat}
    (hd : ∀ c ∈ cs, c.index ≤ d) : cs.map (a.treeWithin d) = ts := by
  match ts with
  | [] =>
    obtain rfl : cs = [] := h
    rfl
  | t :: ts =>
    obtain ⟨c, rest, rfl, hc, hrest⟩ := h
    obtain ⟨hdc, hdrest⟩ := List.forall_mem_cons.mp hd
    rw [List.map_cons, hc.treeWithin_eq hdc, StoresAll.map_treeWithin_eq hrest hdrest]

end

theorem Stores.treeAt_eq {t : Tree} {id : NodeId} (h : Stores a t id) : a.treeAt id = t :=
  h.treeWithin_eq (Nat.le_refl _)

theorem Stores.toList_yieldString {t : Tree} {id : NodeId} (h : Stores a t id) :
    (a.yieldString id).toList = t.yield := by
  rw [yieldString, h.treeAt_eq, Tree.toList_yieldString]

theorem StoresAll.map_symbol_eq {ts : List Tree} {cs : List NodeId} (h : StoresAll a ts cs) :
    cs.map a.symbol = ts.map Tree.symbol := by
  induction ts generalizing cs with
  | nil =>
    obtain rfl : cs = [] := h
    rfl
  | cons t ts ih =>
    obtain ⟨c, rest, rfl, hc, hrest⟩ := h
    rw [List.map_cons, List.map_cons, hc.symbol_eq, ih hrest]

theorem StoresAll.getElem? {ts : List Tree} {cs : List NodeId} (h : StoresAll a ts cs) {i : Nat} {c : NodeId}
    (hc : cs[i]? = some c) : ∃ t ∈ ts, Stores a t c := by
  induction ts generalizing cs i with
  | nil =>
    obtain rfl : cs = [] := h
    simp at hc
  | cons t ts ih =>
    obtain ⟨c', rest, rfl, hstore, hrest⟩ := h
    cases i with
    | zero =>
      obtain rfl : c' = c := Option.some.inj hc
      exact ⟨t, List.mem_cons_self, hstore⟩
    | succ i =>
      obtain ⟨t', ht', hstore'⟩ := ih hrest hc
      exact ⟨t', List.mem_cons_of_mem t ht', hstore'⟩

end Arena

namespace Tree

variable {g : Grammar}

theorem isDerivation_terminal_iff {text : String} {ts : List Tree} :
    (node (.terminal text) ts).isDerivation g = true ↔ ts = [] :=
  List.isEmpty_iff

theorem isDerivation_nonterminal_iff {n : String} {ts : List Tree} :
    (node (.nonterminal n) ts).isDerivation g = true ↔
      ts.map symbol ∈ g.alternatives n ∧ areDerivations g ts = true := by
  show (decide (ts.map symbol ∈ g.alternatives n) && areDerivations g ts) = true ↔ _
  rw [Bool.and_eq_true, decide_eq_true_eq]

theorem areDerivations_cons_iff {t : Tree} {ts : List Tree} :
    areDerivations g (t :: ts) = true ↔ t.isDerivation g = true ∧ areDerivations g ts = true := by
  rw [areDerivations, Bool.and_eq_true]

theorem areDerivations_iff {ts : List Tree} :
    areDerivations g ts = true ↔ ∀ t ∈ ts, t.isDerivation g = true := by
  induction ts with
  | nil => simp [areDerivations]
  | cons t ts ih => rw [areDerivations_cons_iff, ih, List.forall_mem_cons]

mutual

/-- A derivation tree derives its yield from the symbol at its root. -/
theorem derives_yield {t : Tree} (h : t.isDerivation g = true) : Grammar.Derives g [t.symbol] t.yield := by
  match t with
  | .node (.terminal text) ts =>
    rw [yield]
    have hnil := Grammar.Derives.terminal (t := text) (g := g) .nil
    rwa [List.append_nil] at hnil
  | .node (.nonterminal n) ts =>
    obtain ⟨hrule, hts⟩ := isDerivation_nonterminal_iff.mp h
    rw [yield]
    exact Grammar.derives_singleton_iff.mpr ⟨_, hrule, derives_yieldAll hts⟩

theorem derives_yieldAll {ts : List Tree} (h : areDerivations g ts = true) :
    Grammar.Derives g (ts.map symbol) (yieldAll ts) := by
  match ts with
  | [] => exact .nil
  | t :: ts =>
    obtain ⟨ht, hts⟩ := areDerivations_cons_iff.mp h
    rw [yieldAll, List.map_cons]
    exact (derives_yield ht).append (derives_yieldAll hts)

end

/-- The yield of a derivation tree with a nonterminal at its root is in the language of that nonterminal. -/
theorem inLanguage_yield {t : Tree} (h : t.isDerivation g = true) {n : String} (hn : t.symbol = .nonterminal n) :
    Grammar.InLanguage g n t.yield := by
  have hd := derives_yield h
  rw [hn] at hd
  exact Grammar.derives_singleton_iff.mp hd

end Tree

namespace Arena

variable {a : Arena} {g : Grammar}

/-- At every nonterminal of a stored derivation tree, the symbols of the children are one of its alternatives. -/
theorem Stores.ruleAt_mem {t : Tree} {root : NodeId} (h : Stores a t root) (hder : t.isDerivation g = true)
    {path : List Nat} {id : NodeId} (hid : a.nodeAt root path = some id) {n : String}
    (hn : a.symbol id = .nonterminal n) : a.ruleAt id ∈ g.alternatives n := by
  induction path generalizing t root with
  | nil =>
    obtain rfl : root = id := Option.some.inj hid
    rw [h.symbol_eq] at hn
    cases t with
    | node s ts =>
      obtain rfl : s = .nonterminal n := hn
      obtain ⟨cs, hnode, -, hcs⟩ := h
      have hrule : a.ruleAt root = ts.map Tree.symbol := by
        rw [ruleAt, children, hnode]
        exact hcs.map_symbol_eq
      rw [hrule]
      exact (Tree.isDerivation_nonterminal_iff.mp hder).1
  | cons i path ih =>
    rw [nodeAt] at hid
    cases t with
    | node s ts =>
      obtain ⟨cs, hnode, -, hcs⟩ := h
      rw [children, hnode] at hid
      rcases hc : cs[i]? with - | c
      · simp [hc] at hid
      · simp only [Option.map_some, Option.getD_some, hc] at hid
        obtain ⟨t, ht, hstore⟩ := hcs.getElem? hc
        cases s with
        | terminal text =>
          -- a terminal has no children
          rw [Tree.isDerivation_terminal_iff.mp hder] at ht
          exact absurd ht List.not_mem_nil
        | nonterminal m =>
          have hts := (Tree.isDerivation_nonterminal_iff.mp hder).2
          exact ih hstore (Tree.areDerivations_iff.mp hts t ht) hid

end Arena

end GrammarInference
