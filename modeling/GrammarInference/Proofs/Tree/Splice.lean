/-
GrammarInference/Proofs/Tree/Splice.lean

Splicing puts one tree in the place of another.

Design.  A path names a place in a tree by the numbers of the children on the way down.  What stands there is read
by `Tree.subtreeAt?` and exchanged by `Tree.replaceAt`, both on trees alone, so nothing here speaks of addresses.
An arena that holds a tree and a replacement holds the exchanged tree at the root that `splice` gives
(`Stores.splice`): the nodes on the path are new, all others are shared, and the arena keeps every node it had, so
the tree that was changed still stands where it stood.

    a.splice root path id = (some new, a')      where  a holds  t at root  and  d at id
    a' holds  t.replaceAt path d  at new, and  t  at root
-/
import GrammarInference.Proofs.Tree.Stored
import Mathlib.Data.List.Basic

namespace GrammarInference

/-! ### Places in a tree -/

namespace Tree

/-- The subtree at a path; none if the path leaves the tree. -/
def subtreeAt? (t : Tree) : List Nat → Option Tree
  | [] => some t
  | i :: path => t.children[i]?.bind fun c => c.subtreeAt? path

/-- The tree with the subtree at a path replaced; unchanged if the path leaves the tree. -/
def replaceAt (t : Tree) (path : List Nat) (d : Tree) : Tree :=
  match path with
  | [] => d
  | i :: path => .node t.symbol (t.children.modify i fun c => c.replaceAt path d)

variable {g : Grammar} {t u c d : Tree} {path : List Nat} {i : Nat}

@[simp] theorem subtreeAt?_nil (t : Tree) : t.subtreeAt? [] = some t := rfl

theorem subtreeAt?_cons (t : Tree) (i : Nat) (path : List Nat) :
    t.subtreeAt? (i :: path) = t.children[i]?.bind fun c => c.subtreeAt? path := rfl

/-- One path behind another is taken from the subtree there. -/
theorem subtreeAt?_append (t : Tree) (path path' : List Nat) :
    t.subtreeAt? (path ++ path') = (t.subtreeAt? path).bind fun u => u.subtreeAt? path' := by
  induction path generalizing t with
  | nil => rfl
  | cons i path ih =>
    rw [List.cons_append, subtreeAt?_cons, subtreeAt?_cons]
    cases t.children[i]? with
    | none => rfl
    | some c => exact ih c

/-- The children of a subtree stand one step further down. -/
theorem subtreeAt?_child (hu : t.subtreeAt? path = some u) (hc : u.children[i]? = some c) :
    t.subtreeAt? (path ++ [i]) = some c := by
  rw [subtreeAt?_append, hu]
  show u.subtreeAt? [i] = some c
  rw [subtreeAt?_cons, hc]
  rfl

theorem replaceAt_cons (hc : t.children[i]? = some c) (path : List Nat) (d : Tree) :
    t.replaceAt (i :: path) d = .node t.symbol (t.children.set i (c.replaceAt path d)) := by
  show node _ (t.children.modify i fun c => c.replaceAt path d) = _
  rw [List.modify_eq_set_getElem?, hc]
  rfl

/-- What stands at the root is kept when a subtree is replaced by one with the same symbol. -/
theorem symbol_replaceAt (hu : t.subtreeAt? path = some u) (hd : d.symbol = u.symbol) :
    (t.replaceAt path d).symbol = t.symbol := by
  cases path with
  | nil =>
    obtain rfl : t = u := Option.some.inj hu
    exact hd
  | cons i path => rfl

theorem isDerivation_children (h : t.isDerivation g = true) : areDerivations g t.children = true := by
  cases t with
  | node s ts =>
    cases s with
    | terminal text =>
      rw [isDerivation_terminal_iff.mp h]
      rfl
    | nonterminal n => exact (isDerivation_nonterminal_iff.mp h).2

/-- The subtrees of a derivation are derivations. -/
theorem isDerivation_subtreeAt? (ht : t.isDerivation g = true) (hu : t.subtreeAt? path = some u) :
    u.isDerivation g = true := by
  induction path generalizing t with
  | nil =>
    obtain rfl : t = u := Option.some.inj hu
    exact ht
  | cons i path ih =>
    rw [subtreeAt?_cons, Option.bind_eq_some_iff] at hu
    obtain ⟨c, hc, hu⟩ := hu
    exact ih (areDerivations_iff.mp (isDerivation_children ht) c (List.mem_of_getElem? hc)) hu

/-- Only the children's symbols and their own rules count for a derivation. -/
theorem isDerivation_node_congr {s : Symbol} {ts ts' : List Tree} (h : (node s ts).isDerivation g = true)
    (hsymbols : ts'.map symbol = ts.map symbol) (hts' : areDerivations g ts' = true) :
    (node s ts').isDerivation g = true := by
  cases s with
  | terminal text =>
    rw [isDerivation_terminal_iff.mp h, List.map_nil, List.map_eq_nil_iff] at hsymbols
    exact isDerivation_terminal_iff.mpr hsymbols
  | nonterminal n =>
    refine isDerivation_nonterminal_iff.mpr ⟨?_, hts'⟩
    rw [hsymbols]
    exact (isDerivation_nonterminal_iff.mp h).1

/-- A derivation in which a subtree is exchanged for another derivation of its symbol is a derivation. -/
theorem isDerivation_replaceAt (ht : t.isDerivation g = true) (hu : t.subtreeAt? path = some u)
    (hd : d.isDerivation g = true) (hsymbol : d.symbol = u.symbol) : (t.replaceAt path d).isDerivation g = true := by
  induction path generalizing t with
  | nil => exact hd
  | cons i path ih =>
    rw [subtreeAt?_cons, Option.bind_eq_some_iff] at hu
    obtain ⟨c, hc, hu⟩ := hu
    have hchildren := isDerivation_children ht
    have hder : (c.replaceAt path d).isDerivation g = true :=
      ih (areDerivations_iff.mp hchildren c (List.mem_of_getElem? hc)) hu
    rw [replaceAt_cons hc]
    cases t with
    | node s ts =>
      refine isDerivation_node_congr ht ?_ (areDerivations_iff.mpr fun t ht => ?_)
      · -- the symbol of the child that changed is the one it had
        have hsame : (ts.map symbol)[i]? = some c.symbol := by
          rw [List.getElem?_map]
          exact congrArg (Option.map symbol) hc
        obtain ⟨hi, hget⟩ := List.getElem?_eq_some_iff.mp hsame
        show (ts.set i _).map symbol = ts.map symbol
        rw [List.map_set, symbol_replaceAt hu hsymbol, ← hget]
        exact List.set_getElem_self hi
      · rcases List.mem_or_eq_of_mem_set ht with ht | rfl
        · exact areDerivations_iff.mp hchildren t ht
        · exact hder

end Tree

/-! ### Splicing -/

namespace Arena

variable {a a' : Arena} {t d u : Tree} {root id : NodeId} {path : List Nat} {i : Nat}

/-- The child with a number is stored at the address with that number. -/
theorem StoresAll.exists_getElem? {ts : List Tree} {cs : List NodeId} (h : StoresAll a ts cs)
    (ht : ts[i]? = some t) : ∃ c, cs[i]? = some c ∧ Stores a t c := by
  induction ts generalizing cs i with
  | nil => cases ht
  | cons t' ts ih =>
    obtain ⟨c, rest, rfl, hc, hrest⟩ := h
    cases i with
    | zero =>
      obtain rfl : t' = t := Option.some.inj ht
      exact ⟨c, rfl, hc⟩
    | succ i => exact ih hrest (i := i) ht

theorem StoresAll.set {ts : List Tree} {cs : List NodeId} {c : NodeId} (h : StoresAll a ts cs) (ht : Stores a t c)
    (i : Nat) : StoresAll a (ts.set i t) (cs.set i c) := by
  induction ts generalizing cs i with
  | nil =>
    obtain rfl : cs = [] := h
    rfl
  | cons t' ts ih =>
    obtain ⟨c', rest, rfl, hc', hrest⟩ := h
    cases i with
    | zero => exact ⟨c, rest, rfl, ht, hrest⟩
    | succ i => exact ⟨c', rest.set i c, rfl, hc', ih hrest i⟩

/-- Splicing at a path inside the tree keeps all nodes and gives the tree with the subtree there replaced. -/
theorem Stores.splice (ht : Stores a t root) (hu : t.subtreeAt? path = some u) (hd : Stores a d id) :
    ∃ new a', a.splice root path id = (some new, a') ∧ a.Extends a' ∧ Stores a' (t.replaceAt path d) new := by
  induction path generalizing t root with
  | nil => exact ⟨id, a, rfl, .refl a, hd⟩
  | cons i path ih =>
    rw [Tree.subtreeAt?_cons, Option.bind_eq_some_iff] at hu
    obtain ⟨t', hi, hu⟩ := hu
    cases t with
    | node s ts =>
      obtain ⟨cs, hnode, -, hcs⟩ := ht
      obtain ⟨c, hc, ht'⟩ := hcs.exists_getElem? hi
      obtain ⟨child, a', hsplice, hext, hchild⟩ := ih ht' hu
      -- the children are those from before, but for the one that was spliced
      have hcs' : StoresAll a' (ts.set i (t'.replaceAt path d)) (cs.set i child) := (hcs.mono hext).set hchild i
      refine ⟨(a'.alloc s (cs.set i child)).1, (a'.alloc s (cs.set i child)).2, ?_, ?_, ?_⟩
      · simp only [Arena.splice, children, symbol, hnode, Option.map_some, Option.getD_some, hc, hsplice]
      · exact hext.trans (extends_alloc a' s _)
      · rw [Tree.replaceAt_cons hi]
        exact hcs'.alloc s

end Arena

end GrammarInference
