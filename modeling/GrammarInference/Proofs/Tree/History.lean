/-
GrammarInference/Proofs/Tree/History.lean

Whatever made an arena, its trees are finite, and splicing one copies a path and shares the rest.

Design.  Every operation on an arena is a run of allocations above nodes that are there (`Arena.Allocates`), also a
parse or a derivation that is broken off by its deadline.  Such runs compose, keep all nodes and keep children older
than their parents, so these hold of every arena that the operations build from the empty one (`Arena.Built`).  What
one splice does then follows from the two descriptions of it, through addresses (`Spliced`) and through trees
(`Stores.splice`).
-/
import GrammarInference.Proofs.Derivation.Generator
import GrammarInference.Proofs.Earley.Moves
import GrammarInference.Proofs.Tree.Sharing

namespace GrammarInference

namespace Arena

variable {a a' a'' : Arena} {root id replacement new : NodeId} {path : List Nat}

/-! ### Runs of allocations -/

/-- The arena `a'` comes from `a` by allocating nodes above nodes that are there. -/
inductive Allocates (a : Arena) : Arena → Prop where
  | refl : Allocates a a
  | alloc {a' : Arena} (h : Allocates a a') (s : Symbol) {cs : List NodeId} (hcs : ∀ c ∈ cs, c.index < a'.size) :
    Allocates a (a'.alloc s cs).2

namespace Allocates

theorem one (s : Symbol) {cs : List NodeId} (hcs : ∀ c ∈ cs, c.index < a.size) : a.Allocates (a.alloc s cs).2 :=
  .alloc .refl s hcs

theorem trans (h : a.Allocates a') (h' : a'.Allocates a'') : a.Allocates a'' := by
  induction h' with
  | refl => exact h
  | alloc _ s hcs ih => exact .alloc ih s hcs

/-- No node is changed. -/
theorem keeps (h : a.Allocates a') : a.Extends a' := by
  induction h with
  | refl => exact .refl a
  | alloc _ s _ ih => exact ih.trans (extends_alloc _ s _)

theorem ordered (h : a.Allocates a') (ha : a.Ordered) : a'.Ordered := by
  induction h with
  | refl => exact ha
  | alloc _ _ hcs ih => exact ih.alloc hcs

theorem size_le (h : a.Allocates a') : a.size ≤ a'.size := by
  induction h with
  | refl => exact Nat.le_refl _
  | alloc _ _ _ ih =>
    rw [size_alloc]
    exact Nat.le_succ_of_le ih

end Allocates

theorem index_alloc_lt (a : Arena) (s : Symbol) (cs : List NodeId) :
    (a.alloc s cs).1.index < (a.alloc s cs).2.size := by
  rw [size_alloc]
  exact Nat.lt_succ_self _

/-- Splicing nodes that are there allocates above nodes that are there. -/
theorem Ordered.allocates_splice (h : a.Ordered) (path : List Nat) (hroot : root.index < a.size)
    (hreplacement : replacement.index < a.size) :
    a.Allocates (a.splice root path replacement).2 ∧
      ∀ new, (a.splice root path replacement).1 = some new → new.index < (a.splice root path replacement).2.size := by
  induction path generalizing root with
  | nil =>
    refine ⟨.refl, fun new hnew => ?_⟩
    obtain rfl : replacement = new := Option.some.inj hnew
    exact hreplacement
  | cons i path ih =>
    rcases hc : (a.children root)[i]? with - | c
    · simp only [splice, hc]
      exact ⟨.refl, fun new hnew => by cases hnew⟩
    · have hold : ∀ c ∈ a.children root, c.index < a.size := fun c hc => Nat.lt_trans (h.children_lt hc) hroot
      obtain ⟨hbelow, hchild⟩ := ih (hold c (List.mem_of_getElem? hc))
      rcases hsplice : a.splice c path replacement with ⟨- | child, a'⟩
      · rw [hsplice] at hbelow
        simp only [splice, hc, hsplice]
        exact ⟨hbelow, fun new hnew => by cases hnew⟩
      · rw [hsplice] at hbelow hchild
        simp only [splice, hc, hsplice]
        have hset : ∀ c ∈ (a.children root).set i child, c.index < a'.size := fun c hc => by
          rcases List.mem_or_eq_of_mem_set hc with hc | rfl
          · exact Nat.lt_of_lt_of_le (hold c hc) hbelow.size_le
          · exact hchild c rfl
        refine ⟨hbelow.alloc (a.symbol root) hset, fun new hnew => ?_⟩
        obtain rfl := Option.some.inj hnew
        exact index_alloc_lt a' _ _

end Arena

/-! ### Parses and derivations -/

namespace Earley

open Arena (Allocates)

namespace Search

theorem Move.allocates {m : Move} {s : Search} (h : m.Grounded s.arena) : s.arena.Allocates (m.play s).2.arena := by
  cases m with
  | alloc symbol children => exact .one symbol h
  | fail gap cuts =>
    show s.arena.Allocates (s.fail gap cuts).arena
    rw [Search.fail]
    split <;> exact .refl
  | _ => exact .refl

/-- Moves allocate, also when they are broken off. -/
theorem AllGrounded.allocates {ms : List Move} {s : Search} (h : AllGrounded ms s) :
    s.arena.Allocates (playAll ms s).2.arena := by
  induction ms generalizing s with
  | nil => exact .refl
  | cons m ms ih =>
    have hm := Move.allocates h.1
    have hms := h.2
    rw [playAll]
    rcases hplay : m.play s with ⟨- | -, s₁⟩
    · rw [hplay] at hm hms
      exact hm.trans (ih hms)
    · rw [hplay] at hm
      exact hm

/-- A question allocates, under every deadline, and what it finds are nodes. -/
theorem IsPlayed.allocates {α : Type} {nodes : α → List NodeId} {f : Search → Answer α × Search} {s : Search}
    (h : IsPlayed nodes f s) :
    s.arena.Allocates (f s).2.arena ∧
      ∀ x, (f s).1 = .found x → ∀ id ∈ nodes x, id.index < (f s).2.arena.size := by
  obtain ⟨ms, answer, hplay, hground, hnodes⟩ := h
  have hs : s.under s.checkpoint.deadline = s := rfl
  have hrun := hplay s.checkpoint.deadline
  rw [hs] at hrun
  have hallocates := hground.allocates
  rw [hrun]
  rcases hms : playAll ms s with ⟨- | -, s₁⟩
  · have hafter : s₁ = (after ms s).under s.checkpoint.deadline :=
      congrArg Prod.snd (hms.symm.trans (playAll_under (d := s.checkpoint.deadline) (congrArg Prod.fst hms)))
    rw [hms] at hallocates
    cases answer with
    | none => exact ⟨hallocates, fun x hx => by cases hx⟩
    | some x =>
      refine ⟨hallocates, fun x' hx => ?_⟩
      cases hx
      rw [settle, hafter]
      exact hnodes x rfl
  · rw [hms] at hallocates
    exact ⟨hallocates, fun x hx => by cases hx⟩

end Search

/-- A parse allocates, whether it is finished or broken off. -/
theorem allocates_parseFrom (t : Table) (arena : Arena) (start input : String) (deadline : Deadline) :
    arena.Allocates (parseFrom t arena start input deadline).2 := by
  rw [parseFrom]
  rcases Chart.build t input.toList.toArray start deadline with - | c
  · exact .refl
  · simp only
    split
    · exact .refl
    · have hplayed := (Search.isPlayed_derive_and_fit ⟨t, input.toList.toArray, .ofChart t c⟩
        (Search.depthBound t input.toList.toArray.size)).1 ⟨0, input.toList.toArray.size, start⟩
        ⟨arena, [], ∅, 0, .start deadline Search.period⟩
      have hallocates := hplayed.allocates.1
      rcases hderive : Search.derive _ _ _ _ with ⟨answer, s⟩
      rw [hderive] at hallocates
      cases answer <;> exact hallocates

end Earley

namespace Generator

variable {gen : Generator}

/-- Nodes are only allocated, and those that are returned are nodes. -/
def Lengthens {α : Type} (nodes : α → List NodeId) (s : State) (r : Except Error α × State) : Prop :=
  s.arena.Allocates r.2.arena ∧ ∀ x, r.1 = .ok x → ∀ id ∈ nodes x, id.index < r.2.arena.size

theorem Lengthens.failed {α : Type} {nodes : α → List NodeId} {s s' : State} (h : s.arena.Allocates s'.arena)
    (e : Error) : Lengthens nodes s (.error e, s') := ⟨h, fun _ hx => nomatch hx⟩

theorem Lengthens.prepend {s s' : State} {id : NodeId} {rest : Except Error (List NodeId) × State}
    (h : s.arena.Allocates s'.arena) (hid : id.index < s'.arena.size) (hrest : Lengthens (fun ids => ids) s' rest) :
    Lengthens (fun ids => ids) s (Generator.prepend id rest) := by
  rcases rest with ⟨e | ids, s''⟩
  · exact .failed (h.trans hrest.1) e
  · refine ⟨h.trans hrest.1, fun ids' hids => ?_⟩
    cases hids
    exact List.forall_mem_cons.mpr ⟨Nat.lt_of_lt_of_le hid hrest.1.size_le, hrest.2 ids rfl⟩

theorem lengthens_expandRule {f : String → State → Except Error NodeId × State}
    (hf : ∀ m s, Lengthens (fun id => [id]) s (f m s)) (r : Rule) (s : State) :
    Lengthens (fun ids => ids) s (expandRule f r s) := by
  induction r generalizing s with
  | nil =>
    refine ⟨.refl, fun ids hids => ?_⟩
    cases hids
    exact fun id hid => absurd hid List.not_mem_nil
  | cons x r ih =>
    cases x with
    | terminal text =>
      have hleaf : s.arena.Allocates (s.alloc (.terminal text) []).2.arena :=
        .one (.terminal text) fun c hc => absurd hc List.not_mem_nil
      exact .prepend hleaf (s.arena.index_alloc_lt (.terminal text) []) (ih _)
    | nonterminal m =>
      obtain ⟨hallocates, hid⟩ := hf m s
      rw [expandRule]
      rcases hm : f m s with ⟨e | id, s'⟩
      · rw [hm] at hallocates
        exact .failed hallocates e
      · rw [hm] at hallocates hid
        exact .prepend hallocates (hid id rfl id List.mem_cons_self) (ih s')

/-- An expansion allocates, whatever the options and the deadline are. -/
theorem lengthens_expand (gen : Generator) (bound : Nat) (n : String) (forced : Option Nat) (depth : Nat) (s : State) :
    Lengthens (fun id => [id]) s (gen.expand bound n forced depth s) := by
  induction bound generalizing n forced depth s with
  | zero => exact .failed .refl _
  | succ bound ih =>
    rw [expand]
    rcases s.checkpoint.tick with ⟨- | -, cp⟩
    · rcases gen.options.get? n with - | options
      · exact .failed .refl _
      · have hpick := (gen.pick_spec n forced depth options { s with checkpoint := cp }).1
        simp only [Bool.false_eq_true, if_false]
        generalize gen.pick n forced depth options { s with checkpoint := cp } = picked at hpick ⊢
        have hstart : s.arena.Allocates picked.2.arena := by
          rw [hpick]
          exact .refl
        rcases picked with ⟨e | r, s₁⟩
        · exact .failed hstart e
        · have hrule := lengthens_expandRule (fun m s => ih m none (depth + 1) s) r s₁
          simp only
          generalize expandRule (fun m s => gen.expand bound m none (depth + 1) s) r s₁ = children at hrule ⊢
          rcases children with ⟨e | ids, s₂⟩
          · exact .failed (hstart.trans hrule.1) e
          · refine ⟨(hstart.trans hrule.1).alloc (.nonterminal n) (hrule.2 ids rfl), fun id hid => ?_⟩
            cases hid
            intro id hid
            obtain rfl := List.mem_singleton.mp hid
            exact s₂.arena.index_alloc_lt (.nonterminal n) ids
    · exact .failed .refl _

/-- A derivation allocates, whether it is finished or broken off. -/
theorem allocates_generate (gen : Generator) (arena : Arena) (start : String) (forced : Option Nat)
    (deadline : Deadline) : arena.Allocates (gen.generate arena start forced deadline).2.1 :=
  (lengthens_expand gen gen.depthBound start forced 0 ⟨gen.random, arena, .start deadline period⟩).1

end Generator

/-! ### Arenas with a history -/

namespace Arena

variable {a a' : Arena} {root replacement old new id : NodeId} {path : List Nat}

/-- An arena that the operations build from the empty one. -/
inductive Built : Arena → Prop where
  | empty : Built ∅
  | leaf {a : Arena} (h : Built a) (text : String) : Built (a.leaf text).2
  | alloc {a : Arena} (h : Built a) (s : Symbol) {cs : List NodeId} (hcs : ∀ c ∈ cs, c.index < a.size) :
    Built (a.alloc s cs).2
  | splice {a : Arena} (h : Built a) {root replacement : NodeId} (path : List Nat) (hroot : root.index < a.size)
    (hreplacement : replacement.index < a.size) : Built (a.splice root path replacement).2
  | parse {a : Arena} (h : Built a) (t : Earley.Table) (start input : String) (deadline : Deadline) :
    Built (Earley.parseFrom t a start input deadline).2
  | generate {a : Arena} (h : Built a) (gen : Generator) (start : String) (forced : Option Nat) (deadline : Deadline) :
    Built (gen.generate a start forced deadline).2.1

/-- Children are older than their parents. -/
theorem Built.ordered (h : Built a) : a.Ordered := by
  induction h with
  | empty => exact fun i n hn => absurd hn (by simp [EmptyCollection.emptyCollection, Arena.empty])
  | leaf _ text ih => exact ih.alloc fun c hc => absurd hc List.not_mem_nil
  | alloc _ s hcs ih => exact ih.alloc hcs
  | splice _ path hroot hreplacement ih => exact (ih.allocates_splice path hroot hreplacement).1.ordered ih
  | parse _ t start input deadline ih => exact (Earley.allocates_parseFrom t _ start input deadline).ordered ih
  | generate _ gen start forced deadline ih => exact (gen.allocates_generate _ start forced deadline).ordered ih

/-- What a splice gives, read off as a tree: the tree of the root with the subtree at the path replaced, which yields
what the root yields with the yield of the subtree exchanged, unless a terminal above hides both. -/
structure ReadsSpliced (a a' : Arena) (root : NodeId) (path : List Nat) (old replacement new : NodeId) : Prop where
  /-- The tree is the one with the subtree replaced. -/
  treeAt_new : a'.treeAt new = (a.treeAt root).replaceAt path (a.treeAt replacement)
  /-- The subtree that was replaced is the one of the node at the end of the path. -/
  subtreeAt?_root : (a.treeAt root).subtreeAt? path = some (a.treeAt old)
  /-- What is left and right of the path is yielded around the subtree. -/
  yield_root : (a.treeAt root).Shows path → (a.yieldString root).toList =
    (a.treeAt root).yieldBefore path ++ (a.yieldString old).toList ++ (a.treeAt root).yieldAfter path
  /-- The same is yielded around the replacement. -/
  yield_new : (a.treeAt root).Shows path → (a'.yieldString new).toList =
    (a.treeAt root).yieldBefore path ++ (a.yieldString replacement).toList ++ (a.treeAt root).yieldAfter path
  /-- A terminal yields its own text, whatever is replaced below it. -/
  yield_hidden : ¬(a.treeAt root).Shows path → a'.yieldString new = a.yieldString root

/-- What is read off a splice. -/
theorem Ordered.readsSpliced (ha : a.Ordered) (hroot : root.index < a.size) (hpath : a.nodeAt root path = some old)
    (hreplacement : replacement.index < a.size) (hsplice : a.splice root path replacement = (some new, a')) :
    a.ReadsSpliced a' root path old replacement new := by
  obtain ⟨u, hu, hold⟩ := (ha.stores hroot).nodeAt hpath
  obtain rfl : a.treeAt old = u := hold.treeAt_eq
  have htree : a'.treeAt new = (a.treeAt root).replaceAt path (a.treeAt replacement) := by
    obtain ⟨new', a'', hsplice', -, hstores⟩ := (ha.stores hroot).splice hu (ha.stores hreplacement)
    rw [hsplice] at hsplice'
    cases hsplice'
    exact hstores.treeAt_eq
  constructor
  · exact htree
  · exact hu
  · intro hshows
    simp only [yieldString, Tree.toList_yieldString]
    exact Tree.yield_eq_around hu hshows
  · intro hshows
    simp only [yieldString, Tree.toList_yieldString, htree]
    exact Tree.yield_replaceAt hu hshows _
  · intro hshows
    rw [← String.toList_inj, yieldString, yieldString, Tree.toList_yieldString, Tree.toList_yieldString, htree]
    exact Tree.yield_replaceAt_of_not_shows hu hshows _

/-- **Splicing is copy-on-write.**  In an arena that any operations built, children are older than their parents, so
every node holds a finite tree, and none stands below itself.  Splicing any node that is there in the place of the
node at the end of a path allocates one node for each step, which shares all children but one with the node that it
copies.  The result reads as the tree with that subtree replaced, and no node that was there reads differently. -/
theorem Built.splice_copies_path (h : Built a) :
    a.Ordered ∧
      (∀ id : NodeId, id.index < a.size → a.Stores (a.treeAt id) id ∧
        ∀ path below, a.nodeAt id path = some below → below.index + path.length ≤ id.index) ∧
      ∀ root path old replacement, root.index < a.size → a.nodeAt root path = some old →
        replacement.index < a.size →
        ∃ new a', a.splice root path replacement = (some new, a') ∧
          a.Spliced a' root path replacement new ∧ a.ReadsSpliced a' root path old replacement new ∧
          a'.Ordered ∧ new.index < a'.size ∧
          ∀ id : NodeId, id.index < a.size → a'.node? id = a.node? id ∧ a'.treeAt id = a.treeAt id := by
  have ha := h.ordered
  refine ⟨ha, fun id hid => ⟨ha.stores hid, fun path below => ha.index_nodeAt_le⟩, ?_⟩
  intro root path old replacement hroot hpath hreplacement
  obtain ⟨new, a', hsplice, hspliced⟩ := exists_spliced hpath replacement
  obtain ⟨hallocates, hnew⟩ := ha.allocates_splice path hroot hreplacement
  rw [hsplice] at hallocates hnew
  refine ⟨new, a', hsplice, hspliced, ha.readsSpliced hroot hpath hreplacement hsplice, hallocates.ordered ha,
    hnew new rfl, fun id hid => ⟨?_, hspliced.treeAt_eq ha hid⟩⟩
  obtain ⟨n, hn⟩ := exists_node?_of_lt hid
  rw [hn, hspliced.kept id n hn]

/-- A leaf that is used twice by a node that is used twice, and another leaf. -/
def diamond : Arena :=
  ⟨#[⟨.terminal "x", []⟩, ⟨.nonterminal "<a>", [⟨0⟩, ⟨0⟩]⟩, ⟨.nonterminal "<s>", [⟨1⟩, ⟨1⟩]⟩, ⟨.terminal "y", []⟩]⟩

theorem built_diamond : Built diamond := by
  have hleaf := Built.empty.leaf "x"
  have hinner := @Built.alloc _ hleaf (.nonterminal "<a>") [⟨0⟩, ⟨0⟩] (by decide)
  have houter := @Built.alloc _ hinner (.nonterminal "<s>") [⟨1⟩, ⟨1⟩] (by decide)
  exact houter.leaf "y"

/-- In one of the four places where the leaf is used, another one is put. -/
theorem splice_diamond :
    Built diamond ∧ diamond.nodeAt ⟨2⟩ [1, 0] = some ⟨0⟩ ∧ diamond.yieldString ⟨2⟩ = "xxxx" ∧
      ∃ new a', diamond.splice ⟨2⟩ [1, 0] ⟨3⟩ = (some new, a') ∧ a'.size = 6 ∧ a'.yieldString new = "xxyx" := by
  obtain ⟨-, -, hsplices⟩ := built_diamond.splice_copies_path
  obtain ⟨new, a', hsplice, hspliced, hreads, -⟩ :=
    hsplices ⟨2⟩ [1, 0] ⟨0⟩ ⟨3⟩ (by decide) rfl (by decide)
  have hshows : (diamond.treeAt ⟨2⟩).Shows [1, 0] := by
    refine ⟨⟨"<s>", rfl⟩, fun c hc => ?_⟩
    obtain rfl := Option.some.inj hc
    exact ⟨⟨"<a>", rfl⟩, fun _ _ => trivial⟩
  refine ⟨built_diamond, rfl, by decide, new, a', hsplice, hspliced.size_eq, ?_⟩
  rw [← String.toList_inj, hreads.yield_new hshows]
  decide

end Arena

end GrammarInference
