/-
GrammarInference/Proofs/Execution/Faithful.lean

Execution trees show what was read where, and in which order.

Design.  The branches of all trees at the top are the paths of all positions, each with its bucket, and the tree
that is kept is the first of them.  So its branches are those of a first stretch of positions.  All of them start
with the label of its root, and the branches behind them start with the label of its neighbour, which is another
one.  That is why the stretch is the longest one with the same label at the top, and nothing has to be known of
how the trees were built but that they are a forest with these branches.
-/
import GrammarInference.Proofs.Execution.Build
import Mathlib.Order.Bounds.Basic

namespace GrammarInference

namespace ExecutionTree

variable {P : String → Prop} {t u root : ExecutionTree} {ts : List ExecutionTree}
  {p : List PathElement × ExecutionTree} {l : List (List PathElement × ExecutionTree)}

/-! ### What a tree shows -/

/-- The node `u` belongs to the tree `t`. -/
inductive IsWithin : ExecutionTree → ExecutionTree → Prop
  | refl (t : ExecutionTree) : IsWithin t t
  | inside {u c t : ExecutionTree} : IsWithin u c → c ∈ t.children → IsWithin u t

/-- The label of the outermost step of a position; none if its call stack is empty. -/
def outermost? (p : List PathElement × ExecutionTree) : Option String := p.1.head?.map PathElement.label

/-- The first `m` positions are those that one tree can show: as many as have the outermost label of the first
one, or only the first one if its call stack is empty, and then the tree is its bucket. -/
def FirstStretch (root : ExecutionTree) (m : Nat) : List (List PathElement × ExecutionTree) → Prop
  | [] => False
  | ([], leaf) :: _ => m = 1 ∧ root = leaf
  | (e :: path, leaf) :: rest =>
    IsGreatest {k | k ≤ rest.length + 1 ∧
      ∀ p ∈ ((e :: path, leaf) :: rest).take k, outermost? p = some e.label} m

/-- The tree shows the paths of the first positions, each with its bucket at the end. -/
structure Shows (l : List (List PathElement × ExecutionTree)) (root : ExecutionTree) : Prop where
  /-- The branches are the paths of the first stretch of positions, in their order. -/
  branches : ∃ m, FirstStretch root m l ∧ root.branches = (l.take m).map fun p => branchOf p.1 p.2
  /-- Neighbours share a label only if they are buckets. -/
  parted : ∀ u : ExecutionTree, u.IsWithin root → u.children.IsChain Parted
  /-- Below a loop stand iterations. -/
  loops : ∀ u : ExecutionTree, u.IsWithin root → u.kind = .loop → ∀ c ∈ u.children, c.kind = .iteration
  /-- Iterations stand nowhere else. -/
  iterations : root.kind ≠ .iteration ∧
    ∀ u : ExecutionTree, u.IsWithin root → ∀ c ∈ u.children, c.kind = .iteration → u.kind = .loop

/-! ### Nodes -/

theorem Grown.of_mem_children {c : ExecutionTree} (h : Grown P t) (hc : c ∈ t.children) : Grown P c := by
  cases h with
  | bucket k values => exact absurd hc List.not_mem_nil
  | step _ hts _ _ _ => exact hts c hc

theorem Grown.of_isWithin (h : Grown P t) (hu : u.IsWithin t) : Grown P u := by
  induction hu with
  | refl => exact h
  | inside _ hc ih => exact ih (h.of_mem_children hc)

theorem Grown.parted (h : Grown P t) : t.children.IsChain Parted := by
  cases h with
  | bucket k values => exact .nil
  | step _ _ _ _ hparted => exact hparted

theorem Grown.kind_iff (h : Grown P t) : ∀ c ∈ t.children, c.kind = .iteration ↔ t.kind = .loop := by
  cases h with
  | bucket k values => exact fun c hc => absurd hc List.not_mem_nil
  | step _ _ hkinds _ _ => exact hkinds

/-! ### First branches -/

theorem branchesBelow_ne_nil (hts : ∀ t ∈ ts, t.branches ≠ []) (hne : ts ≠ []) : branchesBelow ts ≠ [] := by
  cases ts with
  | nil => exact absurd rfl hne
  | cons t ts =>
    rw [branchesBelow]
    exact List.append_ne_nil_of_left_ne_nil (hts t List.mem_cons_self) _

theorem Grown.branches_ne_nil (h : Grown P t) : t.branches ≠ [] := by
  induction h with
  | bucket k values =>
    rw [branches]
    exact List.cons_ne_nil _ _
  | step _ _ _ hne _ ih =>
    rw [branches_of_ne_nil hne]
    exact fun h => branchesBelow_ne_nil ih hne (List.map_eq_nil_iff.mp h)

/-- Every branch starts with the root. -/
theorem head?_of_mem_branches {b : List (String × NodeKind)} (hb : b ∈ t.branches) :
    b.head? = some (t.label, t.kind) := by
  obtain ⟨label, kind, ts⟩ := t
  cases ts with
  | nil =>
    rw [branches, List.mem_singleton] at hb
    rw [hb]
    rfl
  | cons t ts =>
    rw [branches] at hb
    obtain ⟨b', -, rfl⟩ := List.mem_map.mp hb
    rfl

/-- The branch of a position starts with its outermost step, or with its bucket. -/
theorem IsLabelled.head?_branchOf (hp : IsLabelled P p) (ht : Grown P t)
    (h : (branchOf p.1 p.2).head? = some (t.label, t.kind)) :
    (t.isBucket = true ∧ p = ([], t)) ∨ (t.isBucket = false ∧ outermost? p = some t.label) := by
  obtain ⟨path, leaf⟩ := p
  cases path with
  | nil =>
    obtain ⟨k, values, hleaf⟩ := hp.leaf.eq_node_of_isBucket hp.isBucket
    obtain rfl : leaf = _ := hleaf
    obtain ⟨hlabel, hkind⟩ := Prod.mk.inj (Option.some.inj h)
    have hbucket : t.isBucket = true := isBucket_eq_of_kind_eq hkind.symm
    obtain ⟨k', values', rfl⟩ := ht.eq_node_of_isBucket hbucket
    obtain rfl : values = values' := NodeKind.bucket.inj hkind
    exact .inl ⟨rfl, by rw [show bucketLabel k = bucketLabel k' from hlabel]⟩
  | cons e path =>
    obtain ⟨hlabel, hkind⟩ := Prod.mk.inj (Option.some.inj h)
    refine .inr ⟨?_, congrArg some hlabel⟩
    exact (isBucket_eq_of_kind_eq hkind.symm).trans (isBucket_step e [])

/-! ### The first stretch -/

/-- The positions behind those of the first tree start with another label. -/
theorem Forest.outermost?_ne (h : Forest P False (root :: ts)) (hroot : root.isBucket = false)
    (hp : IsLabelled P p) {b : List (List (String × NodeKind))} (hb : branchesBelow ts = branchOf p.1 p.2 :: b) :
    outermost? p ≠ some root.label := by
  cases ts with
  | nil => cases hb
  | cons t ts =>
    have ht := h.grown t (List.mem_cons_of_mem root List.mem_cons_self)
    -- the branch of the position is the first one of the neighbour
    have hfirst : branchOf p.1 p.2 ∈ t.branches := by
      rw [branchesBelow] at hb
      obtain ⟨b', bs, hbs⟩ := List.exists_cons_of_ne_nil ht.branches_ne_nil
      rw [hbs] at hb ⊢
      rw [(List.cons.inj hb).1]
      exact List.mem_cons_self
    intro hlabel
    rcases hp.head?_branchOf ht (head?_of_mem_branches hfirst) with ⟨-, rfl⟩ | ⟨-, hother⟩
    · cases hlabel
    · have hsame : root.label = t.label := Option.some.inj (hlabel.symm.trans hother)
      have hparted := (List.isChain_cons_cons.mp h.parted).1 hsame
      rw [hroot] at hparted
      cases hparted.1

/-- In a forest whose branches are those of the positions, the first tree shows the first stretch. -/
theorem Forest.firstStretch (h : Forest P False (root :: ts)) (hl : ∀ p ∈ l, IsLabelled P p)
    (hbranches : branchesBelow (root :: ts) = l.map fun p => branchOf p.1 p.2) :
    ∃ m, FirstStretch root m l ∧ root.branches = (l.take m).map fun p => branchOf p.1 p.2 := by
  have hroot := h.grown root List.mem_cons_self
  rw [branchesBelow] at hbranches
  generalize hm : root.branches.length = m
  have htake : root.branches = (l.take m).map fun p => branchOf p.1 p.2 := by
    rw [List.map_take, ← hbranches, List.take_left' hm]
  have hdrop : branchesBelow ts = (l.drop m).map fun p => branchOf p.1 p.2 := by
    rw [List.map_drop, ← hbranches, List.drop_left' hm]
  have hlength : m ≤ l.length := by
    rw [← hm, htake, List.length_map]
    exact List.length_take_le' m l
  -- a position that the root shows starts with it
  have hshown : ∀ p ∈ l.take m, (root.isBucket = true ∧ p = ([], root)) ∨
      (root.isBucket = false ∧ outermost? p = some root.label) := by
    intro p hp
    refine (hl p (List.mem_of_mem_take hp)).head?_branchOf hroot (head?_of_mem_branches ?_)
    rw [htake]
    exact List.mem_map_of_mem hp
  refine ⟨m, ?_, htake⟩
  have hpos : 0 < m := hm ▸ List.length_pos_of_ne_nil hroot.branches_ne_nil
  rcases l with - | ⟨p₀, rest⟩
  · exact absurd hlength (Nat.not_le.mpr hpos)
  · have hfirst : p₀ ∈ (p₀ :: rest).take m := by
      obtain ⟨k, rfl⟩ := Nat.exists_eq_add_of_le' hpos
      exact List.mem_cons_self
    rcases hshown p₀ hfirst with ⟨hbucket, rfl⟩ | ⟨hnot, houter⟩
    · refine ⟨?_, rfl⟩
      rw [← hm, hroot.branches_of_isBucket hbucket]
      rfl
    · obtain ⟨- | ⟨e, path⟩, leaf⟩ := p₀
      · cases houter
      · have he : e.label = root.label := Option.some.inj houter
        rw [FirstStretch, he]
        refine ⟨⟨hlength, fun p hp => ?_⟩, ?_⟩
        · rcases hshown p hp with ⟨hbucket, -⟩ | ⟨-, houter⟩
          · rw [hnot] at hbucket
            cases hbucket
          · exact houter
        · rintro k ⟨hk, hall⟩
          by_contra hlt
          rw [Nat.not_le] at hlt
          -- the first position behind the stretch
          have hnext : m < ((e :: path, leaf) :: rest).length := Nat.lt_of_lt_of_le hlt hk
          rw [List.drop_eq_getElem_cons hnext, List.map_cons] at hdrop
          refine h.outermost?_ne hnot (hl _ (List.getElem_mem hnext)) hdrop (hall _ ?_)
          exact List.mem_take_iff_getElem.mpr ⟨m, by omega, rfl⟩

/-! ### Trees of traces -/

theorem labelled_eq_nil_iff {mode : ContextMode} {keepNull : Bool} {s : LabelState}
    {positions : List OrderedPosition} : labelled mode keepNull s positions = [] ↔ positions = [] := by
  cases positions with
  | nil => exact iff_of_true rfl rfl
  | cons p rest => exact iff_of_false (List.cons_ne_nil _ _) (List.cons_ne_nil p rest)

/-- The first tree of a forest shows the positions whose paths are the branches of the forest. -/
theorem Forest.shows (h : Forest P False (root :: ts)) (hl : ∀ p ∈ l, IsLabelled P p)
    (hbranches : branchesBelow (root :: ts) = l.map fun p => branchOf p.1 p.2) : Shows l root := by
  have hroot := h.grown root List.mem_cons_self
  refine ⟨h.firstStretch hl hbranches, fun u hu => (hroot.of_isWithin hu).parted, ?_, ?_, ?_⟩
  · intro u hu hloop c hc
    exact ((hroot.of_isWithin hu).kind_iff c hc).mpr hloop
  · exact fun hk => (h.kinds root List.mem_cons_self).mp hk
  · intro u hu c hc hk
    exact ((hroot.of_isWithin hu).kind_iff c hc).mp hk

/-- **Execution trees are faithful.**  A trace without positions has no tree.  The tree of any other trace shows
the paths of a first stretch of its positions, each with its bucket at the end, from left to right; what follows
one another in one call or iteration is merged, and iterations stand below loops and nowhere else. -/
theorem build_faithful (t : OrderedTrace) (s : LabelState) (mode : ContextMode) (keepNull : Bool) :
    ((build t s mode keepNull).1 = none ↔ t.positions = []) ∧
      ∀ root, (build t s mode keepNull).1 = some root → Shows (labelled mode keepNull s t.positions) root := by
  let P : String → Prop := fun _ => True
  have hany : ∀ p ∈ t.positions, ∀ f ∈ p.context, P f.callee := fun _ _ _ _ => trivial
  have hroots : Forest P False (insertPositions mode keepNull [] s t.positions).1 ∧
      branchesBelow (insertPositions mode keepNull [] s t.positions).1 =
        (labelled mode keepNull s t.positions).map fun p => branchOf p.1 p.2 := forest_insertPositions hany
  obtain ⟨hforest, hbranches⟩ := hroots
  have hbuild : (build t s mode keepNull).1 = (insertPositions mode keepNull [] s t.positions).1.head? := rfl
  rw [hbuild]
  rcases hroots : (insertPositions mode keepNull [] s t.positions).1 with - | ⟨root, ts⟩
  · rw [hroots] at hbranches
    have hnil : t.positions = [] := labelled_eq_nil_iff.mp (List.map_eq_nil_iff.mp hbranches.symm)
    exact ⟨iff_of_true rfl hnil, fun root h => nomatch h⟩
  · rw [hroots] at hforest hbranches
    refine ⟨iff_of_false (Option.some_ne_none root) fun hnil => ?_, fun root' h => ?_⟩
    · rw [hnil] at hroots
      cases hroots
    · cases h
      exact hforest.shows (isLabelled_labelled hany) hbranches

/-- Two iterations of a loop, and a call of another function behind them. -/
def loopThenCall : OrderedTrace where
  positions :=
    [⟨⟨1, 0⟩, [⟨"main", "0", [⟨"loop", 0⟩]⟩], [97]⟩, ⟨⟨2, 0⟩, [⟨"main", "0", [⟨"loop", 1⟩]⟩], [98, 99]⟩,
      ⟨⟨3, 0⟩, [⟨"other", "1", []⟩], [100]⟩]
  inherited := ∅
  popped := ∅

/-- The tree of that trace shows the two iterations; the other call is thrown away. -/
theorem build_loopThenCall : ∃ root, (build loopThenCall ∅ .callPath false).1 = some root ∧
    Shows (labelled .callPath false ∅ loopThenCall.positions) root := by
  obtain ⟨hnone, hsome⟩ := build_faithful loopThenCall ∅ .callPath false
  rcases hbuild : (build loopThenCall ∅ .callPath false).1 with - | root
  · exact absurd (hnone.mp hbuild) (List.cons_ne_nil _ _)
  · exact ⟨root, rfl, hsome root hbuild⟩

end ExecutionTree

end GrammarInference
