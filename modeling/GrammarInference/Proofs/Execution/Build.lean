/-
GrammarInference/Proofs/Execution/Build.lean

What insertion makes of paths.

Design.  The steps of a call stack form a path on which a loop is followed by one of its iterations and nothing
else is.  A path goes into a tree along its right edge.  Where it shares a node, the label of the node is that
of the step, so the node is of the kind of the step and what stands below it is as it has to be.  A node that
is not shared is put behind one with another label, so neighbours differ in their labels unless both are buckets
(`Forest`).  Nothing is lost on the way: the branches of the trees are the inserted paths, from left to right
(`branchesBelow_insertPath`).  Nothing is assumed of the names of functions; what is known of them is handed on.
-/
import GrammarInference.Execution.Build
import GrammarInference.Proofs.Execution.Tree
import Mathlib.Data.List.Chain

namespace GrammarInference

variable {P : String → Prop}

/-! ### Paths -/

/-- The path belongs to functions with `P` and can stand below a node, which is a loop if `below` says so:
iterations stand below loops, and nothing else does. -/
def IsPath (P : String → Prop) (below : Prop) : List PathElement → Prop
  | [] => ¬below
  | e :: path => P e.callee ∧ (e.kind = .iteration ↔ below) ∧ IsPath P (e.kind = .loop) path

theorem isPath_call {f : String} (hf : P f) {c : Nat} {path : List PathElement}
    (h : IsPath P False path) : IsPath P False (.call f c :: path) := by
  refine ⟨hf, by simp [PathElement.kind], ?_⟩
  simpa [PathElement.kind] using h

theorem isPath_loop {f : String} (hf : P f) {c i n : Nat} {path : List PathElement}
    (h : IsPath P False path) : IsPath P False (.loop f c i :: .iteration f c i n :: path) := by
  refine ⟨hf, by simp [PathElement.kind], hf, by simp [PathElement.kind], ?_⟩
  simpa [PathElement.kind] using h

/-- The functions of a call stack were observed. -/
def CallStack.IsObserved (context : CallStack) : Prop := ∀ f ∈ context, GrammarInference.IsObserved f.callee

instance (context : CallStack) : Decidable context.IsObserved :=
  inferInstanceAs (Decidable (∀ f ∈ context, _))

namespace LabelState

variable {s : LabelState} {mode : ContextMode}

theorem isPath_loopPath_append {f : String} (hf : P f) (c : Nat) {loops : List LoopIteration}
    {path : List PathElement} (hpath : IsPath P False path) :
    IsPath P False ((s.loopPath f c loops).1 ++ path) := by
  induction loops generalizing s with
  | nil => exact hpath
  | cons l rest ih => exact isPath_loop hf (ih (s := (s.loopId f l.header).2))

theorem isPath_pathBelow {callsites : List String} {context : CallStack} (h : ∀ f ∈ context, P f.callee) :
    IsPath P False (s.pathBelow mode callsites context).1 := by
  induction context generalizing s callsites with
  | nil => exact id
  | cons f rest ih =>
    obtain ⟨hf, hrest⟩ := List.forall_mem_cons.mp h
    rw [pathBelow]
    refine isPath_call hf ?_
    exact isPath_loopPath_append hf _ (ih hrest)

/-- A call stack gives a path that starts with a call. -/
theorem isPath_path {context : CallStack} (h : ∀ f ∈ context, P f.callee) :
    IsPath P False (s.path context mode).1 :=
  isPath_pathBelow h

end LabelState

namespace ExecutionTree

/-! ### Trees that are built -/

/-- Does the node hold the values of an input position? -/
def isBucket (t : ExecutionTree) : Bool :=
  match t.kind with
  | .bucket _ => true
  | _ => false

/-- Neighbours with the same label are buckets. -/
def Parted (t u : ExecutionTree) : Prop := t.label = u.label → t.isBucket = true ∧ u.isBucket = true

/-- The labels fit the kinds of the nodes and belong to functions with `P`, iterations stand below loops and only
there, every path ends in a bucket, and neighbours are parted. -/
inductive Grown (P : String → Prop) : ExecutionTree → Prop
  | bucket (k : Nat) (values : List Nat) : Grown P (.node (bucketLabel k) (.bucket values) [])
  | step {e : PathElement} {ts : List ExecutionTree} : P e.callee → (∀ t ∈ ts, Grown P t) →
      (∀ t ∈ ts, t.kind = .iteration ↔ e.kind = .loop) → ts ≠ [] → ts.IsChain Parted →
      Grown P (.node e.label e.kind ts)

/-- Trees below one node, which is a loop if `below` says so. -/
structure Forest (P : String → Prop) (below : Prop) (ts : List ExecutionTree) : Prop where
  /-- Each of the trees was built. -/
  grown : ∀ t ∈ ts, Grown P t
  /-- Iterations stand below loops and nothing else does. -/
  kinds : ∀ t ∈ ts, t.kind = .iteration ↔ below
  /-- Neighbours are parted. -/
  parted : ts.IsChain Parted

variable {below : Prop} {t u leaf : ExecutionTree} {ts : List ExecutionTree} {e : PathElement}
  {path : List PathElement}

theorem isBucket_eq_of_kind_eq (h : t.kind = u.kind) : t.isBucket = u.isBucket := by
  rw [isBucket, isBucket, h]

theorem isBucket_step (e : PathElement) (ts : List ExecutionTree) : (node e.label e.kind ts).isBucket = false := by
  cases e <;> rfl

theorem Grown.wellFormed (h : Grown IsObserved t) : t.WellFormed := by
  induction h with
  | bucket k values => exact .bucket k values
  | step ho _ hkinds hne _ ih => exact .step ho ih hkinds fun _ => hne

theorem forest_nil : Forest P below [] :=
  ⟨fun _ ht => absurd ht List.not_mem_nil, fun _ ht => absurd ht List.not_mem_nil, .nil⟩

/-- A step over a forest. -/
theorem Forest.grown_step (h : Forest P (e.kind = .loop) ts) (he : P e.callee) (hne : ts ≠ []) :
    Grown P (.node e.label e.kind ts) :=
  .step he h.grown h.kinds hne h.parted

/-- A node with the label of a step is of its kind, and what stands below it may stand below the step. -/
theorem Grown.of_label_eq (h : Grown P t) (hl : t.label = e.label) :
    ∃ us, t = .node e.label e.kind us ∧ Forest P (e.kind = .loop) us ∧ us ≠ [] := by
  cases h with
  | bucket k values => exact absurd hl (bucketLabel_ne_label k e)
  | @step e' us _ hus hkinds hne hparted =>
    have hlabel : e'.label = e.label := hl
    have hkind := kind_eq_of_label_eq hlabel
    rw [hkind] at hkinds
    exact ⟨us, by rw [hlabel, hkind], ⟨hus, hkinds, hparted⟩, hne⟩

/-- A node with the label of a bucket is one. -/
theorem Grown.isBucket_of_label_eq (h : Grown P t) {k : Nat} (hl : t.label = bucketLabel k) :
    t.isBucket = true := by
  cases h with
  | bucket k values => rfl
  | step _ _ _ _ _ => exact absurd hl.symm (bucketLabel_ne_label k _)

/-- A bucket is a leaf. -/
theorem Grown.eq_node_of_isBucket (h : Grown P t) (hb : t.isBucket = true) :
    ∃ k values, t = .node (bucketLabel k) (.bucket values) [] := by
  cases h with
  | bucket k values => exact ⟨k, values, rfl⟩
  | step _ _ _ _ _ =>
    rw [isBucket_step] at hb
    cases hb

/-! ### Insertion of a path -/

theorem insertPath_ne_nil (leaf : ExecutionTree) (path : List PathElement) (ts : List ExecutionTree) :
    insertPath leaf path ts ≠ [] := by
  cases path with
  | nil => simp [insertPath]
  | cons e path =>
    rw [insertPath]
    split
    · split <;> simp
    · simp

theorem insertPath_cons_nil (leaf : ExecutionTree) (e : PathElement) (path : List PathElement) :
    insertPath leaf (e :: path) [] = [.node e.label e.kind (insertPath leaf path [])] := rfl

/-- The last sibling is shared if it has the label of the step; otherwise a new one is put behind it. -/
theorem insertPath_cons_concat (leaf : ExecutionTree) (e : PathElement) (path : List PathElement)
    (ts : List ExecutionTree) (t : ExecutionTree) :
    insertPath leaf (e :: path) (ts ++ [t]) =
      if t.label = e.label then ts ++ [.node t.label t.kind (insertPath leaf path t.children)]
      else ts ++ [t, .node e.label e.kind (insertPath leaf path [])] := by
  obtain ⟨label, kind, children⟩ := t
  rw [insertPath, List.getLast?_concat, List.dropLast_concat]
  show (if label = e.label then _ else _) = _
  split
  · rename_i hl
    rw [if_pos (show (node label kind children).label = e.label from hl)]
    rfl
  · rename_i hl
    rw [if_neg (show ¬(node label kind children).label = e.label from hl), List.append_assoc]
    rfl

/-- A forest with one more tree behind the others. -/
theorem Forest.concat (h : Forest P below ts) (ht : Grown P t) (hkind : t.kind = .iteration ↔ below)
    (hlast : ∀ u ∈ ts.getLast?, Parted u t) : Forest P below (ts ++ [t]) := by
  refine ⟨List.forall_mem_append.mpr ⟨h.grown, List.forall_mem_singleton.mpr ht⟩,
    List.forall_mem_append.mpr ⟨h.kinds, List.forall_mem_singleton.mpr hkind⟩, ?_⟩
  refine List.isChain_append.mpr ⟨h.parted, .singleton t, fun u hu v hv => ?_⟩
  cases hv
  exact hlast u hu

theorem Forest.of_concat (h : Forest P below (ts ++ [t])) :
    Forest P below ts ∧ Grown P t ∧ (t.kind = .iteration ↔ below) ∧ ∀ u ∈ ts.getLast?, Parted u t := by
  obtain ⟨hgrown, ht⟩ := List.forall_mem_append.mp h.grown
  obtain ⟨hkinds, hkind⟩ := List.forall_mem_append.mp h.kinds
  obtain ⟨hparted, -, hlast⟩ := List.isChain_append.mp h.parted
  exact ⟨⟨hgrown, hkinds, hparted⟩, ht t (List.mem_singleton_self t), hkind t (List.mem_singleton_self t),
    fun u hu => hlast u hu t rfl⟩

/-- Inserting a path below a forest gives a forest. -/
theorem Forest.insertPath (hleaf : Grown P leaf) (hbucket : leaf.isBucket = true) (hpath : IsPath P below path)
    (h : Forest P below ts) : Forest P below (ExecutionTree.insertPath leaf path ts) := by
  induction path generalizing below ts with
  | nil =>
    obtain ⟨k, values, rfl⟩ := hleaf.eq_node_of_isBucket hbucket
    refine h.concat hleaf (iff_of_false NodeKind.noConfusion hpath) fun u hu hl => ?_
    exact ⟨(h.grown u (List.mem_of_getLast? hu)).isBucket_of_label_eq hl, hbucket⟩
  | cons e path ih =>
    obtain ⟨he, hbelow, hrest⟩ := hpath
    have hnew : Grown P (.node e.label e.kind (ExecutionTree.insertPath leaf path [])) :=
      (ih hrest forest_nil).grown_step he (insertPath_ne_nil leaf path [])
    rcases ts.eq_nil_or_concat with rfl | ⟨ts, t, rfl⟩
    · exact forest_nil.concat hnew hbelow fun u hu => nomatch hu
    · rw [List.concat_eq_append] at h ⊢
      rw [insertPath_cons_concat]
      split
      · -- the last sibling is shared, and is of the kind of the step
        rename_i hl
        obtain ⟨hts, ht, -, hlast⟩ := h.of_concat
        obtain ⟨us, rfl, hus, -⟩ := ht.of_label_eq hl
        refine hts.concat ((ih hrest hus).grown_step he (insertPath_ne_nil leaf path us)) hbelow ?_
        intro u hu hul
        obtain ⟨-, hbucket⟩ := hlast u hu hul
        rw [isBucket_step] at hbucket
        cases hbucket
      · -- the step begins a sibling of its own
        rename_i hl
        rw [List.append_cons]
        refine h.concat hnew hbelow fun u hu hul => ?_
        rw [List.getLast?_concat] at hu
        cases hu
        exact absurd hul hl

/-! ### Branches -/

mutual

/-- The labels and kinds of the nodes on the ways from the root to the leaves, from left to right. -/
def branches : ExecutionTree → List (List (String × NodeKind))
  | .node label kind [] => [[(label, kind)]]
  | .node label kind (t :: ts) => (branchesBelow (t :: ts)).map ((label, kind) :: ·)

/-- The branches of a list of trees. -/
def branchesBelow : List ExecutionTree → List (List (String × NodeKind))
  | [] => []
  | t :: ts => t.branches ++ branchesBelow ts

end

/-- A path with its leaf, as a branch. -/
def branchOf (path : List PathElement) (leaf : ExecutionTree) : List (String × NodeKind) :=
  path.map (fun e => (e.label, e.kind)) ++ [(leaf.label, leaf.kind)]

theorem branches_of_ne_nil {label : String} {kind : NodeKind} (h : ts ≠ []) :
    (node label kind ts).branches = (branchesBelow ts).map ((label, kind) :: ·) := by
  cases ts with
  | nil => exact absurd rfl h
  | cons t ts => rw [branches]

theorem branchesBelow_append (ts us : List ExecutionTree) :
    branchesBelow (ts ++ us) = branchesBelow ts ++ branchesBelow us := by
  induction ts with
  | nil => rfl
  | cons t ts ih => rw [List.cons_append, branchesBelow, branchesBelow, ih, List.append_assoc]

theorem branchesBelow_singleton (t : ExecutionTree) : branchesBelow [t] = t.branches := by
  rw [branchesBelow, branchesBelow, List.append_nil]

theorem Grown.branches_of_isBucket (h : Grown P t) (hb : t.isBucket = true) :
    t.branches = [branchOf [] t] := by
  obtain ⟨k, values, rfl⟩ := h.eq_node_of_isBucket hb
  rw [branches]
  rfl

/-- An inserted path is one more branch, to the right of all others. -/
theorem branchesBelow_insertPath (hleaf : Grown P leaf) (hbucket : leaf.isBucket = true)
    (h : Forest P below ts) :
    branchesBelow (ExecutionTree.insertPath leaf path ts) = branchesBelow ts ++ [branchOf path leaf] := by
  induction path generalizing below ts with
  | nil =>
    rw [ExecutionTree.insertPath, branchesBelow_append, branchesBelow_singleton, hleaf.branches_of_isBucket hbucket]
  | cons e path ih =>
    -- below a node of the step, the branches go on with what is left of the path
    have hnode : ∀ us, Forest P (e.kind = .loop) us →
        (node e.label e.kind (ExecutionTree.insertPath leaf path us)).branches =
          (branchesBelow us).map ((e.label, e.kind) :: ·) ++ [branchOf (e :: path) leaf] := by
      intro us hus
      rw [branches_of_ne_nil (insertPath_ne_nil leaf path us), ih hus, List.map_append]
      rfl
    rcases ts.eq_nil_or_concat with rfl | ⟨ts, t, rfl⟩
    · rw [insertPath_cons_nil, branchesBelow_singleton, hnode [] forest_nil]
      rfl
    · rw [List.concat_eq_append] at h ⊢
      rw [insertPath_cons_concat]
      split
      · rename_i hl
        obtain ⟨-, ht, -, -⟩ := h.of_concat
        obtain ⟨us, rfl, hus, hne⟩ := ht.of_label_eq hl
        rw [branchesBelow_append, branchesBelow_append, branchesBelow_singleton, branchesBelow_singleton,
          branches_of_ne_nil hne, List.append_assoc]
        exact congrArg _ (hnode us hus)
      · rw [List.append_cons, branchesBelow_append, branchesBelow_singleton, hnode [] forest_nil]
        rfl

/-! ### All positions -/

/-- The path and the leaf of each position, labelled one after the other. -/
def labelled (mode : ContextMode) (keepNull : Bool) (s : LabelState) :
    List OrderedPosition → List (List PathElement × ExecutionTree)
  | [] => []
  | p :: rest =>
    let (path, s) := s.path p.context mode
    let (leaf, s) := s.bucket p.solutions keepNull
    (path, leaf) :: labelled mode keepNull s rest

variable {mode : ContextMode} {keepNull : Bool} {s : LabelState} {positions : List OrderedPosition}

theorem insertPositions_eq (ts : List ExecutionTree) :
    (insertPositions mode keepNull ts s positions).1 =
      (labelled mode keepNull s positions).foldl (fun ts p => ExecutionTree.insertPath p.2 p.1 ts) ts := by
  induction positions generalizing s ts with
  | nil => rfl
  | cons p rest ih => exact ih _

/-- The path belongs to functions with `P` and starts with a call, and a bucket stands at its end. -/
structure IsLabelled (P : String → Prop) (p : List PathElement × ExecutionTree) : Prop where
  /-- The path can stand at the top. -/
  path : IsPath P False p.1
  /-- The leaf was built. -/
  leaf : Grown P p.2
  /-- The leaf is a bucket. -/
  isBucket : p.2.isBucket = true

theorem isLabelled_labelled (h : ∀ p ∈ positions, ∀ f ∈ p.context, P f.callee) :
    ∀ p ∈ labelled mode keepNull s positions, IsLabelled P p := by
  induction positions generalizing s with
  | nil => exact fun p hp => absurd hp List.not_mem_nil
  | cons p rest ih =>
    obtain ⟨hp, hrest⟩ := List.forall_mem_cons.mp h
    rw [labelled]
    exact List.forall_mem_cons.mpr ⟨⟨LabelState.isPath_path hp, .bucket _ _, rfl⟩, ih hrest⟩

/-- Inserting paths one after the other gives a forest, whose branches are these paths. -/
theorem Forest.foldl_insertPath {l : List (List PathElement × ExecutionTree)} (hl : ∀ p ∈ l, IsLabelled P p)
    (h : Forest P False ts) :
    Forest P False (l.foldl (fun ts p => ExecutionTree.insertPath p.2 p.1 ts) ts) ∧
      branchesBelow (l.foldl (fun ts p => ExecutionTree.insertPath p.2 p.1 ts) ts) =
        branchesBelow ts ++ l.map fun p => branchOf p.1 p.2 := by
  induction l generalizing ts with
  | nil => exact ⟨h, (List.append_nil _).symm⟩
  | cons p l ih =>
    obtain ⟨hp, hl⟩ := List.forall_mem_cons.mp hl
    obtain ⟨hforest, hbranches⟩ := ih hl (h.insertPath hp.leaf hp.isBucket hp.path)
    refine ⟨hforest, ?_⟩
    rw [List.foldl_cons, hbranches, branchesBelow_insertPath hp.leaf hp.isBucket h, List.append_assoc]
    rfl

/-- The trees of all positions are a forest, whose branches are the paths of the positions. -/
theorem forest_insertPositions (h : ∀ p ∈ positions, ∀ f ∈ p.context, P f.callee) :
    Forest P False (insertPositions mode keepNull [] s positions).1 ∧
      branchesBelow (insertPositions mode keepNull [] s positions).1 =
        (labelled mode keepNull s positions).map fun p => branchOf p.1 p.2 := by
  rw [insertPositions_eq]
  exact forest_nil.foldl_insertPath (isLabelled_labelled h)

/-- The tree of an ordered trace is built of functions with `P`. -/
theorem build_grown {t : OrderedTrace} {root : ExecutionTree} (ht : ∀ p ∈ t.positions, ∀ f ∈ p.context, P f.callee)
    (h : (build t s mode keepNull).1 = some root) : Grown P root ∧ root.kind ≠ .iteration := by
  have hforest : Forest P False (insertPositions mode keepNull [] s t.positions).1 := (forest_insertPositions ht).1
  have hmem := List.mem_of_mem_head? h
  exact ⟨hforest.grown root hmem, fun hk => (hforest.kinds root hmem).mp hk⟩

/-- The tree of an ordered trace of observed functions is well formed. -/
theorem build_wellFormed {t : OrderedTrace} {s : LabelState} {mode : ContextMode} {keepNull : Bool}
    {root : ExecutionTree} (ht : ∀ p ∈ t.positions, p.context.IsObserved)
    (h : (build t s mode keepNull).1 = some root) : root.WellFormed ∧ root.kind ≠ .iteration := by
  obtain ⟨hgrown, hkind⟩ := build_grown ht h
  exact ⟨hgrown.wellFormed, hkind⟩

end ExecutionTree

end GrammarInference
