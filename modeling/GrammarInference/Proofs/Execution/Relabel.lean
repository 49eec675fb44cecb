/-
GrammarInference/Proofs/Execution/Relabel.lean

Trees in two runs that give out names in different orders.

Design.  Two label states that have seen the same origins give them different names, and the `translation`
from the names of the one to those of the other tells them apart as well.  Insertion only compares labels, so
it gives the same tree up to the translation (`treeIn_translation`).
-/
import GrammarInference.Proofs.Execution.Faithful
import GrammarInference.Proofs.Execution.Origin
import Mathlib.Data.Set.Function

namespace GrammarInference

namespace ExecutionTree

variable {f : String → String} {K : Set String} {t u leaf : ExecutionTree} {ts : List ExecutionTree}

/-! ### Other labels -/

mutual

/-- Applies a function to all labels. -/
def relabel (f : String → String) : ExecutionTree → ExecutionTree
  | .node l k ts => .node (f l) k (relabelAll f ts)

/-- Applies a function to all labels of all trees. -/
def relabelAll (f : String → String) : List ExecutionTree → List ExecutionTree
  | [] => []
  | t :: ts => t.relabel f :: relabelAll f ts

end

theorem relabelAll_eq_map (f : String → String) (ts : List ExecutionTree) : relabelAll f ts = ts.map (relabel f) := by
  induction ts with
  | nil => rw [relabelAll, List.map_nil]
  | cons t ts ih => rw [relabelAll, ih, List.map_cons]

theorem relabel_node (f : String → String) (l : String) (k : NodeKind) (ts : List ExecutionTree) :
    (node l k ts).relabel f = node (f l) k (ts.map (relabel f)) := by
  rw [relabel, relabelAll_eq_map]

theorem label_relabel (f : String → String) (t : ExecutionTree) : (t.relabel f).label = f t.label := by
  obtain ⟨l, k, ts⟩ := t
  rw [relabel_node]
  rfl

theorem kind_relabel (f : String → String) (t : ExecutionTree) : (t.relabel f).kind = t.kind := by
  obtain ⟨l, k, ts⟩ := t
  rw [relabel_node]
  rfl

theorem children_relabel (f : String → String) (t : ExecutionTree) :
    (t.relabel f).children = t.children.map (relabel f) := by
  obtain ⟨l, k, ts⟩ := t
  rw [relabel_node]
  rfl

mutual

theorem size_relabel (f : String → String) : ∀ t : ExecutionTree, (t.relabel f).size = t.size
  | .node l k ts => by rw [relabel, size, size, sizeAll_relabelAll f ts]

theorem sizeAll_relabelAll (f : String → String) : ∀ ts, sizeAll (relabelAll f ts) = sizeAll ts
  | [] => by rw [relabelAll]
  | t :: ts => by rw [relabelAll, sizeAll, sizeAll, size_relabel f t, sizeAll_relabelAll f ts]

end

theorem breadthFirst_map_relabel (f : String → String) (bound : Nat) (queue : List ExecutionTree) :
    breadthFirst bound (queue.map (relabel f)) = (breadthFirst bound queue).map (relabel f) := by
  induction bound generalizing queue with
  | zero => rfl
  | succ bound ih =>
    cases queue with
    | nil => rfl
    | cons t queue =>
      rw [List.map_cons, breadthFirst, breadthFirst, children_relabel, ← List.map_append, ih, List.map_cons]

/-- The nodes are visited in the same order. -/
theorem levels_relabel (f : String → String) (t : ExecutionTree) : (t.relabel f).levels = t.levels.map (relabel f) := by
  rw [levels, levels, size_relabel]
  exact breadthFirst_map_relabel f t.size [t]

/-! ### Labels of a set -/

/-- All labels belong to the set. -/
def LabelsIn (K : Set String) (t : ExecutionTree) : Prop := ∀ u : ExecutionTree, u.IsWithin t → u.label ∈ K

theorem LabelsIn.label (h : LabelsIn K t) : t.label ∈ K := h t (.refl t)

theorem LabelsIn.of_isWithin (h : LabelsIn K t) (hu : u.IsWithin t) : LabelsIn K u := by
  induction hu with
  | refl => exact h
  | inside _ hc ih => exact ih fun v hv => h v (.inside hv hc)

theorem labelsIn_node_iff {l : String} {k : NodeKind} :
    LabelsIn K (node l k ts) ↔ l ∈ K ∧ ∀ t ∈ ts, LabelsIn K t := by
  constructor
  · exact fun h => ⟨h.label, fun t ht u hu => h u (.inside hu ht)⟩
  · rintro ⟨hl, hts⟩ u hu
    cases hu with
    | refl => exact hl
    | inside hu hc => exact hts _ hc u hu

theorem LabelsIn.children (h : LabelsIn K t) : ∀ c ∈ t.children, LabelsIn K c :=
  fun _ hc u hu => h u (.inside hu hc)

theorem LabelsIn.insertPath {path : List PathElement} (hleaf : LabelsIn K leaf) (hpath : ∀ e ∈ path, e.label ∈ K)
    (hts : ∀ t ∈ ts, LabelsIn K t) : ∀ t ∈ ExecutionTree.insertPath leaf path ts, LabelsIn K t := by
  induction path generalizing ts with
  | nil => exact List.forall_mem_append.mpr ⟨hts, List.forall_mem_singleton.mpr hleaf⟩
  | cons e path ih =>
    obtain ⟨he, hpath⟩ := List.forall_mem_cons.mp hpath
    have hnew : LabelsIn K (node e.label e.kind (ExecutionTree.insertPath leaf path [])) :=
      labelsIn_node_iff.mpr ⟨he, ih hpath fun t ht => absurd ht List.not_mem_nil⟩
    rcases ts.eq_nil_or_concat with rfl | ⟨ts, t, rfl⟩
    · exact List.forall_mem_singleton.mpr hnew
    · rw [List.concat_eq_append] at hts ⊢
      rw [insertPath_cons_concat]
      obtain ⟨hts, ht⟩ := List.forall_mem_append.mp hts
      have ht := List.forall_mem_singleton.mp ht
      split
      · refine List.forall_mem_append.mpr ⟨hts, List.forall_mem_singleton.mpr ?_⟩
        exact labelsIn_node_iff.mpr ⟨ht.label, ih hpath ht.children⟩
      · exact List.forall_mem_append.mpr ⟨hts, List.forall_mem_cons.mpr ⟨ht, List.forall_mem_singleton.mpr hnew⟩⟩

end ExecutionTree

/-! ### Translation -/

variable {s s' : LabelState}

theorem Step.kind_element (s s' : LabelState) (o : Step) : (o.element s).kind = (o.element s').kind := by
  cases o <;> rfl

/-- The names of what both states have seen. -/
def LabelState.commonNames (s s' : LabelState) : Set String :=
  {n | ∃ q : Origin, q.SeenIn s ∧ q.SeenIn s' ∧ q.name s = n}

/-- Goes from the name that the first state gives to the name that the second one gives. -/
noncomputable def LabelState.translation (s s' : LabelState) : String → String :=
  Function.extend (fun q : { q : Origin // q.SeenIn s ∧ q.SeenIn s' } => q.1.name s) (fun q => q.1.name s') id

open LabelState

theorem Origin.translation_name {q : Origin} (hq : q.SeenIn s) (hq' : q.SeenIn s') :
    translation s s' (q.name s) = q.name s' := by
  have hinj : Function.Injective fun q : { q : Origin // q.SeenIn s ∧ q.SeenIn s' } => q.1.name s :=
    fun q r h => Subtype.ext (name_inj q.2.1 r.2.1 h)
  exact hinj.extend_apply _ id ⟨q, hq, hq'⟩

theorem Origin.name_mem_commonNames {q : Origin} (hq : q.SeenIn s) (hq' : q.SeenIn s') :
    q.name s ∈ commonNames s s' :=
  ⟨q, hq, hq', rfl⟩

/-- No two names get the same translation. -/
theorem LabelState.injOn_translation (s s' : LabelState) : Set.InjOn (translation s s') (commonNames s s') := by
  rintro - ⟨q, hq, hq', rfl⟩ - ⟨r, hr, hr', rfl⟩ h
  rw [q.translation_name hq hq', r.translation_name hr hr'] at h
  rw [Origin.name_inj hq' hr' h]

namespace ExecutionTree

variable {leaf : ExecutionTree} {ts : List ExecutionTree} {mode : ContextMode} {keepNull : Bool}

/-- Insertion commutes with the translation. -/
theorem insertPath_translation {os : List Step} (hos : ∀ o ∈ os, o.SeenIn s ∧ o.SeenIn s')
    (hts : ∀ t ∈ ts, LabelsIn (commonNames s s') t) :
    insertPath (leaf.relabel (translation s s')) (os.map (Step.element s')) (ts.map (relabel (translation s s'))) =
      (insertPath leaf (os.map (Step.element s)) ts).map (relabel (translation s s')) := by
  induction os generalizing ts with
  | nil =>
    rw [List.map_nil, List.map_nil, insertPath, insertPath, List.map_append]
    rfl
  | cons o os ih =>
    obtain ⟨⟨ho, ho'⟩, hos⟩ := List.forall_mem_cons.mp hos
    have hlabel : translation s s' (o.element s).label = (o.element s').label :=
      Origin.translation_name (q := .step o) ho ho'
    have hmem : (o.element s).label ∈ commonNames s s' := Origin.name_mem_commonNames (q := .step o) ho ho'
    -- below a node of the step, what is left of the path is inserted
    have hnode : ∀ us, (∀ t ∈ us, LabelsIn (commonNames s s') t) →
        node (o.element s').label (o.element s').kind
            (insertPath (leaf.relabel (translation s s')) (os.map (Step.element s'))
              (us.map (relabel (translation s s')))) =
          (node (o.element s).label (o.element s).kind (insertPath leaf (os.map (Step.element s)) us)).relabel
            (translation s s') := by
      intro us hus
      rw [ih hos hus, relabel_node, hlabel, o.kind_element s s']
    have hnil := hnode [] fun t ht => absurd ht List.not_mem_nil
    rw [List.map_nil] at hnil
    rcases ts.eq_nil_or_concat with rfl | ⟨ts, t, rfl⟩
    · rw [List.map_cons, List.map_nil, List.map_cons, insertPath_cons_nil, insertPath_cons_nil, hnil]
      rfl
    · rw [List.concat_eq_append] at hts ⊢
      obtain ⟨-, ht⟩ := List.forall_mem_append.mp hts
      have ht := List.forall_mem_singleton.mp ht
      rw [List.map_append, List.map_singleton, List.map_cons, List.map_cons, insertPath_cons_concat,
        insertPath_cons_concat, label_relabel, kind_relabel, children_relabel, ← hlabel]
      by_cases hl : t.label = (o.element s).label
      · rw [if_pos (congrArg _ hl), if_pos hl, List.map_append, List.map_singleton, relabel_node,
          ih hos ht.children]
      · rw [if_neg fun h => hl (injOn_translation s s' ht.label hmem h), if_neg hl, List.map_append, hlabel, hnil]
        rfl

theorem shownIn_translation {p : OrderedPosition} (hp : SeenIn s mode keepNull p) (hp' : SeenIn s' mode keepNull p) :
    (shownIn s mode keepNull p).2.relabel (translation s s') = (shownIn s' mode keepNull p).2 := by
  rw [shownIn, shownIn, relabel_node, Origin.translation_name (q := .bucket _) hp.values hp'.values]
  rfl

/-- The trees of some positions, in both states. -/
theorem foldl_insertPath_translation {positions : List OrderedPosition}
    (h : ∀ p ∈ positions, SeenIn s mode keepNull p ∧ SeenIn s' mode keepNull p)
    (hts : ∀ t ∈ ts, LabelsIn (commonNames s s') t) :
    (positions.map (shownIn s' mode keepNull)).foldl (fun ts p => insertPath p.2 p.1 ts)
        (ts.map (relabel (translation s s'))) =
      ((positions.map (shownIn s mode keepNull)).foldl (fun ts p => insertPath p.2 p.1 ts) ts).map
        (relabel (translation s s')) ∧
    ∀ t ∈ (positions.map (shownIn s mode keepNull)).foldl (fun ts p => insertPath p.2 p.1 ts) ts,
      LabelsIn (commonNames s s') t := by
  induction positions generalizing ts with
  | nil => exact ⟨rfl, hts⟩
  | cons p rest ih =>
    obtain ⟨⟨hp, hp'⟩, hrest⟩ := List.forall_mem_cons.mp h
    have hos : ∀ o ∈ Step.ofCalls mode [] p.context, o.SeenIn s ∧ o.SeenIn s' :=
      fun o ho => ⟨hp.steps o ho, hp'.steps o ho⟩
    rw [List.map_cons, List.map_cons, List.foldl_cons, List.foldl_cons, ← shownIn_translation hp hp']
    have hstep : insertPath ((shownIn s mode keepNull p).2.relabel (translation s s')) (shownIn s' mode keepNull p).1
        (ts.map (relabel (translation s s'))) = _ := insertPath_translation hos hts
    rw [hstep]
    refine ih hrest (LabelsIn.insertPath ?_ ?_ hts)
    · refine labelsIn_node_iff.mpr ⟨?_, fun t ht => absurd ht List.not_mem_nil⟩
      exact Origin.name_mem_commonNames (q := .bucket _) hp.values hp'.values
    · intro e he
      obtain ⟨o, ho, rfl⟩ := List.mem_map.mp he
      exact Origin.name_mem_commonNames (q := .step o) (hos o ho).1 (hos o ho).2

/-- The trees of a trace in both states are the same up to the translation. -/
theorem treeIn_translation {t : OrderedTrace}
    (h : ∀ p ∈ t.positions, SeenIn s mode keepNull p ∧ SeenIn s' mode keepNull p) :
    treeIn s' mode keepNull t = (treeIn s mode keepNull t).map (relabel (translation s s')) ∧
      ∀ root ∈ treeIn s mode keepNull t, LabelsIn (commonNames s s') root := by
  have hnone : ∀ t ∈ ([] : List ExecutionTree), LabelsIn (commonNames s s') t :=
    fun t ht => absurd ht List.not_mem_nil
  obtain ⟨htrees, hlabels⟩ := foldl_insertPath_translation h hnone
  rw [List.map_nil] at htrees
  refine ⟨?_, fun root hroot => hlabels root (List.mem_of_mem_head? hroot)⟩
  rw [treeIn, htrees, List.head?_map]
  rfl

end ExecutionTree

end GrammarInference
