/-
GrammarInference/Proofs/Drawing/ExecutionTree.lean

Which nodes and edges of an execution tree are drawn.

Design.  A node of a tree is named by its place, the numbers of the children that lead to it from the root.  The places
are listed with each node before those below it, and the number of a node in a drawing is where its place stands in
this list (`number`).  The statements for the trees below a node are those for the first of them, its edge, and those
for the others; so what is said of them speaks of the whole node with the trees that were drawn already in front, and
the induction moves one tree at a time to the front.
-/
import GrammarInference.Proofs.Drawing.Label
import GrammarInference.Proofs.Execution.Tree
import Mathlib.Data.List.Nodup

namespace GrammarInference

namespace ExecutionTree

variable {t u c : ExecutionTree} {ts pre : List ExecutionTree} {label : String} {kind : NodeKind}
  {place place' : List Nat} {i m : Nat}

/-! ### Places -/

/-- The tree that is reached from the root by taking the children with the given numbers. -/
def subtreeAt? (t : ExecutionTree) : List Nat → Option ExecutionTree
  | [] => some t
  | i :: place => t.children[i]?.bind fun c => c.subtreeAt? place

mutual

/-- The places of the nodes, each before those below it. -/
def places : ExecutionTree → List (List Nat)
  | .node _ _ ts => [] :: placesBelow 0 ts

/-- The places in the children of a node, of which the first has the number `i`. -/
def placesBelow (i : Nat) : List ExecutionTree → List (List Nat)
  | [] => []
  | t :: ts => t.places.map (i :: ·) ++ placesBelow (i + 1) ts

end

/-- The number of nodes before the one at a place. -/
def number (t : ExecutionTree) : List Nat → Nat
  | [] => 0
  | i :: place => 1 + sizeAll (t.children.take i) + (t.children[i]?).elim 0 fun c => c.number place

theorem subtreeAt?_append (t : ExecutionTree) (place place' : List Nat) :
    t.subtreeAt? (place ++ place') = (t.subtreeAt? place).bind fun u => u.subtreeAt? place' := by
  induction place generalizing t with
  | nil => rfl
  | cons i place ih =>
    rw [List.cons_append, subtreeAt?, subtreeAt?]
    rcases t.children[i]? with - | c
    · rfl
    · exact ih c

/-- The node above a node. -/
theorem isSome_subtreeAt?_dropLast (h : (t.subtreeAt? place).isSome) : (t.subtreeAt? place.dropLast).isSome := by
  rcases List.eq_nil_or_concat place with rfl | ⟨front, i, hplace⟩
  · rfl
  · rw [List.concat_eq_append] at hplace
    subst hplace
    rw [List.dropLast_concat]
    rw [subtreeAt?_append] at h
    rcases hfront : t.subtreeAt? front with - | u
    · rw [hfront] at h
      exact h
    · rfl

/-- Behind other children, a place in a child is one in the node. -/
theorem subtreeAt?_child (pre ts : List ExecutionTree) (place : List Nat) :
    (node label kind (pre ++ c :: ts)).subtreeAt? (pre.length :: place) = c.subtreeAt? place := by
  rw [subtreeAt?, children, List.getElem?_append_right (Nat.le_refl _), Nat.sub_self]
  rfl

theorem number_child (pre ts : List ExecutionTree) (place : List Nat) :
    (node label kind (pre ++ c :: ts)).number (pre.length :: place) = 1 + sizeAll pre + c.number place := by
  rw [number, children, List.take_left, List.getElem?_append_right (Nat.le_refl _), Nat.sub_self]
  rfl

/-! ### The list of places -/

mutual

theorem length_places (t : ExecutionTree) : t.places.length = t.size := by
  match t with
  | .node _ _ ts => rw [places, size, List.length_cons, length_placesBelow 0 ts, Nat.add_comm]

theorem length_placesBelow (i : Nat) (ts : List ExecutionTree) : (placesBelow i ts).length = sizeAll ts := by
  match ts with
  | [] => rfl
  | t :: ts =>
    rw [placesBelow, sizeAll, List.length_append, List.length_map, length_places t, length_placesBelow (i + 1) ts]

end

theorem mem_placesBelow : place ∈ placesBelow m ts ↔ ∃ i c place', ts[i]? = some c ∧ place' ∈ c.places ∧
    place = (m + i) :: place' := by
  induction ts generalizing m with
  | nil => simp [placesBelow]
  | cons t ts ih =>
    rw [placesBelow, List.mem_append, List.mem_map, ih]
    constructor
    · rintro (⟨place', hplace', rfl⟩ | ⟨i, c, place', hi, hplace', rfl⟩)
      · exact ⟨0, t, place', rfl, hplace', rfl⟩
      · exact ⟨i + 1, c, place', hi, hplace', by rw [Nat.add_assoc, Nat.add_comm 1 i]⟩
    · rintro ⟨i, c, place', hi, hplace', rfl⟩
      cases i with
      | zero =>
        cases hi
        exact .inl ⟨place', hplace', rfl⟩
      | succ i => exact .inr ⟨i, c, place', hi, hplace', by rw [Nat.add_assoc, Nat.add_comm 1 i]⟩

/-- The list has exactly the places of nodes. -/
theorem mem_places_iff : place ∈ t.places ↔ (t.subtreeAt? place).isSome := by
  induction place generalizing t with
  | nil =>
    cases t
    simp [places, subtreeAt?]
  | cons i place ih =>
    obtain ⟨label, kind, ts⟩ := t
    rw [places, List.mem_cons, mem_placesBelow, subtreeAt?, children]
    constructor
    · rintro (hnil | ⟨j, c, place', hj, hplace', heq⟩)
      · cases hnil
      · rw [List.cons.injEq, Nat.zero_add] at heq
        obtain ⟨rfl, rfl⟩ := heq
        rw [hj]
        exact ih.mp hplace'
    · intro h
      rcases hi : ts[i]? with - | c
      · rw [hi] at h
        cases h
      · rw [hi] at h
        exact .inr ⟨i, c, place, hi, ih.mpr h, by rw [Nat.zero_add]⟩

mutual

/-- No place is listed twice. -/
theorem nodup_places (t : ExecutionTree) : t.places.Nodup := by
  match t with
  | .node _ _ ts =>
    rw [places, List.nodup_cons]
    refine ⟨fun hnil => ?_, nodup_placesBelow 0 ts⟩
    obtain ⟨i, c, place', -, -, heq⟩ := mem_placesBelow.mp hnil
    cases heq

theorem nodup_placesBelow (i : Nat) (ts : List ExecutionTree) : (placesBelow i ts).Nodup := by
  match ts with
  | [] => exact List.nodup_nil
  | t :: ts =>
    rw [placesBelow, List.nodup_append]
    refine ⟨(nodup_places t).map List.cons_injective, nodup_placesBelow (i + 1) ts, ?_⟩
    -- the places in different children begin with different numbers
    rintro place hplace place' hplace' rfl
    obtain ⟨p, -, rfl⟩ := List.mem_map.mp hplace
    obtain ⟨j, c, q, -, -, heq⟩ := mem_placesBelow.mp hplace'
    have := (List.cons.inj heq).1
    omega

end

theorem getElem?_placesBelow {j : Nat} (hi : ts[i]? = some c) (hj : j < c.size) :
    (placesBelow m ts)[sizeAll (ts.take i) + j]? = (c.places[j]?).map ((m + i) :: ·) := by
  induction ts generalizing m i with
  | nil => cases hi
  | cons t ts ih =>
    have hlength : (t.places.map (m :: ·)).length = t.size := by rw [List.length_map, length_places]
    cases i with
    | zero =>
      cases hi
      rw [placesBelow, List.take_zero, sizeAll, Nat.zero_add, List.getElem?_append_left (by omega), List.getElem?_map]
      rfl
    | succ i =>
      rw [placesBelow, List.take_succ_cons, sizeAll, List.getElem?_append_right (by omega), hlength,
        show t.size + sizeAll (ts.take i) + j - t.size = sizeAll (ts.take i) + j by omega, ih hi,
        show m + 1 + i = m + (i + 1) by omega]

theorem number_lt_size (h : t.subtreeAt? place = some u) : t.number place < t.size := by
  induction place generalizing t with
  | nil =>
    rw [size_eq]
    exact Nat.lt_add_right _ Nat.one_pos
  | cons i place ih =>
    rw [subtreeAt?, Option.bind_eq_some_iff] at h
    obtain ⟨c, hi, hc⟩ := h
    have hlt := ih hc
    obtain ⟨hlength, rfl⟩ := List.getElem?_eq_some_iff.mp hi
    have hsplit : sizeAll t.children =
        sizeAll (t.children.take i) + (t.children[i].size + sizeAll (t.children.drop (i + 1))) := by
      conv_lhs => rw [← List.take_append_drop i t.children, List.drop_eq_getElem_cons hlength]
      rw [sizeAll_append, sizeAll]
    rw [number, hi, size_eq, hsplit]
    show 1 + sizeAll (t.children.take i) + t.children[i].number place < _
    omega

/-- The number of nodes before a node is where its place stands. -/
theorem getElem?_places_number (h : t.subtreeAt? place = some u) : t.places[t.number place]? = some place := by
  induction place generalizing t with
  | nil =>
    cases t
    rw [places]
    rfl
  | cons i place ih =>
    obtain ⟨label, kind, ts⟩ := t
    rw [subtreeAt?, Option.bind_eq_some_iff] at h
    obtain ⟨c, hi, hc⟩ := h
    rw [children] at hi
    rw [places, number, children, hi, Nat.add_assoc, Nat.add_comm 1, List.getElem?_cons_succ]
    show (placesBelow 0 ts)[sizeAll (ts.take i) + c.number place]? = some (i :: place)
    rw [getElem?_placesBelow hi (number_lt_size hc), ih hc, Nat.zero_add]
    rfl

theorem idxOf_places (h : (t.subtreeAt? place).isSome) : t.places.idxOf place = t.number place := by
  obtain ⟨u, hu⟩ := Option.isSome_iff_exists.mp h
  obtain ⟨hlt, heq⟩ := List.getElem?_eq_some_iff.mp (getElem?_places_number hu)
  conv_lhs => rw [← heq]
  exact t.nodup_places.idxOf_getElem _ hlt

/-! ### The nodes in order -/

/-- The entry of a node in a list of nodes. -/
def entryAt? (depth : Nat) (t : ExecutionTree) (place : List Nat) : Option (Nat × String × NodeKind) :=
  (t.subtreeAt? place).map fun u => (depth + place.length, u.label, u.kind)

mutual

/-- The nodes in order are those at the places in order, as deep as the places are long. -/
theorem preorder_eq (depth : Nat) (t : ExecutionTree) :
    t.preorder depth = t.places.filterMap (entryAt? depth t) := by
  match t with
  | .node label kind ts =>
    have hroot : entryAt? depth (.node label kind ts) [] = some (depth, label, kind) := rfl
    rw [preorder, places, preorderAll_eq depth label kind [] ts, List.filterMap_cons_some hroot]
    rfl

theorem preorderAll_eq (depth : Nat) (label : String) (kind : NodeKind) (pre ts : List ExecutionTree) :
    preorderAll (depth + 1) ts =
      (placesBelow pre.length ts).filterMap (entryAt? depth (.node label kind (pre ++ ts))) := by
  match ts with
  | [] => rfl
  | c :: ts =>
    have hrest := preorderAll_eq depth label kind (pre ++ [c]) ts
    rw [List.append_assoc, List.singleton_append, List.length_append, List.length_singleton] at hrest
    rw [preorderAll, placesBelow, List.filterMap_append, hrest, preorder_eq (depth + 1) c, List.filterMap_map]
    congr 1
    refine List.filterMap_congr fun place _ => ?_
    rw [Function.comp_apply, entryAt?, entryAt?, subtreeAt?_child, List.length_cons, Nat.add_right_comm, Nat.add_assoc]

end

mutual

theorem length_preorder (depth : Nat) (t : ExecutionTree) : (t.preorder depth).length = t.size := by
  match t with
  | .node _ _ ts => rw [preorder, size, List.length_cons, length_preorderAll (depth + 1) ts, Nat.add_comm]

theorem length_preorderAll (depth : Nat) (ts : List ExecutionTree) : (preorderAll depth ts).length = sizeAll ts := by
  match ts with
  | [] => rfl
  | t :: ts =>
    rw [preorderAll, sizeAll, List.length_append, length_preorder depth t, length_preorderAll depth ts]

end

end ExecutionTree

namespace Dot

open ExecutionTree

variable {config : DotConfig}

/-! ### Nodes -/

theorem isNode_executionNode (config : DotConfig) (n : Nat) (label : String) (kind : NodeKind) :
    (executionNode config n label kind).isNode = true := by
  cases kind <;> rfl

/-- The statement for a node and its number. -/
def numberedNode (config : DotConfig) (e : (Nat × String × NodeKind) × Nat) : Line :=
  executionNode config e.2 e.1.2.1 e.1.2.2

mutual

/-- The nodes are drawn in order, with consecutive numbers. -/
theorem filter_isNode_executionLines (config : DotConfig) (next depth : Nat) (t : ExecutionTree) :
    (executionLines config next t).filter Line.isNode =
      ((t.preorder depth).zipIdx next).map (numberedNode config) := by
  match t with
  | .node label kind ts =>
    rw [executionLines, preorder, List.filter_cons_of_pos (isNode_executionNode config next label kind),
      filter_isNode_childLines config next (next + 1) (depth + 1) ts]
    rfl

theorem filter_isNode_childLines (config : DotConfig) (parent next depth : Nat) (ts : List ExecutionTree) :
    (childLines config parent next ts).filter Line.isNode =
      ((preorderAll depth ts).zipIdx next).map (numberedNode config) := by
  match ts with
  | [] => rfl
  | t :: ts =>
    have hedge : ¬ (Line.edge parent next (edgeStyle config t.kind)).isNode = true := Bool.false_ne_true
    rw [childLines, preorderAll, List.filter_append, List.filter_cons_of_neg hedge, List.zipIdx_append,
      List.map_append, length_preorder, filter_isNode_executionLines config next depth t,
      filter_isNode_childLines config parent (next + t.size) depth ts]

end

/-! ### Edges -/

/-- The edge to the node at a place of a tree whose root has the number `next`. -/
def edgeTo (config : DotConfig) (next : Nat) (t : ExecutionTree) (place : List Nat) : Line :=
  .edge (next + t.number place.dropLast) (next + t.number place)
    ((t.subtreeAt? place).bind fun u => edgeStyle config u.kind)

/-- In a child, an edge that does not lead to the child itself is an edge of the node. -/
theorem edgeTo_child {c : ExecutionTree} {label : String} {kind : NodeKind} (next : Nat) (pre ts : List ExecutionTree)
    {place : List Nat} (h : place ≠ []) :
    edgeTo config next (.node label kind (pre ++ c :: ts)) (pre.length :: place) =
      edgeTo config (next + 1 + sizeAll pre) c place := by
  rw [edgeTo, edgeTo, List.dropLast_cons_of_ne_nil h, number_child, number_child, subtreeAt?_child]
  congr 1 <;> omega

/-- The edge to a child. -/
theorem edgeTo_root {c : ExecutionTree} {label : String} {kind : NodeKind} (next : Nat) (pre ts : List ExecutionTree) :
    edgeTo config next (.node label kind (pre ++ c :: ts)) [pre.length] =
      .edge next (next + 1 + sizeAll pre) (edgeStyle config c.kind) := by
  rw [edgeTo, number_child, subtreeAt?_child]
  show Line.edge next (next + (1 + sizeAll pre)) (edgeStyle config c.kind) = _
  rw [Nat.add_assoc]

mutual

/-- For every place but the root, the edge to its node is drawn. -/
theorem filter_isEdge_executionLines (config : DotConfig) (next : Nat) (t : ExecutionTree) :
    ((executionLines config next t).filter Line.isEdge).Perm
      (t.places.tail.map (edgeTo config next t)) := by
  match t with
  | .node label kind ts =>
    have hnode : ¬ (executionNode config next label kind).isEdge = true := by
      rw [Line.isEdge, isNode_executionNode]
      exact Bool.false_ne_true
    rw [executionLines, List.filter_cons_of_neg hnode, places, List.tail_cons]
    exact filter_isEdge_childLines config next label kind [] ts

theorem filter_isEdge_childLines (config : DotConfig) (next : Nat) (label : String) (kind : NodeKind)
    (pre ts : List ExecutionTree) :
    ((childLines config next (next + 1 + sizeAll pre) ts).filter Line.isEdge).Perm
      ((placesBelow pre.length ts).map (edgeTo config next (.node label kind (pre ++ ts)))) := by
  match ts with
  | [] => exact .refl _
  | c :: ts =>
    -- the trees up to the first one are in front for the others
    have hrest := filter_isEdge_childLines config next label kind (pre ++ [c]) ts
    simp only [List.append_assoc, List.singleton_append, List.length_append, List.length_singleton, sizeAll_append,
      sizeAll, Nat.add_zero, ← Nat.add_assoc] at hrest
    have hfirst : (c.places.tail.map (pre.length :: ·)).map (edgeTo config next (.node label kind (pre ++ c :: ts))) =
        c.places.tail.map (edgeTo config (next + 1 + sizeAll pre) c) := by
      rw [List.map_map]
      refine List.map_congr_left fun place hplace => edgeTo_child next pre ts ?_
      rintro rfl
      obtain ⟨label', kind', us⟩ := c
      have hnodup := (node label' kind' us).nodup_places
      rw [places] at hnodup hplace
      exact (List.nodup_cons.mp hnodup).1 hplace
    have hplaces : c.places = [] :: c.places.tail := by
      cases c
      rfl
    have hedge : (Line.edge next (next + 1 + sizeAll pre) (edgeStyle config c.kind)).isEdge = true := rfl
    rw [childLines, List.filter_append, List.filter_cons_of_pos hedge, placesBelow, List.map_append, hplaces,
      List.map_cons, List.map_cons, edgeTo_root, hfirst]
    exact List.perm_middle.trans
      (((filter_isEdge_executionLines config (next + 1 + sizeAll pre) c).append hrest).cons _)

end

theorem edgeStyle_eq (config : DotConfig) (kind : NodeKind) :
    edgeStyle config kind = if kind = .loop ∨ kind = .iteration then some config.loopEdgeStyle else none := by
  cases kind <;> rfl

/-! ### Statements -/

theorem fits_executionNode (config : DotConfig) (n : Nat) (label : String) (kind : NodeKind) :
    (executionNode config n label kind).Fits config := by
  cases kind with
  | bucket values =>
    refine .terminal n ?_
    rw [String.toList_append, String.toList_append, String.toList_ofList]
    exact ((quotable_escape label).append (.escape (.inr (.inr rfl)) .nil)).append (quotable_escape _)
  | _ => exact .inner n (quotable_escape label)

theorem fits_edge (config : DotConfig) (m n : Nat) (kind : NodeKind) :
    (Line.edge m n (edgeStyle config kind)).Fits config := by
  cases kind with
  | loop => exact .styled m n
  | iteration => exact .styled m n
  | call => exact .edge m n
  | bucket values => exact .edge m n

mutual

theorem fits_of_mem_executionLines {config : DotConfig} {next : Nat} {t : ExecutionTree} {line : Line}
    (h : line ∈ executionLines config next t) : line.Fits config := by
  match t with
  | .node label kind ts =>
    rw [executionLines, List.mem_cons] at h
    rcases h with rfl | h
    · exact fits_executionNode config next label kind
    · exact fits_of_mem_childLines h

theorem fits_of_mem_childLines {config : DotConfig} {parent next : Nat} {ts : List ExecutionTree} {line : Line}
    (h : line ∈ childLines config parent next ts) : line.Fits config := by
  match ts with
  | [] => exact absurd h List.not_mem_nil
  | t :: ts =>
    rw [childLines, List.mem_append, List.mem_cons] at h
    rcases h with h | rfl | h
    · exact fits_of_mem_executionLines h
    · exact fits_edge config parent next t.kind
    · exact fits_of_mem_childLines h

end

end Dot

end GrammarInference
