/-
GrammarInference/Proofs/Drawing/ParseTree.lean

Which nodes of a table are drawn, and how often.

Design.  Drawing the tree at an address is a loop over a stack: a node that was seen is dropped, any other one is drawn
and its children are put on the stack.  `Walk` is this loop without a bound: it lists the nodes in the order in which
they are drawn.  A visit adds the children of a node that was not seen, so the references of the nodes that are not
seen yet pay for everything that is put on the stack.  Hence every walk ends, in a table with cycles as well, and the
bound of the drawing is large enough.  The nodes that are drawn are those that can be reached: a walk finds nothing
else, and when it ends, every reference from a node that was drawn leads to one that was.
-/
import GrammarInference.Proofs.Drawing.Label
import Mathlib.Algebra.BigOperators.Group.Finset.Basic
import Mathlib.Logic.Relation

namespace GrammarInference

namespace Dot

variable {a : Arena} {config : DotConfig} {seen stack order : List NodeId} {id root : NodeId}

/-- `Walk a seen stack order`: from the stack on, with the nodes in `seen` drawn already, those in `order` are drawn. -/
inductive Walk (a : Arena) : List NodeId → List NodeId → List NodeId → Prop
  | done (seen : List NodeId) : Walk a seen [] []
  | skip {seen stack order : List NodeId} {id : NodeId} : id ∈ seen → Walk a seen stack order →
      Walk a seen (id :: stack) order
  | visit {seen stack order : List NodeId} {id : NodeId} : id ∉ seen →
      Walk a (id :: seen) ((a.children id).reverse ++ stack) order → Walk a seen (id :: stack) (id :: order)

/-- One reference leads from the node to the other one. -/
def Refers (a : Arena) (id c : NodeId) : Prop := c ∈ a.children id

/-- The node can be reached from the root. -/
def Reaches (a : Arena) (root id : NodeId) : Prop := Relation.ReflTransGen (Refers a) root id

namespace Walk

/-! ### What is drawn -/

/-- Nothing is drawn that was seen. -/
theorem not_mem_seen (w : Walk a seen stack order) : ∀ id ∈ order, id ∉ seen := by
  induction w with
  | done seen => exact fun id hid => absurd hid List.not_mem_nil
  | skip _ _ ih => exact ih
  | visit hnew _ ih =>
    exact List.forall_mem_cons.mpr ⟨hnew, fun id hid hseen => ih id hid (List.mem_cons_of_mem _ hseen)⟩

/-- Nothing is drawn twice. -/
theorem nodup (w : Walk a seen stack order) : order.Nodup := by
  induction w with
  | done seen => exact List.nodup_nil
  | skip _ _ ih => exact ih
  | visit _ w ih => exact List.nodup_cons.mpr ⟨fun hid => w.not_mem_seen _ hid List.mem_cons_self, ih⟩

/-- What is drawn can be reached from the stack. -/
theorem exists_reaches (w : Walk a seen stack order) : ∀ id ∈ order, ∃ s ∈ stack, Reaches a s id := by
  induction w with
  | done seen => exact fun id hid => absurd hid List.not_mem_nil
  | skip _ _ ih =>
    intro id hid
    obtain ⟨s, hs, hreaches⟩ := ih id hid
    exact ⟨s, List.mem_cons_of_mem _ hs, hreaches⟩
  | @visit seen stack order top _ _ ih =>
    refine List.forall_mem_cons.mpr ⟨⟨top, List.mem_cons_self, .refl⟩, fun id hid => ?_⟩
    obtain ⟨s, hs, hreaches⟩ := ih id hid
    rcases List.mem_append.mp hs with hs | hs
    · exact ⟨top, List.mem_cons_self, .head (List.mem_reverse.mp hs) hreaches⟩
    · exact ⟨s, List.mem_cons_of_mem _ hs, hreaches⟩

/-- The rest of a walk counts the node of a visit as seen; the walk draws it. -/
theorem mem_or_mem_cons {c : NodeId} (h : c ∈ id :: seen ∨ c ∈ order) : c ∈ seen ∨ c ∈ id :: order := by
  rcases h with hseen | horder
  · rcases List.mem_cons.mp hseen with rfl | hseen
    · exact .inr List.mem_cons_self
    · exact .inl hseen
  · exact .inr (List.mem_cons_of_mem id horder)

/-- What is on the stack was seen or is drawn. -/
theorem mem_of_mem_stack (w : Walk a seen stack order) : ∀ id ∈ stack, id ∈ seen ∨ id ∈ order := by
  induction w with
  | done seen => exact fun id hid => absurd hid List.not_mem_nil
  | skip hseen _ ih => exact List.forall_mem_cons.mpr ⟨.inl hseen, ih⟩
  | visit _ _ ih =>
    refine List.forall_mem_cons.mpr ⟨.inr List.mem_cons_self, fun id hid => ?_⟩
    exact mem_or_mem_cons (ih id (List.mem_append_right _ hid))

/-- A reference from a node that is drawn leads to one that was seen or is drawn. -/
theorem mem_of_refers (w : Walk a seen stack order) : ∀ id ∈ order, ∀ c, Refers a id c → c ∈ seen ∨ c ∈ order := by
  induction w with
  | done seen => exact fun id hid => absurd hid List.not_mem_nil
  | skip _ _ ih => exact ih
  | visit _ w ih =>
    refine List.forall_mem_cons.mpr ⟨fun c hc => ?_, fun id hid c hc => mem_or_mem_cons (ih id hid c hc)⟩
    -- the children of the node that is visited are on the stack of the rest
    exact mem_or_mem_cons (w.mem_of_mem_stack c (List.mem_append_left _ (List.mem_reverse.mpr hc)))

/-- From one node on, exactly the nodes that can be reached are drawn. -/
theorem mem_iff (w : Walk a [] [root] order) : id ∈ order ↔ Reaches a root id := by
  constructor
  · intro hid
    obtain ⟨s, hs, hreaches⟩ := w.exists_reaches id hid
    rwa [List.mem_singleton.mp hs] at hreaches
  · intro h
    induction h with
    | refl => exact (w.mem_of_mem_stack root List.mem_cons_self).resolve_left List.not_mem_nil
    | tail _ hc ih => exact (w.mem_of_refers _ ih _ hc).resolve_left List.not_mem_nil

end Walk

/-! ### The bound -/

/-- The number of references from nodes that were not seen. -/
def unseenReferences (a : Arena) (seen : List NodeId) : Nat :=
  ∑ i ∈ (Finset.range a.size).filter fun i => (⟨i⟩ : NodeId) ∉ seen, (a.children ⟨i⟩).length

/-- A visit takes the references of one node. -/
theorem unseenReferences_cons (h : id ∉ seen) :
    unseenReferences a (id :: seen) + (a.children id).length = unseenReferences a seen := by
  have herase : ((Finset.range a.size).filter fun i => (⟨i⟩ : NodeId) ∉ id :: seen) =
      ((Finset.range a.size).filter fun i => (⟨i⟩ : NodeId) ∉ seen).erase id.index := by
    ext i
    have hne : (⟨i⟩ : NodeId) = id ↔ i = id.index := by
      obtain ⟨k⟩ := id
      rw [NodeId.mk.injEq]
    simp only [Finset.mem_filter, Finset.mem_range, Finset.mem_erase, List.mem_cons, not_or, hne]
    tauto
  rw [unseenReferences, herase]
  by_cases hid : id.index < a.size
  · have hmem : id.index ∈ (Finset.range a.size).filter fun i => (⟨i⟩ : NodeId) ∉ seen :=
      Finset.mem_filter.mpr ⟨Finset.mem_range.mpr hid, h⟩
    exact Finset.sum_erase_add _ _ hmem
  · -- there is no node at the address, so it refers to nothing
    have hchildren : a.children id = [] := by
      rw [Arena.children, Arena.node?, Array.getElem?_eq_none (Nat.le_of_not_lt hid)]
      rfl
    have hnot : id.index ∉ (Finset.range a.size).filter fun i => (⟨i⟩ : NodeId) ∉ seen :=
      fun hmem => hid (Finset.mem_range.mp (Finset.mem_filter.mp hmem).1)
    rw [Finset.erase_eq_of_notMem hnot, hchildren]
    rfl

/-- At first, no reference was seen. -/
theorem unseenReferences_nil (a : Arena) : unseenReferences a [] = referenceCount a := by
  have hnodes : a.nodes.toList.map (fun n => n.children.length) =
      (List.range a.size).map fun i => (a.children ⟨i⟩).length := by
    refine List.ext_getElem (by simp [Arena.size]) fun i hi _ => ?_
    rw [List.length_map] at hi
    simp only [List.getElem_map, List.getElem_range, Arena.children, Arena.node?]
    rw [Array.getElem?_eq_getElem (by simpa using hi)]
    rfl
  rw [referenceCount, hnodes, unseenReferences, Finset.filter_true_of_mem fun i _ => List.not_mem_nil]
  rfl

/-- Every walk ends. -/
theorem exists_walk (a : Arena) (seen stack : List NodeId) : ∃ order, Walk a seen stack order := by
  induction hleft : stack.length + unseenReferences a seen using Nat.strong_induction_on generalizing seen stack with
  | h left ih =>
    cases stack with
    | nil => exact ⟨[], .done seen⟩
    | cons id stack =>
      by_cases hid : id ∈ seen
      · obtain ⟨order, w⟩ := ih _ (by rw [← hleft, List.length_cons]; omega) seen stack rfl
        exact ⟨order, .skip hid w⟩
      · have hpaid := unseenReferences_cons (a := a) hid
        obtain ⟨order, w⟩ := ih _ (by
          rw [← hleft, List.length_append, List.length_reverse, List.length_cons]
          omega) (id :: seen) ((a.children id).reverse ++ stack) rfl
        exact ⟨id :: order, .visit hid w⟩

/-! ### The statements -/

/-- The statements for a node: its own, and one for each reference from it, in order. -/
def statementsAt (config : DotConfig) (a : Arena) (id : NodeId) : List Line :=
  parseNode config id.index (a.symbol id) :: (a.children id).map fun c => .edge id.index c.index none

/-- With a bound for everything that is put on the stack, what is drawn is what the walk lists. -/
theorem Walk.parseLines_eq {bound : Nat} (w : Walk a seen stack order)
    (hbound : stack.length + unseenReferences a seen ≤ bound) :
    parseLines config a bound seen stack = order.flatMap (statementsAt config a) := by
  induction w generalizing bound with
  | done seen => cases bound <;> rfl
  | skip hid _ ih =>
    rw [List.length_cons] at hbound
    obtain ⟨bound, rfl⟩ : ∃ k, bound = k + 1 := ⟨bound - 1, by omega⟩
    rw [parseLines, if_pos (List.contains_iff_mem.mpr hid)]
    exact ih (by omega)
  | @visit seen stack order id hid _ ih =>
    have hpaid := unseenReferences_cons (a := a) hid
    rw [List.length_cons] at hbound
    obtain ⟨bound, rfl⟩ : ∃ k, bound = k + 1 := ⟨bound - 1, by omega⟩
    rw [parseLines, if_neg (fun hmem => hid (List.contains_iff_mem.mp hmem)), List.flatMap_cons, statementsAt]
    have hrest : ((a.children id).reverse ++ stack).length + unseenReferences a (id :: seen) ≤ bound := by
      rw [List.length_append, List.length_reverse]
      omega
    simp only [ih hrest]

/-- The drawing of a tree consists of the statements for the nodes of the walk from its root. -/
theorem Walk.ofParseTree_eq (w : Walk a [] [root] order) (config : DotConfig) :
    ofParseTree config a root = render config (order.flatMap (statementsAt config a)) := by
  have hbound : [root].length + unseenReferences a [] ≤ referenceCount a + 1 := by
    rw [unseenReferences_nil, List.length_singleton, Nat.add_comm]
  rw [ofParseTree, w.parseLines_eq hbound]

theorem fits_parseNode (config : DotConfig) (n : Nat) (x : Symbol) : (parseNode config n x).Fits config := by
  cases x with
  | nonterminal name => exact .inner n (quotable_escape name)
  | terminal text => exact .terminal n (quotable_escape (quoted text))

theorem fits_of_mem_statementsAt {line : Line} (h : line ∈ statementsAt config a id) : line.Fits config := by
  rcases List.mem_cons.mp h with rfl | h
  · exact fits_parseNode config id.index (a.symbol id)
  · obtain ⟨c, -, rfl⟩ := List.mem_map.mp h
    exact .edge id.index c.index

/-- In a table whose references lead to nodes, everything that can be reached is a node. -/
theorem Reaches.index_lt (h : Reaches a root id) (hroot : root.index < a.size)
    (ha : ∀ id c, Refers a id c → c.index < a.size) : id.index < a.size := by
  cases h with
  | refl => exact hroot
  | tail _ hc => exact ha _ _ hc

end Dot

end GrammarInference
