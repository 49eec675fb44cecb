/-
GrammarInference/Proofs/Drawing/Faithful.lean

Drawings show trees as they are.

Design.  What a drawing shows is said of its list of statements, and the text is read back to that list
(`Reads`).  In an execution tree, the number of a node is where its place stands in the list of places, so the
statements for edges can be given for the places, whatever the order in which they are written.
-/
import GrammarInference.Proofs.Drawing.ExecutionTree
import GrammarInference.Proofs.Drawing.ParseTree

namespace GrammarInference

namespace Dot

/-- The edge to a place leads from the number of the place above to its own, and has a style if it leads to a loop or an
iteration. -/
theorem edgeTo_eq (config : DotConfig) {t : ExecutionTree} {place : List Nat} (h : place ∈ t.places) :
    edgeTo config 0 t place = .edge (t.places.idxOf place.dropLast) (t.places.idxOf place)
      ((t.subtreeAt? place).bind fun u =>
        if u.kind = .loop ∨ u.kind = .iteration then some config.loopEdgeStyle else none) := by
  have hplace := ExecutionTree.mem_places_iff.mp h
  have habove := ExecutionTree.isSome_subtreeAt?_dropLast hplace
  simp only [edgeTo, Nat.zero_add, ExecutionTree.idxOf_places hplace, ExecutionTree.idxOf_places habove, edgeStyle_eq]

/-- **Drawings are faithful and can be read.**  An execution tree is drawn with one statement for each node, in order
and numbered from zero, and with one statement for each place but the root, the edge from the node above it; the edge
has a style exactly if it leads to a loop or an iteration.  The places are those of the nodes, each one once, and they
stand in the order of the nodes.  A parse tree is drawn by a walk that ends, in every table and from every address: each
node that can be reached from there is drawn once, together with one edge for each of its references to children.  All
labels can stand between quotes, whatever strings are in them: there is no quote that is not escaped, no backslash that
escapes nothing and no control character; so a reader of the text finds exactly the labels, and every statement is a
row.  Different nodes have different names. -/
theorem drawings_faithful (config : DotConfig) :
    (∀ t : ExecutionTree, ∃ lines, Reads config (ofExecutionTree config t) lines ∧
      lines.filter Line.isNode = (t.preorder 0).zipIdx.map (fun ((_, label, kind), n) =>
        executionNode config n label kind) ∧
      (lines.filter Line.isEdge).Perm (t.places.tail.map fun place =>
        .edge (t.places.idxOf place.dropLast) (t.places.idxOf place) ((t.subtreeAt? place).bind fun u =>
          if u.kind = .loop ∨ u.kind = .iteration then some config.loopEdgeStyle else none)) ∧
      t.places.head? = some [] ∧ t.places.Nodup ∧ (∀ place, place ∈ t.places ↔ (t.subtreeAt? place).isSome) ∧
      t.preorder 0 = t.places.filterMap fun place =>
        (t.subtreeAt? place).map fun u => (place.length, u.label, u.kind)) ∧
    (∀ (a : Arena) (root : NodeId), ∃ order, Walk a [] [root] order ∧ order.Nodup ∧
      (∀ id, id ∈ order ↔ Reaches a root id) ∧
      Reads config (ofParseTree config a root) (order.flatMap fun id =>
        parseNode config id.index (a.symbol id) :: (a.children id).map fun c => .edge id.index c.index none) ∧
      (root.index < a.size → (∀ id c, Refers a id c → c.index < a.size) → ∀ id ∈ order, id.index < a.size)) ∧
    (∀ s : String, Quotable (escape s).toList) ∧ Function.Injective nodeName := by
  refine ⟨fun t => ?_, fun a root => ?_, quotable_escape, nodeName_injective⟩
  · refine ⟨executionLines config 0 t, reads_render fun _ => fits_of_mem_executionLines,
      filter_isNode_executionLines config 0 0 t, ?_, ?_, t.nodup_places, fun _ => ExecutionTree.mem_places_iff, ?_⟩
    · have hedges : t.places.tail.map (edgeTo config 0 t) = t.places.tail.map fun place =>
          .edge (t.places.idxOf place.dropLast) (t.places.idxOf place) ((t.subtreeAt? place).bind fun u =>
            if u.kind = .loop ∨ u.kind = .iteration then some config.loopEdgeStyle else none) :=
        List.map_congr_left fun place hplace => edgeTo_eq config (List.mem_of_mem_tail hplace)
      rw [← hedges]
      exact filter_isEdge_executionLines config 0 t
    · cases t
      rfl
    · have hentry : ExecutionTree.entryAt? 0 t = fun place =>
          (t.subtreeAt? place).map fun u => (place.length, u.label, u.kind) := by
        funext place
        rw [ExecutionTree.entryAt?, Nat.zero_add]
      rw [← hentry]
      exact ExecutionTree.preorder_eq 0 t
  · obtain ⟨order, w⟩ := exists_walk a [] [root]
    refine ⟨order, w, w.nodup, fun _ => w.mem_iff, ?_, fun hroot ha id hid => (w.mem_iff.mp hid).index_lt hroot ha⟩
    rw [w.ofParseTree_eq config]
    refine reads_render fun line hline => ?_
    obtain ⟨id, -, hid⟩ := List.mem_flatMap.mp hline
    exact fits_of_mem_statementsAt hid

/-- A child that is shared by two places of a node is drawn once and gets two edges. -/
example : parseLines {} ⟨#[⟨.nonterminal "<b>", []⟩, ⟨.nonterminal "<a>", [⟨0⟩, ⟨0⟩]⟩]⟩ 3 [] [⟨1⟩] =
    [.node 1 none "<a>", .edge 1 0 none, .edge 1 0 none, .node 0 none "<b>"] := by
  decide

end Dot

end GrammarInference
