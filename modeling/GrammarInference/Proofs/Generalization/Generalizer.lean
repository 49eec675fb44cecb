/-
GrammarInference/Proofs/Generalization/Generalizer.lean

Grammars without tokens are not generalized.

Design.  The entries are added to the result one by one, in their order.  As long as none of them is external,
the result is the part of the grammar that was seen.
-/
import GrammarInference.Generalization.Generalizer

namespace GrammarInference

namespace Generalizer

variable {g : Grammar} {alphabets : OrderedMap String (SortedSet Char)} {gen : Generalizer} {source : Generator}

/-- What is left of a grammar is added to what was seen, as long as there is no external name. -/
theorem generalizeEntries_of_not_external {rest : List (String × List Rule)} {out : Grammar}
    (hsplit : g.entries = out.entries ++ rest) (hrest : ∀ e ∈ rest, isExternal e.1 = false) :
    generalizeEntries g alphabets rest gen source out = .ok g := by
  induction rest generalizing out with
  | nil =>
    rw [List.append_nil] at hsplit
    rw [generalizeEntries, OrderedMap.ext hsplit]
  | cons e rest ih =>
    obtain ⟨n, rules⟩ := e
    obtain ⟨hn, hrest⟩ := List.forall_mem_cons.mp hrest
    have hnew : n ∉ out.keys := by
      have hnodup := g.nodup_keys
      rw [hsplit, List.map_append, List.map_cons, List.nodup_append] at hnodup
      exact fun hmem => hnodup.2.2 n hmem n List.mem_cons_self rfl
    rw [generalizeEntries, if_pos (by rw [hn]; rfl)]
    refine ih ?_ hrest
    rw [OrderedMap.entries_insert_of_not_mem hnew, List.append_assoc, List.singleton_append]
    exact hsplit

/-- A grammar without external names stays as it is. -/
theorem generalize_of_not_external (hg : ∀ n, g.contains n = true → isExternal n = false) :
    gen.generalize g alphabets = .ok g := by
  refine generalizeEntries_of_not_external (List.nil_append _).symm fun e he => ?_
  exact hg e.1 (OrderedMap.contains_iff_mem_keys.mpr (List.mem_map_of_mem he))

end Generalizer

end GrammarInference
