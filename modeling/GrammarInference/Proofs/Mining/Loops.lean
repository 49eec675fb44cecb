/-
GrammarInference/Proofs/Mining/Loops.lean

Mending loops loses nothing.

Design.  The continue part of a loop that was never continued has no alternatives, so nothing was derived
through it.  The loops are mended one after the other; mending one touches only its own definition and its
continue part, which is not the label of a loop, so the definitions of the loops that are left stay as they were
mined.
-/
import GrammarInference.Proofs.Mining.Words

namespace GrammarInference

open Grammar

variable {g : Grammar} {n m : String}

theorem continueName_ne_of_mark (hm : mark m = some 'L') : continueName n ≠ m :=
  fun h => mark_continueName_ne n (h ▸ hm)

/-- Mending a loop changes only the loop and its continue part. -/
theorem get?_fixLoop_of_ne (hn : n ≠ m) (hcontinue : continueName n ≠ m) :
    (fixLoop g n).1.get? m = g.get? m := by
  rw [fixLoop]
  split
  · rw [OrderedMap.get?_insert, if_neg hn, OrderedMap.get?_erase, if_neg hcontinue]
  · rfl

theorem contains_of_contains_fixLoop (hn : g.contains n = true) (h : (fixLoop g n).1.contains m = true) :
    g.contains m = true := by
  rw [fixLoop] at h
  split at h
  · rcases contains_insert.mp h with rfl | h
    · exact hn
    · rw [OrderedMap.contains, OrderedMap.get?_erase] at h
      split at h
      · cases h
      · exact h
  · exact h

/-- Mending a loop loses nothing. -/
theorem fixLoop_includedIn (hmark : mark n = some 'L') (hn : g.get? n = some (loopRules n)) :
    IncludedIn g (fixLoop g n).1 := by
  rw [fixLoop]
  split
  · rename_i hempty
    intro r w hd
    refine hd.of_alternatives fun m body u hb hu => ?_
    by_cases hm : n = m
    · subst hm
      have hloop : body ∈ loopRules n := by rwa [alternatives, hn] at hb
      rcases List.mem_cons.mp hloop with rfl | hbody
      · -- nothing is derived through the continue part
        obtain ⟨v, -, -, ⟨b, hb, -⟩, -⟩ := derives_nonterminal_cons_iff.mp hu
        rw [alternatives_insert, if_neg (continueName_ne_of_mark hmark).symm, alternatives,
          OrderedMap.get?_erase, if_pos rfl] at hb
        exact absurd hb List.not_mem_nil
      · exact ⟨body, by rwa [alternatives_insert, if_pos rfl], hu⟩
    · refine ⟨body, ?_, hu⟩
      rw [alternatives_insert, if_neg hm, alternatives, OrderedMap.get?_erase]
      split
      · rename_i hcontinue
        rwa [← hcontinue, alternatives, hempty] at hb
      · exact hb
  · exact .refl g

/-- A step of the loop over all loops. -/
def fixNext (state : Grammar × List String) (n : String) : Grammar × List String :=
  match fixLoop state.1 n with
  | (g, true) => (g, state.2 ++ [n])
  | (g, false) => (g, state.2)

theorem fst_fixNext (state : Grammar × List String) (n : String) :
    (fixNext state n).1 = (fixLoop state.1 n).1 := by
  rw [fixNext]
  split <;> rename_i h <;> rw [h]

theorem fixLoops_eq (g : Grammar) : fixLoops g = (g.keys.filter isLoopLabel).foldl fixNext (g, []) := rfl

/-- Mending some loops loses nothing and defines nothing new. -/
theorem foldl_fixNext_spec {ns : List String} {state : Grammar × List String} (hnodup : ns.Nodup)
    (hns : ∀ n ∈ ns, mark n = some 'L' ∧ state.1.get? n = some (loopRules n)) :
    IncludedIn state.1 (ns.foldl fixNext state).1 ∧
      ∀ m, (ns.foldl fixNext state).1.contains m = true → state.1.contains m = true := by
  induction ns generalizing state with
  | nil => exact ⟨.refl _, fun m hm => hm⟩
  | cons n ns ih =>
    obtain ⟨hnew, hnodup⟩ := List.nodup_cons.mp hnodup
    obtain ⟨⟨hmark, hn⟩, hns⟩ := List.forall_mem_cons.mp hns
    -- mending one loop leaves the definitions of the others as they are
    have hnext : ∀ m ∈ ns, mark m = some 'L' ∧ (fixNext state n).1.get? m = some (loopRules m) := by
      intro m hm
      obtain ⟨hL, hget⟩ := hns m hm
      have hne : n ≠ m := fun h => hnew (h ▸ hm)
      refine ⟨hL, ?_⟩
      rw [fst_fixNext, get?_fixLoop_of_ne hne (continueName_ne_of_mark hL)]
      exact hget
    obtain ⟨hincluded, hnames⟩ := ih hnodup hnext
    rw [fst_fixNext] at hincluded hnames
    have hdef : state.1.contains n = true := by
      rw [OrderedMap.contains, hn]
      rfl
    rw [List.foldl_cons]
    exact ⟨(fixLoop_includedIn hmark hn).trans hincluded,
      fun m hm => contains_of_contains_fixLoop hdef (hnames m hm)⟩

/-- Mending all loops of a mined grammar loses nothing and defines nothing new. -/
theorem fixLoops_spec (hg : Looped g) :
    IncludedIn g (fixLoops g).1 ∧ ∀ m, (fixLoops g).1.contains m = true → g.contains m = true := by
  have hnodup : (g.keys.filter isLoopLabel).Nodup := g.nodup_keys.filter _
  rw [fixLoops_eq]
  refine @foldl_fixNext_spec _ (g, []) hnodup fun n hn => ?_
  obtain ⟨hkey, hlabel⟩ := List.mem_filter.mp hn
  have hmark := mark_of_isLoopLabel hlabel
  exact ⟨hmark, hg n (OrderedMap.contains_iff_mem_keys.mpr hkey) hmark⟩

end GrammarInference
