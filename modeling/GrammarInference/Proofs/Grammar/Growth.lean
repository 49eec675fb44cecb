/-
GrammarInference/Proofs/Grammar/Growth.lean

Adding definitions and alternatives to a grammar.

Design.  A grammar is included in another one if that derives all that the first one does (`IncludedIn`).  A
step that only adds loses no alternative (`Grows`), and then no word is lost either.  A step that rewrites
definitions has to show, for each alternative that it replaces, that its words are still derived.  A step that
adds a definition needs a name for it, and finds one if it has more names to choose from than there are
definitions.
-/
import GrammarInference.Proofs.Grammar.Derivation
import Mathlib.Data.List.Nodup
import Mathlib.Data.List.Perm.Subperm

namespace GrammarInference

namespace Grammar

variable {g g' g'' : Grammar} {n m : String} {r : Rule}

/-- Whatever `g` derives, `g'` derives. -/
def IncludedIn (g g' : Grammar) : Prop := ∀ r w, Derives g r w → Derives g' r w

theorem IncludedIn.refl (g : Grammar) : IncludedIn g g := fun _ _ h => h

theorem IncludedIn.trans (h : IncludedIn g g') (h' : IncludedIn g' g'') : IncludedIn g g'' :=
  fun r w hd => h' r w (h r w hd)

theorem IncludedIn.inLanguage (h : IncludedIn g g') {w : List Char} (hd : InLanguage g n w) :
    InLanguage g' n w :=
  derives_singleton_iff.mp (h _ w (derives_singleton_iff.mpr hd))

/-- Every alternative of `g` is one of `g'`. -/
def Grows (g g' : Grammar) : Prop := ∀ n, g.alternatives n ⊆ g'.alternatives n

theorem Grows.refl (g : Grammar) : Grows g g := fun _ => List.Subset.refl _

theorem Grows.trans (h : Grows g g') (h' : Grows g' g'') : Grows g g'' :=
  fun n => List.Subset.trans (h n) (h' n)

theorem Grows.includedIn (h : Grows g g') : IncludedIn g g' :=
  fun _ _ hd => hd.mono fun n _ hb => h n hb

/-! ### Single steps -/

theorem contains_insert {rs : List Rule} :
    OrderedMap.contains (g.insert n rs) m = true ↔ n = m ∨ g.contains m = true := by
  rw [OrderedMap.contains, OrderedMap.get?_insert, OrderedMap.contains]
  by_cases h : n = m <;> simp [h]

theorem get?_ensure_of_ne (h : n ≠ m) : (g.ensure n).get? m = g.get? m := by
  rw [ensure]
  split
  · rfl
  · rw [OrderedMap.get?_insert, if_neg h]

theorem contains_ensure_iff : (g.ensure n).contains m = true ↔ n = m ∨ g.contains m = true := by
  rw [ensure]
  split
  · rename_i hn
    constructor
    · exact .inr
    · rintro (rfl | hm)
      · exact hn
      · exact hm
  · exact contains_insert

theorem alternatives_ensure (g : Grammar) (n m : String) : (g.ensure n).alternatives m = g.alternatives m := by
  rw [ensure]
  split
  · rfl
  · rename_i hn
    rw [alternatives_insert]
    split
    · rename_i hnm
      rw [alternatives, get?_eq_none_iff.mpr (hnm ▸ Bool.eq_false_iff.mpr hn)]
      rfl
    · rfl

theorem get?_addAlternative_of_ne (h : n ≠ m) : (g.addAlternative n r).get? m = g.get? m := by
  rw [addAlternative]
  split
  · rfl
  · rw [push, OrderedMap.get?_insert, if_neg h]

theorem contains_addAlternative_iff :
    (g.addAlternative n r).contains m = true ↔ n = m ∨ g.contains m = true := by
  rw [addAlternative]
  split
  · rename_i hr
    constructor
    · exact .inr
    · rintro (rfl | hm)
      · exact contains_of_mem_alternatives hr
      · exact hm
  · exact contains_insert

theorem mem_addAlternative_iff {r' : Rule} :
    r' ∈ (g.addAlternative n r).alternatives m ↔ r' ∈ g.alternatives m ∨ (m = n ∧ r' = r) := by
  rw [addAlternative]
  split
  · rename_i hr
    constructor
    · exact .inl
    · rintro (hr' | ⟨rfl, rfl⟩)
      · exact hr'
      · exact hr
  · rw [push, alternatives_insert]
    by_cases hm : n = m
    · subst hm
      rw [if_pos rfl, List.mem_append, List.mem_singleton, and_iff_right rfl]
    · rw [if_neg hm]
      exact ⟨.inl, fun h => h.resolve_right fun h => hm h.1.symm⟩

theorem nodup_addAlternative (hg : ∀ m, (g.alternatives m).Nodup) (m : String) :
    ((g.addAlternative n r).alternatives m).Nodup := by
  rw [addAlternative]
  split
  · exact hg m
  · rename_i hr
    rw [push, alternatives_insert]
    split
    · exact List.nodup_append.mpr ⟨hg n, List.nodup_singleton r, fun a ha b hb => by
        rintro rfl
        exact hr (List.mem_singleton.mp hb ▸ ha)⟩
    · exact hg m

theorem alternatives_overlay (g update : Grammar) (n : String) : alternatives (g.overlay update) n =
    if update.contains n = true then update.alternatives n else g.alternatives n := by
  rw [alternatives, OrderedMap.get?_overlay, OrderedMap.contains, alternatives, alternatives]
  cases update.get? n <;> rfl

theorem contains_overlay_iff {g update : Grammar} {n : String} :
    (g.overlay update).contains n = true ↔ g.contains n = true ∨ update.contains n = true := by
  rw [OrderedMap.contains, OrderedMap.get?_overlay, OrderedMap.contains, OrderedMap.contains]
  cases update.get? n <;> simp

/-! ### Undefined names -/

/-- Among more names than there are definitions, one is undefined. -/
theorem exists_not_contains (g : Grammar) {name : Nat → String} (hname : Function.Injective name) :
    ∃ i < g.size + 1, g.contains (name i) = false := by
  by_contra hno
  have hall : ∀ i < g.size + 1, g.contains (name i) = true := by
    intro i hi
    rw [← Bool.not_eq_false]
    exact fun h => hno ⟨i, hi, h⟩
  have hnodup : ((List.range (g.size + 1)).map name).Nodup := List.nodup_range.map hname
  have hsub : (List.range (g.size + 1)).map name ⊆ g.keys := by
    intro k hk
    obtain ⟨i, hi, rfl⟩ := List.mem_map.mp hk
    exact OrderedMap.contains_iff_mem_keys.mp (hall i (List.mem_range.mp hi))
  have hle := (hnodup.subperm hsub).length_le
  rw [List.length_map, List.length_range, OrderedMap.keys, List.length_map] at hle
  exact absurd hle (Nat.not_succ_le_self _)

end Grammar

end GrammarInference
