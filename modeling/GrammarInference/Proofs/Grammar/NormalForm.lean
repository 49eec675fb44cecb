/-
GrammarInference/Proofs/Grammar/NormalForm.lean

Merging repeated definitions ends in a normal form, and says where every name went.

Design.  A pass collapses names one after the other, and passes follow each other, so what became of a name is a
composition of single steps.  `Represents g g' f` is what such a step establishes and what survives composition:
`f` sends every name to one that derives the same strings, moves only names that were removed, and the references
of `g'` are those of `g` under `f`.  Removing a definition makes a grammar smaller, so the passes come to an end,
and where a pass finds nothing no two definitions are equal.

    InLanguage (dedup g) (f n) w  ↔  InLanguage g n w
-/
import Mathlib.Logic.Relation
import GrammarInference.Proofs.Grammar.Merging

namespace GrammarInference

namespace Grammar

variable {g g' g'' : Grammar} {d k n m : String} {f f' : String → String} {w : List Char}

/-! ### Representatives -/

/-- Every name is represented in `g'` by one that derives the same strings. -/
structure Represents (g g' : Grammar) (f : String → String) : Prop where
  /-- A name that was not removed represents itself. -/
  self : ∀ n, (g.contains n = true → g'.contains n = true) → f n = n
  /-- What represents a defined name is defined. -/
  contains_iff : ∀ n, g'.contains (f n) = true ↔ g.contains n = true
  /-- A name and its representative derive the same strings. -/
  inLanguage_iff : ∀ n w, InLanguage g' (f n) w ↔ InLanguage g n w
  /-- What is mentioned afterwards represents what was mentioned before. -/
  mentions : ∀ n, ∀ m ∈ g'.mentions n, ∃ j ∈ g.mentions n, f j = m

theorem Represents.refl (g : Grammar) : Represents g g id where
  self := fun _ _ => rfl
  contains_iff := fun _ => Iff.rfl
  inLanguage_iff := fun _ _ => Iff.rfl
  mentions := fun _ m hm => ⟨m, hm, rfl⟩

/-- Nothing new is defined. -/
theorem Represents.contains (h : Represents g g' f) (hn : g'.contains n = true) : g.contains n = true := by
  have hself : f n = n := h.self n fun _ => hn
  exact (h.contains_iff n).mp (by rwa [hself])

theorem Represents.trans (h : Represents g g' f) (h' : Represents g' g'' f') : Represents g g'' (f' ∘ f) where
  self := by
    intro n hn
    have hfst : f n = n := h.self n fun hg => h'.contains (hn hg)
    have hsnd : f' n = n := h'.self n fun hg' => hn (h.contains hg')
    rw [Function.comp_apply, hfst, hsnd]
  contains_iff := fun n => (h'.contains_iff (f n)).trans (h.contains_iff n)
  inLanguage_iff := fun n w => (h'.inLanguage_iff (f n) w).trans (h.inLanguage_iff n w)
  mentions := by
    intro n m hm
    obtain ⟨j, hj, rfl⟩ := h'.mentions n m hm
    obtain ⟨i, hi, rfl⟩ := h.mentions n j hj
    exact ⟨i, hi, rfl⟩

/-- No reference names what was removed. -/
theorem Represents.contains_of_mentions (h : Represents g g' f) (hm : m ∈ g'.mentions n)
    (hdefined : g.contains m = true) : g'.contains m = true := by
  obtain ⟨j, -, rfl⟩ := h.mentions n m hm
  by_cases hj : g.contains j = true
  · exact (h.contains_iff j).mpr hj
  · -- a name that was not defined is not moved, so it is still not defined
    have hself : f j = j := h.self j fun hg => absurd hg hj
    rw [hself] at hdefined
    exact absurd hdefined hj

/-! ### A pass -/

theorem represents_collapse (heq : g.alternatives d = g.alternatives k) (hne : d ≠ k)
    (hd : g.contains d = true) (hk : g.contains k = true) :
    Represents g (g.collapse d k) fun n => if n = d then k else n where
  self := by
    intro n hn
    rw [if_neg]
    rintro rfl
    exact (contains_collapse_iff.mp (hn hd)).1 rfl
  contains_iff := by
    intro n
    rw [contains_collapse_iff]
    split
    · rename_i hn
      rw [hn]
      exact iff_of_true ⟨hne, hk⟩ hd
    · rename_i hn
      exact and_iff_right fun e => hn e.symm
  inLanguage_iff := by
    intro n w
    split
    · rename_i hn
      rw [inLanguage_collapse_iff heq hne hne.symm, hn, InLanguage, InLanguage, heq]
    · rename_i hn
      exact inLanguage_collapse_iff heq hne hn
  mentions := by
    intro n m hm
    obtain ⟨body, hbody, hmem⟩ := mem_mentions_iff.mp hm
    obtain ⟨-, b, hb, rfl⟩ := mem_alternatives_collapse.mp hbody
    obtain ⟨x, hx, hxm⟩ := List.mem_map.mp hmem
    cases x with
    | terminal t => cases hxm
    | nonterminal j =>
      refine ⟨j, mem_mentions_iff.mpr ⟨b, hb, hx⟩, ?_⟩
      rw [Symbol.replaceName] at hxm
      split at hxm <;> rename_i hj <;> cases hxm
      · exact if_pos hj
      · exact if_neg hj

theorem exists_represents_foldl_collapse {pairs : List (String × String)} (h : Repeats g pairs)
    (hdefined : ∀ p ∈ pairs, g.contains p.1 = true ∧ g.contains p.2 = true) :
    ∃ f, Represents g (pairs.foldl (fun g p => g.collapse p.1 p.2) g) f := by
  induction pairs generalizing g with
  | nil => exact ⟨id, .refl g⟩
  | cons p pairs ih =>
    have hne : p.1 ≠ p.2 := fun e => h.kept p List.mem_cons_self (e ▸ List.mem_cons_self)
    obtain ⟨hd, hk⟩ := hdefined p List.mem_cons_self
    have hstep := represents_collapse (h.alternatives_eq p List.mem_cons_self) hne hd hk
    -- the names of the pairs still to come were not removed
    have hrest : ∀ q ∈ pairs, (g.collapse p.1 p.2).contains q.1 = true ∧ (g.collapse p.1 p.2).contains q.2 = true := by
      intro q hq
      obtain ⟨hq₁, hq₂⟩ := hdefined q (List.mem_cons_of_mem p hq)
      refine ⟨contains_collapse_iff.mpr ⟨?_, hq₁⟩, contains_collapse_iff.mpr ⟨?_, hq₂⟩⟩
      · rintro e
        exact (List.nodup_cons.mp h.nodup).1 (e ▸ List.mem_map_of_mem hq)
      · rintro e
        exact h.kept q (List.mem_cons_of_mem p hq) (e ▸ List.mem_cons_self)
    obtain ⟨f, hf⟩ := ih h.collapse hrest
    exact ⟨_, hstep.trans hf⟩

theorem contains_distinctAlternatives (g : Grammar) (n : String) :
    g.distinctAlternatives.contains n = g.contains n := by
  rw [OrderedMap.contains, distinctAlternatives, OrderedMap.get?_mapValues, Option.isSome_map]
  rfl

theorem represents_distinctAlternatives (g : Grammar) : Represents g g.distinctAlternatives id where
  self := fun _ _ => rfl
  contains_iff := fun n => by rw [contains_distinctAlternatives, id]
  inLanguage_iff := fun _ _ => inLanguage_distinctAlternatives_iff
  mentions := by
    intro n m hm
    obtain ⟨body, hbody, hmem⟩ := mem_mentions_iff.mp hm
    rw [alternatives_distinctAlternatives, mem_distinct] at hbody
    exact ⟨m, mem_mentions_iff.mpr ⟨body, hbody, hmem⟩, rfl⟩

theorem contains_of_mem_entries {rs : List Rule} (h : (n, rs) ∈ g.entries) : g.contains n = true := by
  rw [OrderedMap.contains, OrderedMap.get?_eq_some_iff.mpr h]
  rfl

theorem contains_of_mem_duplicates {p : String × String} (hp : p ∈ g.duplicates) :
    g.contains p.1 = true ∧ g.contains p.2 = true := by
  obtain ⟨rs, hd, -, hfirst, -⟩ := mem_duplicates_iff.mp hp
  exact ⟨contains_of_mem_entries hd, contains_of_mem_entries (firstWith_eq_some hfirst).1⟩

theorem dedupOnce?_eq_none_iff : g.dedupOnce? = none ↔ g.duplicates = [] := by
  rw [dedupOnce?]
  split
  · rename_i hnil
    exact iff_of_true rfl hnil
  · rename_i hne
    exact iff_of_false (Option.some_ne_none _) hne

theorem dedupOnce?_eq_some (h : g.dedupOnce? = some g') : g.duplicates ≠ [] ∧
    g' = distinctAlternatives (g.duplicates.foldl (fun g p => g.collapse p.1 p.2) g) := by
  rw [dedupOnce?] at h
  split at h
  · cases h
  · rename_i hne
    exact ⟨hne, (Option.some.inj h).symm⟩

/-- A pass gives every name a representative. -/
theorem exists_represents_of_dedupOnce? (h : g.dedupOnce? = some g') : ∃ f, Represents g g' f := by
  obtain ⟨-, rfl⟩ := dedupOnce?_eq_some h
  obtain ⟨f, hf⟩ := exists_represents_foldl_collapse (repeats_duplicates g) fun p hp =>
    contains_of_mem_duplicates hp
  exact ⟨_, hf.trans (represents_distinctAlternatives _)⟩

theorem contains_foldl_collapse {pairs : List (String × String)} (hn : n ∉ pairs.map Prod.fst)
    (hdefined : g.contains n = true) :
    (pairs.foldl (fun g p => g.collapse p.1 p.2) g).contains n = true := by
  induction pairs generalizing g with
  | nil => exact hdefined
  | cons p pairs ih =>
    rw [List.map_cons, List.mem_cons, not_or] at hn
    exact ih hn.2 (contains_collapse_iff.mpr ⟨fun e => hn.1 e.symm, hdefined⟩)

theorem contains_startName_of_dedupOnce? (h : g.dedupOnce? = some g') (hs : g.contains startName = true) :
    g'.contains startName = true := by
  obtain ⟨-, rfl⟩ := dedupOnce?_eq_some h
  rw [contains_distinctAlternatives]
  exact contains_foldl_collapse (startName_not_mem_duplicates g) hs

/-! ### The end of the passes -/

theorem size_collapse (g : Grammar) (d k : String) :
    (g.collapse d k).size = (g.entries.filter fun e => decide (e.1 ≠ d)).length := by
  rw [OrderedMap.size, collapse, replaceReferences, OrderedMap.mapValues, List.length_map]
  rfl

theorem size_foldl_collapse_le (g : Grammar) (pairs : List (String × String)) :
    (pairs.foldl (fun g p => g.collapse p.1 p.2) g).size ≤ g.size := by
  induction pairs generalizing g with
  | nil => exact Nat.le_refl _
  | cons p pairs ih =>
    refine Nat.le_trans (ih (g.collapse p.1 p.2)) ?_
    rw [size_collapse]
    exact List.length_filter_le _ _

theorem size_collapse_lt (hd : g.contains d = true) : (g.collapse d k).size < g.size := by
  obtain ⟨e, he, rfl⟩ := List.mem_map.mp (OrderedMap.contains_iff_mem_keys.mp hd)
  rw [size_collapse]
  exact List.length_filter_lt_length_iff_exists.mpr ⟨e, he, by simp⟩

/-- A pass that finds something removes a definition. -/
theorem size_lt_of_dedupOnce? (h : g.dedupOnce? = some g') : g'.size < g.size := by
  obtain ⟨hne, rfl⟩ := dedupOnce?_eq_some h
  rw [OrderedMap.size, distinctAlternatives, OrderedMap.mapValues, List.length_map]
  rcases hpairs : g.duplicates with - | ⟨p, pairs⟩
  · exact absurd hpairs hne
  · have hp : p ∈ g.duplicates := hpairs ▸ List.mem_cons_self
    exact Nat.lt_of_le_of_lt (size_foldl_collapse_le _ pairs) (size_collapse_lt (contains_of_mem_duplicates hp).1)

/-- One pass leads from the first grammar to the second one. -/
def MergesTo (g g' : Grammar) : Prop := g.dedupOnce? = some g'

/-- Enough passes come to an end: the last grammar is reached by passes, and the next one finds nothing. -/
theorem mergesTo_dedupWithin {passes : Nat} (h : g.size ≤ passes) :
    Relation.ReflTransGen MergesTo g (g.dedupWithin passes) ∧ (g.dedupWithin passes).dedupOnce? = none := by
  induction passes generalizing g with
  | zero =>
    refine ⟨.refl, dedupOnce?_eq_none_iff.mpr ?_⟩
    have hnil : g.entries = [] := List.eq_nil_of_length_eq_zero (Nat.le_zero.mp h)
    rw [dedupWithin, duplicates, hnil, List.filterMap_nil]
  | succ passes ih =>
    rw [dedupWithin]
    rcases hone : g.dedupOnce? with - | g'
    · exact ⟨.refl, hone⟩
    · obtain ⟨hsteps, hend⟩ := ih (Nat.le_of_lt_succ (Nat.lt_of_lt_of_le (size_lt_of_dedupOnce? hone) h))
      exact ⟨.head hone hsteps, hend⟩

theorem exists_represents_of_mergesTo (h : Relation.ReflTransGen MergesTo g g') : ∃ f, Represents g g' f := by
  induction h with
  | refl => exact ⟨id, .refl g⟩
  | tail _ hstep ih =>
    obtain ⟨f, hf⟩ := ih
    obtain ⟨f', hf'⟩ := exists_represents_of_dedupOnce? hstep
    exact ⟨f' ∘ f, hf.trans hf'⟩

theorem contains_startName_of_mergesTo (h : Relation.ReflTransGen MergesTo g g')
    (hs : g.contains startName = true) : g'.contains startName = true := by
  induction h with
  | refl => exact hs
  | tail _ hstep ih => exact contains_startName_of_dedupOnce? hstep ih

theorem nodup_of_mergesTo (h : Relation.ReflTransGen MergesTo g g') (hnodup : ∀ n, (g.alternatives n).Nodup) :
    ∀ n, (g'.alternatives n).Nodup := by
  induction h with
  | refl => exact hnodup
  | tail _ hstep _ =>
    intro n
    obtain ⟨-, rfl⟩ := dedupOnce?_eq_some hstep
    rw [alternatives_distinctAlternatives]
    exact nodup_distinct _

/-! ### The normal form -/

theorem exists_firstWith {rs : List Rule} (he : (n, rs) ∈ g.entries) (hn : n ≠ startName) :
    ∃ k, g.firstWith rs = some k := by
  have hsome : (g.entries.find? fun e => decide (e.1 ≠ startName) && decide (e.2 = rs)).isSome :=
    List.find?_isSome.mpr ⟨_, he, by simp [hn]⟩
  obtain ⟨e, he⟩ := Option.isSome_iff_exists.mp hsome
  exact ⟨e.1, by rw [firstWith, he]; rfl⟩

/-- Where a pass finds nothing, equal definitions are definitions of one name. -/
theorem eq_of_alternatives_eq (h : g.dedupOnce? = none) (hn : g.contains n = true) (hm : g.contains m = true)
    (hns : n ≠ startName) (hms : m ≠ startName) (heq : g.alternatives n = g.alternatives m) : n = m := by
  -- the first name with these alternatives is all of them
  have hfirst : ∀ i, g.contains i = true → i ≠ startName → g.alternatives i = g.alternatives n →
      g.firstWith (g.alternatives n) = some i := by
    intro i hi his hieq
    obtain ⟨⟨j, rs⟩, he, hj⟩ := List.mem_map.mp (OrderedMap.contains_iff_mem_keys.mp hi)
    obtain rfl : j = i := hj
    rw [← hieq, alternatives_of_mem_entries he]
    obtain ⟨k, hk⟩ := exists_firstWith he his
    by_cases hki : k = j
    · rw [hk, hki]
    · have hdup : (j, k) ∈ g.duplicates := mem_duplicates_iff.mpr ⟨rs, he, his, hk, hki⟩
      rw [dedupOnce?_eq_none_iff.mp h] at hdup
      exact absurd hdup List.not_mem_nil
  have hsame := (hfirst n hn hns rfl).symm.trans (hfirst m hm hms heq.symm)
  exact Option.some.inj hsame

theorem dedup_of_dedupOnce?_eq_none (h : g.dedupOnce? = none) : g.dedup = g := by
  rw [dedup]
  rcases g.size with - | passes
  · rfl
  · rw [dedupWithin, h]

/-- What merging the repeated definitions of `g` comes to. -/
structure IsMergedForm (g g' : Grammar) : Prop where
  /-- The passes come to an end with it. -/
  passes : Relation.ReflTransGen MergesTo g g' ∧ g'.dedupOnce? = none
  /-- The start symbol survives. -/
  start : g.contains startName = true → g'.contains startName = true
  /-- A name that survives was defined, and derives the same strings as before. -/
  survivors : ∀ n, g'.contains n = true → g.contains n = true ∧ ∀ w, InLanguage g' n w ↔ InLanguage g n w
  /-- A name that was removed is represented by one that survives and derives the same strings. -/
  removed : ∀ n, g.contains n = true → g'.contains n = false →
    ∃ k, g'.contains k = true ∧ ∀ w, InLanguage g' k w ↔ InLanguage g n w
  /-- No reference names what was removed. -/
  references : ∀ n, ∀ m ∈ g'.mentions n, g.contains m = true → g'.contains m = true
  /-- No two names, the start symbol apart, have the same alternatives. -/
  distinct : ∀ n m, g'.contains n = true → g'.contains m = true → n ≠ startName → m ≠ startName →
    g'.alternatives n = g'.alternatives m → n = m
  /-- Where no alternative was repeated, none is. -/
  nodup : (∀ n, (g.alternatives n).Nodup) → ∀ n, (g'.alternatives n).Nodup

theorem isMergedForm_of_passes (h : Relation.ReflTransGen MergesTo g g') (hend : g'.dedupOnce? = none) :
    IsMergedForm g g' := by
  obtain ⟨f, hf⟩ := exists_represents_of_mergesTo h
  constructor
  · exact ⟨h, hend⟩
  · exact contains_startName_of_mergesTo h
  · intro n hn
    refine ⟨hf.contains hn, fun w => ?_⟩
    rw [← hf.inLanguage_iff, hf.self n fun _ => hn]
  · exact fun n hn _ => ⟨f n, (hf.contains_iff n).mpr hn, hf.inLanguage_iff n⟩
  · exact fun n m hm hdefined => hf.contains_of_mentions hm hdefined
  · exact fun n m hn hm hns hms heq => eq_of_alternatives_eq hend hn hm hns hms heq
  · exact nodup_of_mergesTo h

/-- **Merging repeated definitions preserves meaning and reaches a normal form.**  The passes end, every name
keeps its strings or is represented by one that has them, no two definitions are equal, and merging again changes
nothing. -/
theorem dedup_reaches_normal_form (g : Grammar) :
    IsMergedForm g g.dedup ∧ (∀ w, InLanguage g.dedup startName w ↔ InLanguage g startName w) ∧
      g.dedup.dedup = g.dedup := by
  obtain ⟨hpasses, hend⟩ := mergesTo_dedupWithin (Nat.le_refl g.size)
  exact ⟨isMergedForm_of_passes hpasses hend, fun _ => inLanguage_dedup_iff, dedup_of_dedupOnce?_eq_none hend⟩

end Grammar

end GrammarInference
