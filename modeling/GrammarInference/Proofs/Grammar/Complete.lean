/-
GrammarInference/Proofs/Grammar/Complete.lean

Grammars without loose ends.

Design.  The check of a grammar asks about what is reachable from the start symbol.  A stage that puts a grammar
together does not know what will be reachable in the end, and establishes more: every name that is mentioned is
defined, and no alternative is listed twice (`Complete`).  A fragment that is going to be laid over a grammar may
also mention names that only this one defines, so completeness is relative to a set of such names
(`CompleteOver`).  Tidying keeps the alternatives distinct, and what was closed belongs to a closed set afterwards,
so a complete grammar is valid when it is tidied (`Complete.valid_tidyWithin`).
-/
import GrammarInference.Proofs.Grammar.Meaning
import GrammarInference.Proofs.Grammar.Renaming

namespace GrammarInference

namespace Grammar

variable {g g' : Grammar} {K : Set String} {n m old new : String} {r : Rule} {rs : List Rule}

/-! ### Completeness -/

/-- Every name that is mentioned is defined or belongs to `K`, and no alternative is listed twice. -/
structure CompleteOver (K : Set String) (g : Grammar) : Prop where
  /-- No name is left undefined, unless it belongs to `K`. -/
  defined : ∀ n, ∀ m ∈ g.mentions n, m ∈ K ∨ g.contains m = true
  /-- No definition lists an alternative twice. -/
  nodup : ∀ n, (g.alternatives n).Nodup

/-- Every name that is mentioned is defined, and no alternative is listed twice. -/
abbrev Complete (g : Grammar) : Prop := CompleteOver ∅ g

theorem CompleteOver.mono {K' : Set String} (h : CompleteOver K g) (hK : K ⊆ K') : CompleteOver K' g :=
  ⟨fun n m hm => (h.defined n m hm).imp_left fun hmem => hK hmem, h.nodup⟩

/-- A grammar is complete if it defines the names that it could take from outside. -/
theorem CompleteOver.complete (h : CompleteOver K g) (hK : ∀ n ∈ K, g.contains n = true) : g.Complete :=
  ⟨fun n m hm => .inr ((h.defined n m hm).elim (hK m) id), h.nodup⟩

theorem Complete.contains (h : g.Complete) (hr : r ∈ g.alternatives n) (hm : Symbol.nonterminal m ∈ r) :
    g.contains m = true :=
  (h.defined n m (mem_mentions_iff.mpr ⟨r, hr, hm⟩)).resolve_left id

/-- The definitions of a complete grammar are closed. -/
theorem Complete.closed (h : g.Complete) : Closed g {n | g.contains n = true} where
  defined := fun _ hn => hn
  mentions := fun n _ m hm => (h.defined n m hm).resolve_left id

/-! ### Putting grammars together -/

theorem completeOver_empty (K : Set String) : CompleteOver K ∅ :=
  ⟨fun _ _ hm => absurd hm List.not_mem_nil, fun _ => List.nodup_nil⟩

/-- A definition that mentions what is defined, itself or names from outside. -/
theorem CompleteOver.insert (h : CompleteOver K g) (hrs : rs.Nodup)
    (hm : ∀ r ∈ rs, ∀ m, Symbol.nonterminal m ∈ r → m ∈ K ∨ n = m ∨ g.contains m = true) :
    CompleteOver K (g.insert n rs) where
  defined := by
    intro k m hk
    rw [contains_insert]
    rcases mem_mentions_insert hk with ⟨r, hr, hmem⟩ | hk
    · exact hm r hr m hmem
    · exact (h.defined k m hk).imp_right .inr
  nodup := by
    intro k
    rw [alternatives_insert]
    split
    · exact hrs
    · exact h.nodup k

/-- Definitions that are laid over others. -/
theorem CompleteOver.overlay (h : CompleteOver K g) (h' : CompleteOver K g') : CompleteOver K (g.overlay g') where
  defined := by
    intro n m hm
    rw [mentions, alternatives_overlay] at hm
    rw [contains_overlay_iff]
    split at hm
    · exact (h'.defined n m hm).imp_right .inr
    · exact (h.defined n m hm).imp_right .inl
  nodup := by
    intro n
    rw [alternatives_overlay]
    split
    · exact h'.nodup n
    · exact h.nodup n

/-! ### Renaming -/

theorem contains_rename_iff (hnew : g.contains new = false) : (g.rename old new).contains n = true ↔
    n = new ∧ g.contains old = true ∨ n ≠ new ∧ n ≠ old ∧ g.contains n = true := by
  rw [rename, replaceReferences, OrderedMap.contains, OrderedMap.get?_mapValues, Option.isSome_map,
    OrderedMap.get?_renameKey hnew]
  by_cases hn : n = new
  · simp [hn, OrderedMap.contains]
  · by_cases ho : n = old
    · subst ho
      simp [hn]
    · simp [hn, ho, OrderedMap.contains]

/-- An alternative after renaming is an old one, with the name replaced. -/
theorem exists_of_mem_alternatives_rename {body : Rule} (hnew : g.contains new = false)
    (h : body ∈ (g.rename old new).alternatives n) :
    ∃ k, ∃ r ∈ g.alternatives k, r.map (Symbol.replaceName old new) = body := by
  rw [alternatives_rename hnew] at h
  obtain ⟨r, hr, rfl⟩ := List.mem_map.mp h
  split at hr
  · exact ⟨old, r, hr, rfl⟩
  · split at hr
    · exact absurd hr List.not_mem_nil
    · exact ⟨n, r, hr, rfl⟩

/-- A fresh name is none of those that are defined. -/
theorem ne_of_contains (hnew : g.contains new = false) (hn : g.contains n = true) : n ≠ new := by
  rintro rfl
  rw [hnew] at hn
  cases hn

/-- A defined name stays defined, under the name it gets. -/
theorem contains_rename_replacedName (hnew : g.contains new = false) (hn : g.contains n = true) :
    (g.rename old new).contains (replacedName old new n) = true := by
  rw [contains_rename_iff hnew, replacedName]
  split
  · rename_i heq
    exact .inl ⟨rfl, heq ▸ hn⟩
  · rename_i hne
    exact .inr ⟨ne_of_contains hnew hn, hne, hn⟩

/-- Replacing a name by a fresh one keeps defined names apart. -/
theorem injOn_replacedName (hnew : g.contains new = false) :
    Set.InjOn (replacedName old new) {n | g.contains n = true} := by
  intro i hi j hj hij
  simp only [replacedName] at hij
  split at hij <;> split at hij
  · rename_i hio hjo
    rw [hio, hjo]
  · exact absurd hij.symm (ne_of_contains hnew hj)
  · exact absurd hij (ne_of_contains hnew hi)
  · exact hij

/-- Renaming with a fresh name. -/
theorem Complete.rename (h : g.Complete) (hnew : g.contains new = false) : (g.rename old new).Complete where
  defined := by
    intro n m hm
    obtain ⟨body, hbody, hmem⟩ := mem_mentions_iff.mp hm
    obtain ⟨k, r, hr, rfl⟩ := exists_of_mem_alternatives_rename hnew hbody
    rw [← mapName_replacedName] at hmem
    obtain ⟨x, hx, hxm⟩ := List.mem_map.mp hmem
    cases x with
    | terminal t => cases hxm
    | nonterminal j =>
      cases hxm
      exact .inr (contains_rename_replacedName hnew (h.contains hr hx))
  nodup := by
    intro n
    -- no rule mentions the new name, so the rules stay apart
    have hmap : ∀ k, ((g.alternatives k).map fun r => r.map (Symbol.replaceName old new)).Nodup := by
      intro k
      rw [← mapName_replacedName]
      exact (h.nodup k).map_on fun r hr r' hr' heq => map_mapName_inj (injOn_replacedName hnew)
        (fun _ hm => h.contains hr hm) (fun _ hm => h.contains hr' hm) heq
    rw [alternatives_rename hnew]
    split
    · exact hmap old
    · split
      · exact List.nodup_nil
      · exact hmap n

/-- Renaming some names, each to a fresh name that is given out only once. -/
theorem Complete.foldl_rename {f : String → String} {ks : List String} (h : g.Complete) (hks : ks.Nodup)
    (hfresh : ∀ k ∈ ks, g.contains (f k) = false) (hinj : ∀ k ∈ ks, ∀ j ∈ ks, f k = f j → k = j) :
    (ks.foldl (fun g k => g.rename k (f k)) g).Complete := by
  induction ks generalizing g with
  | nil => exact h
  | cons k ks ih =>
    obtain ⟨hk, hks⟩ := List.nodup_cons.mp hks
    obtain ⟨hkfresh, hrest⟩ := List.forall_mem_cons.mp hfresh
    rw [List.foldl_cons]
    refine ih (h.rename hkfresh) hks ?_ fun i hi j hj =>
      hinj i (List.mem_cons_of_mem k hi) j (List.mem_cons_of_mem k hj)
    intro j hj
    apply Bool.eq_false_iff.mpr
    intro hdefined
    rcases (contains_rename_iff hkfresh).mp hdefined with ⟨heq, -⟩ | ⟨-, -, hold⟩
    · exact hk (hinj j (List.mem_cons_of_mem k hj) k List.mem_cons_self heq ▸ hj)
    · rw [hrest j hj] at hold
      cases hold

/-! ### Tidying -/

theorem nodup_inlineSingles (hg : ∀ n, (g.alternatives n).Nodup) (n : String) :
    ((inlineSingles g).1.alternatives n).Nodup := by
  rw [inlineSingles]
  split
  · exact hg n
  · show ((inlineAt g.inlineBodies g).alternatives n).Nodup
    rw [alternatives_inlineAt]
    split
    · exact hg n
    · exact nodup_distinct _

theorem nodup_mergeOptional {o : OptionalPart} (hg : ∀ n, (g.alternatives n).Nodup) (m : String) :
    ((g.mergeOptional n o).alternatives m).Nodup := by
  rw [alternatives_mergeOptional]
  split
  · exact nodup_distinct _
  · rw [withOptional, alternatives_insert]
    split
    · simp [optionalRules, Symbol.epsilon]
    · exact hg m

theorem nodup_tidyWithin {passes rounds : Nat} (hg : ∀ n, (g.alternatives n).Nodup)
    (h : tidyWithin passes rounds g = some g') : ∀ n, (g'.alternatives n).Nodup := by
  refine tidyWithin_induction (P := fun g => ∀ n, (g.alternatives n).Nodup) ?_ ?_ hg h
  · intro g n o u v _ hg m
    exact nodup_mergeOptional hg m
  · intro g hg n
    exact nodup_inlineSingles hg n

/-- A complete grammar with a start symbol is valid. -/
theorem Complete.valid (h : g.Complete) (hs : g.contains startName = true) : g.Valid := h.closed.valid hs h.nodup

/-- Tidying makes a valid grammar of a complete one, wherever it is cut off. -/
theorem Complete.valid_tidyWithin {passes rounds : Nat} (h : g.Complete) (hs : g.contains startName = true)
    (htidy : tidyWithin passes rounds g = some g') : g'.Valid := by
  obtain ⟨R, hsub, hclosed, -⟩ := preserves_tidyWithin htidy _ h.closed
  exact hclosed.valid (hsub hs) (nodup_tidyWithin h.nodup htidy)

end Grammar

end GrammarInference
