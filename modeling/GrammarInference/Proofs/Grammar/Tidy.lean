/-
GrammarInference/Proofs/Grammar/Tidy.lean

Factoring loses nothing, and neither does tidying.

Design.  Two alternatives that are merged have the same symbols around the place of the inserted nonterminal.
The name for the optional nonterminal is undefined or defined as it has to be: among the numbered names there is
one more than there are definitions, so the search for a free one finds one.  It is not the name of the
nonterminal whose alternatives are merged, since in such a definition there is nothing to merge.
-/
import GrammarInference.Proofs.Grammar.Inline
import GrammarInference.Text.Natural

namespace GrammarInference

namespace Grammar

variable {g g' : Grammar} {n m : String} {r : Rule} {w : List Char}

/-! ### Pairs of alternatives -/

theorem insertionPoint?_eq_some {short long : Rule} {k : Nat} (h : insertionPoint? short long = some k) :
    ∃ u x v, short = u ++ v ∧ long = u ++ x :: v ∧ u.length = k := by
  induction short generalizing long k with
  | nil =>
    rcases long with - | ⟨x, - | ⟨y, long⟩⟩
    · cases h
    · cases h
      exact ⟨[], x, [], rfl, rfl, rfl⟩
    · cases h
  | cons s short ih =>
    cases long with
    | nil => cases h
    | cons l long =>
      rw [insertionPoint?] at h
      split at h
      · -- the symbol is inserted here
        rename_i heq
        cases h
        exact ⟨[], l, s :: short, rfl, by rw [heq]; rfl, rfl⟩
      · split at h
        · rename_i hs
          subst hs
          obtain ⟨k', hk', rfl⟩ := Option.map_eq_some_iff.mp h
          obtain ⟨u, x, v, rfl, rfl, hlen⟩ := ih hk'
          exact ⟨s :: u, x, v, rfl, rfl, congrArg Nat.succ hlen⟩
        · cases h

/-- The alternatives `u ++ v` and `u ++ X :: v` stand at the places of an optional part. -/
structure OptionalPart.Splits (o : OptionalPart) (rs : List Rule) (u v : Rule) : Prop where
  /-- The shorter alternative. -/
  short : rs[o.short]? = some (u ++ v)
  /-- The longer alternative. -/
  long : rs[o.long]? = some (u ++ .nonterminal o.name :: v)
  /-- The place of the inserted nonterminal. -/
  point : u.length = o.point

theorem OptionalPart.Splits.short_ne_long {o : OptionalPart} {rs : List Rule} {u v : Rule}
    (h : o.Splits rs u v) : o.short ≠ o.long := by
  intro heq
  have hsame : u ++ v = u ++ .nonterminal o.name :: v := by
    rw [← Option.some_inj, ← h.short, ← h.long, heq]
  have hlen := congrArg List.length hsame
  rw [List.length_append, List.length_append, List.length_cons] at hlen
  omega

/-- The optional part of the longer alternative, given which of the two that is, with the places of both. -/
def insertedPart? (s l : Nat) (short long : Rule) : Option OptionalPart :=
  match insertionPoint? short long with
  | none => none
  | some k =>
    match long[k]? with
    | some (.nonterminal n) => if isOptionalName n then none else some ⟨s, l, k, n⟩
    | _ => none

theorem optionalPart?_eq (i j : Nat) (a b : Rule) :
    optionalPart? i j a b = if a.length < b.length then insertedPart? i j a b else insertedPart? j i b a := by
  rw [optionalPart?]
  by_cases h : a.length < b.length
  · rw [if_pos h, if_pos h]
    rfl
  · rw [if_neg h, if_neg h]
    rfl

theorem splits_of_insertedPart? {rs : List Rule} {s l : Nat} {short long : Rule} {o : OptionalPart}
    (hs : rs[s]? = some short) (hl : rs[l]? = some long) (h : insertedPart? s l short long = some o) :
    ∃ u v, o.Splits rs u v := by
  rw [insertedPart?] at h
  rcases hpoint : insertionPoint? short long with - | k
  · simp only [hpoint] at h
    cases h
  · obtain ⟨u, x, v, rfl, rfl, rfl⟩ := insertionPoint?_eq_some hpoint
    have hx : (u ++ x :: v)[u.length]? = some x := by simp
    simp only [hpoint, hx] at h
    cases x with
    | terminal t => cases h
    | nonterminal n =>
      simp only at h
      split at h
      · cases h
      · cases h
        exact ⟨u, v, hs, hl, rfl⟩

theorem splits_of_optionalPart? {rs : List Rule} {i j : Nat} {a b : Rule} {o : OptionalPart}
    (ha : rs[i]? = some a) (hb : rs[j]? = some b) (h : optionalPart? i j a b = some o) :
    ∃ u v, o.Splits rs u v := by
  rw [optionalPart?_eq] at h
  split at h
  · exact splits_of_insertedPart? ha hb h
  · exact splits_of_insertedPart? hb ha h

theorem splits_of_findOptional {rs : List Rule} {o : OptionalPart} (h : findOptional rs = some o) :
    ∃ u v, o.Splits rs u v := by
  obtain ⟨⟨a, i⟩, ha, h⟩ := List.exists_of_findSome?_eq_some h
  obtain ⟨⟨b, j⟩, hb, h⟩ := List.exists_of_findSome?_eq_some h
  exact splits_of_optionalPart? (List.mk_mem_zipIdx_iff_getElem?.mp ha)
    (List.mk_mem_zipIdx_iff_getElem?.mp (List.mem_of_mem_drop hb)) h

/-- In the definition of an optional nonterminal there is nothing to merge. -/
theorem not_splits_optionalRules {o : OptionalPart} {u v : Rule} : ¬o.Splits (optionalRules n) u v := by
  intro h
  have hone : ∀ r ∈ optionalRules n, r.length = 1 := by simp [optionalRules]
  have hshort := hone _ (List.mem_of_getElem? h.short)
  have hlong := hone _ (List.mem_of_getElem? h.long)
  rw [List.length_append] at hshort hlong
  rw [List.length_cons] at hlong
  omega

/-! ### Names for optional parts -/

/-- The name with number `i + 1` for an optional part. -/
def numberedName (base : String) (i : Nat) : String := base ++ "_" ++ toString (i + 1) ++ ">"

theorem numberedName_injective (base : String) : Function.Injective (numberedName base) := by
  intro i j h
  have htext := congrArg String.toList h
  simp only [numberedName, String.toList_append, List.append_assoc, List.append_cancel_left_eq] at htext
  have hdigits : toString (i + 1) = toString (j + 1) := String.toList_inj.mp (List.append_cancel_right htext)
  exact Nat.succ.inj (eq_of_toString_eq hdigits)

theorem isFreeFor_of_not_contains {rs : List Rule} (h : g.contains n = false) : g.isFreeFor rs n = true := by
  rw [isFreeFor, get?_eq_none_iff.mpr h]

theorem get?_of_isFreeFor {rs : List Rule} (h : g.isFreeFor rs n = true) :
    g.get? n = none ∨ g.get? n = some rs := by
  rw [isFreeFor] at h
  split at h
  · rename_i hget
    exact .inl hget
  · rename_i existing hget
    exact .inr (by rw [hget, of_decide_eq_true h])

/-- The name for an optional part may be defined as one. -/
theorem isFreeFor_optionalName (g : Grammar) (n : String) :
    g.isFreeFor (optionalRules n) (g.optionalName n) = true := by
  rw [optionalName]
  split
  · assumption
  · obtain ⟨i, hi, hundefined⟩ := g.exists_not_contains (numberedName_injective ("<opt_" ++ bareName n))
    have hfree : g.isFreeFor (optionalRules n) (numberedName ("<opt_" ++ bareName n) i) = true :=
      isFreeFor_of_not_contains hundefined
    obtain ⟨k, hk⟩ := Option.isSome_iff_exists.mp
      (List.find?_isSome.mpr ⟨_, List.mem_map_of_mem (List.mem_range.mpr hi), hfree⟩)
    have hname : g.isFreeFor (optionalRules n) ((List.find? (g.isFreeFor (optionalRules n))
        ((List.range (g.size + 1)).map (numberedName ("<opt_" ++ bareName n)))).getD
          ("<opt_" ++ bareName n ++ ">")) = true := by
      rw [hk]
      exact List.find?_some hk
    exact hname

/-! ### Merging -/

/-- The grammar with the definition of an optional part. -/
def withOptional (g : Grammar) (n : String) : Grammar := g.insert (g.optionalName n) (optionalRules n)

theorem grows_withOptional (g : Grammar) (n : String) : Grows g (g.withOptional n) := by
  intro m body hb
  rw [withOptional, alternatives_insert]
  split
  · rename_i h
    rw [alternatives, ← h] at hb
    rcases get?_of_isFreeFor (g.isFreeFor_optionalName n) with hget | hget
    · rw [hget] at hb
      exact absurd hb List.not_mem_nil
    · rwa [hget] at hb
  · exact hb

/-- A nonterminal with alternatives to merge is not an optional part. -/
theorem OptionalPart.Splits.optionalName_ne {o : OptionalPart} {u v : Rule}
    (h : o.Splits (g.alternatives n) u v) : g.optionalName o.name ≠ n := by
  intro hname
  rw [alternatives, ← hname] at h
  rcases get?_of_isFreeFor (g.isFreeFor_optionalName o.name) with hget | hget
  · rw [hget] at h
    cases h.short
  · rw [hget] at h
    exact not_splits_optionalRules h

theorem inLanguage_optional (hopt : g.alternatives m = optionalRules n) (h : w = [] ∨ InLanguage g n w) :
    InLanguage g m w := by
  rw [InLanguage, hopt]
  rcases h with rfl | h
  · exact ⟨_, List.mem_cons_self, derives_terminal_iff.mpr rfl⟩
  · exact ⟨_, List.mem_cons_of_mem _ (List.mem_singleton_self _), derives_singleton_iff.mpr h⟩

/-- The merged alternative derives what both alternatives derive. -/
theorem derives_merged {u v : Rule} (hopt : g.alternatives m = optionalRules n)
    (h : Derives g (u ++ v) w ∨ Derives g (u ++ .nonterminal n :: v) w) :
    Derives g (u ++ .nonterminal m :: v) w := by
  rcases h with h | h
  · obtain ⟨a, b, rfl, ha, hb⟩ := derives_append_iff.mp h
    refine ha.append (derives_nonterminal_cons_iff.mpr ⟨[], b, rfl, ?_, hb⟩)
    exact inLanguage_optional hopt (.inl rfl)
  · obtain ⟨a, b, rfl, ha, hb⟩ := derives_append_iff.mp h
    obtain ⟨c, d, rfl, hc, hd⟩ := derives_nonterminal_cons_iff.mp hb
    exact ha.append (derives_nonterminal_cons_iff.mpr ⟨c, d, rfl, inLanguage_optional hopt (.inr hc), hd⟩)

/-- The alternatives of `n` with the inserted nonterminal of the longer one made optional. -/
def withMerged (g : Grammar) (n : String) (o : OptionalPart) : List Rule :=
  ((g.withOptional o.name).alternatives n).modify o.long
    fun r => r.set o.point (.nonterminal (g.optionalName o.name))

theorem alternatives_mergeOptional (g : Grammar) (n : String) (o : OptionalPart) (m : String) :
    (g.mergeOptional n o).alternatives m =
      if n = m then distinct ((g.withMerged n o).eraseIdx o.short) else (g.withOptional o.name).alternatives m :=
  alternatives_insert (g.withOptional o.name) n _ m

section

variable {o : OptionalPart} {u v : Rule}

/-- The optional part is defined. -/
theorem OptionalPart.Splits.alternatives_optionalName (ho : o.Splits (g.alternatives n) u v) :
    (g.mergeOptional n o).alternatives (g.optionalName o.name) = optionalRules o.name := by
  rw [alternatives_mergeOptional, if_neg ho.optionalName_ne.symm, withOptional, alternatives_insert, if_pos rfl]

/-- The alternatives but the longer one stay in their places. -/
theorem OptionalPart.Splits.getElem?_withMerged (ho : o.Splits (g.alternatives n) u v) {i : Nat}
    (hi : i ≠ o.long) : (g.withMerged n o)[i]? = (g.alternatives n)[i]? := by
  rw [withMerged, List.getElem?_modify_ne _ _ hi.symm, withOptional, alternatives_insert,
    if_neg ho.optionalName_ne]

theorem OptionalPart.Splits.getElem?_withMerged_long (ho : o.Splits (g.alternatives n) u v) :
    (g.withMerged n o)[o.long]? = some (u ++ .nonterminal (g.optionalName o.name) :: v) := by
  rw [withMerged, List.getElem?_modify_eq, withOptional, alternatives_insert, if_neg ho.optionalName_ne,
    ho.long, ← ho.point]
  simp

/-- Merging two alternatives loses nothing. -/
theorem OptionalPart.Splits.includedIn (ho : o.Splits (g.alternatives n) u v) :
    IncludedIn g (g.mergeOptional n o) := by
  -- all alternatives but the shorter one are left
  have hleft : ∀ i body, i ≠ o.short → (g.withMerged n o)[i]? = some body →
      body ∈ (g.mergeOptional n o).alternatives n := by
    intro i body hi hbody
    rw [alternatives_mergeOptional, if_pos rfl, mem_distinct, List.mem_eraseIdx_iff_getElem?]
    exact ⟨i, hi, hbody⟩
  have hmerged := hleft o.long _ ho.short_ne_long.symm ho.getElem?_withMerged_long
  intro r w hd
  refine hd.of_alternatives fun m body x hb hx => ?_
  by_cases hm : n = m
  · subst hm
    obtain ⟨i, hi⟩ := List.mem_iff_getElem?.mp hb
    by_cases hshort : i = o.short
    · -- the optional part derives the empty string here
      rw [hshort, ho.short] at hi
      cases hi
      exact ⟨_, hmerged, derives_merged ho.alternatives_optionalName (.inl hx)⟩
    · by_cases hlong : i = o.long
      · rw [hlong, ho.long] at hi
        cases hi
        exact ⟨_, hmerged, derives_merged ho.alternatives_optionalName (.inr hx)⟩
      · exact ⟨body, hleft i body hshort ((ho.getElem?_withMerged hlong).trans hi), hx⟩
  · refine ⟨body, ?_, hx⟩
    rw [alternatives_mergeOptional, if_neg hm]
    exact g.grows_withOptional o.name m hb

end

/-! ### Factoring and tidying -/

section

variable {P : Grammar → Prop}
  (hmerge : ∀ g n o u v, OptionalPart.Splits o (g.alternatives n) u v → P g → P (g.mergeOptional n o))

include hmerge

theorem factorDefinition_induction (bound : Nat) (n : String) (hg : P g) : P (factorDefinition bound g n).1 := by
  induction bound generalizing g with
  | zero => exact hg
  | succ bound ih =>
    rw [factorDefinition]
    rcases hfind : findOptional (g.alternatives n) with - | o
    · exact hg
    · obtain ⟨u, v, ho⟩ := splits_of_findOptional hfind
      exact ih (hmerge g n o u v ho hg)

/-- What merging two alternatives keeps, factoring keeps. -/
theorem factorOptionals_induction (hg : P g) : P (factorOptionals g).1 := by
  rw [factorOptionals]
  generalize g.keys = names
  generalize false = changed
  induction names generalizing g changed with
  | nil => exact hg
  | cons n names ih =>
    rw [List.foldl_cons]
    exact ih (factorDefinition_induction hmerge _ n hg) _

/-- What merging two alternatives and one pass of inlining keep, tidying keeps. -/
theorem tidyWithin_induction (hinline : ∀ g, P g → P (inlineSingles g).1) {passes rounds : Nat} (hg : P g)
    (h : tidyWithin passes rounds g = some g') : P g' := by
  induction rounds generalizing g with
  | zero => cases h
  | succ rounds ih =>
    rw [tidyWithin] at h
    rcases hall : inlineAll passes g with - | ⟨g₁, inlined⟩
    · simp only [hall] at h
      cases h
    · simp only [hall] at h
      have hround := factorOptionals_induction hmerge (inlineAll_induction hinline hg hall)
      split at h
      · exact ih hround h
      · cases h
        exact hround

end

/-- Tidying loses nothing, whatever its bounds. -/
theorem tidyWithin_includedIn {passes rounds : Nat} (h : tidyWithin passes rounds g = some g') : IncludedIn g g' := by
  refine tidyWithin_induction (P := IncludedIn g) ?_ ?_ (.refl g) h
  · intro g₁ n o u v ho hg₁
    exact hg₁.trans ho.includedIn
  · intro g₁ hg₁
    exact hg₁.trans (inlineSingles_includedIn g₁)

end Grammar

end GrammarInference
