/-
GrammarInference/Proofs/Grammar/Rounds.lean

When rounds of inlining and factoring come to an end.

Design.  Inlining may merge alternatives into one, and factoring adds nonterminals, so neither the number of
alternatives nor that of nonterminals goes down from round to round.  Two things do, taken in this order: the
set of nonterminals with several alternatives, the added optional parts left out, and a weight.  The weight of a
nonterminal is the number of its alternatives beyond the first one, but an optional part weighs nothing while
the nonterminal that it makes optional cannot be inlined into it.  As long as the set stays the same, no
nonterminal starts to be inlined.  After the last pass of inlining only a pattern root still mentions one that
is inlined; it counts twice, which pays for the optional part that comes from it.

    tidying ends, unless it comes to a grammar whose inlining does not end
-/
import GrammarInference.Proofs.Grammar.Passes
import Mathlib.Algebra.Order.BigOperators.Group.Finset
import Mathlib.Data.Prod.Lex

namespace GrammarInference

namespace Grammar

variable {g g' g₁ : Grammar} {n m k : String} {r : Rule}

/-! ### What both steps keep -/

/-- The nonterminals with several alternatives, optional parts apart. -/
def branching (g : Grammar) : Finset String :=
  g.keys.toFinset.filter fun n => isOptionalName n = false ∧ 1 < (g.alternatives n).length

theorem mem_branching_iff : n ∈ g.branching ↔ isOptionalName n = false ∧ 1 < (g.alternatives n).length := by
  rw [branching, Finset.mem_filter, List.mem_toFinset, and_iff_right_iff_imp]
  rintro ⟨-, hlen⟩
  obtain ⟨r, hr⟩ := List.exists_mem_of_length_pos (Nat.zero_lt_of_lt hlen)
  exact OrderedMap.contains_iff_mem_keys.mp (contains_of_mem_alternatives hr)

/-- What passes and merges have in common. -/
structure Narrows (g g' : Grammar) : Prop where
  /-- Alternatives are not added. -/
  length_le : ∀ n, isOptionalName n = false → (g'.alternatives n).length ≤ (g.alternatives n).length
  /-- A nonterminal whose only alternative mentions it goes on to mention itself. -/
  mentions_self : ∀ n ∈ g.selfReferring, isOptionalName n = false → n ∈ g'.mentions n
  /-- An optional part stays one if nothing is put into it. -/
  optional : ∀ k n, g.alternatives k = optionalRules n → isPatternRoot k = true ∨ ¬Inlined g n →
    g'.alternatives k = optionalRules n

theorem Narrows.branching_subset (h : Narrows g g') : g'.branching ⊆ g.branching := by
  intro n hn
  obtain ⟨hopt, hlen⟩ := mem_branching_iff.mp hn
  exact mem_branching_iff.mpr ⟨hopt, hlen.trans_le (h.length_le n hopt)⟩

/-- While the same nonterminals have several alternatives, none starts to be inlined. -/
theorem Narrows.inlined (h : Narrows g g') (hsame : g'.branching = g.branching)
    (hopt : isOptionalName n = false) (hinl : Inlined g' n) : Inlined g n := by
  obtain ⟨hroot, hone, hself⟩ := inlined_iff.mp hinl
  have hle := h.length_le n hopt
  by_cases hsingle : (g.alternatives n).length = 1
  · refine inlined_iff.mpr ⟨hroot, hsingle, fun hmem => hself ?_⟩
    apply h.mentions_self n _ hopt
    exact mem_selfReferring_iff.mpr ⟨mem_singles_iff.mpr ⟨hroot, hsingle⟩, hmem⟩
  · -- several alternatives would have become one, and `n` would have left the set
    have hmany : n ∈ g.branching := mem_branching_iff.mpr ⟨hopt, by omega⟩
    rw [← hsame, mem_branching_iff] at hmany
    omega

/-- An optional part into which nothing can be put. -/
def AtRest (g : Grammar) (k : String) : Prop :=
  ∃ n, g.alternatives k = optionalRules n ∧ isOptionalName n = false ∧
    (isPatternRoot k = true ∨ ¬Inlined g n)

theorem Narrows.atRest (h : Narrows g g') (hsame : g'.branching = g.branching) (hk : AtRest g k) :
    AtRest g' k := by
  obtain ⟨n, hrs, hopt, hor⟩ := hk
  exact ⟨n, h.optional k n hrs hor, hopt, hor.imp_right fun hno hinl => hno (h.inlined hsame hopt hinl)⟩

/-- Optional parts apart, nonterminals that are no pattern roots mention none that is inlined. -/
def Settled (g : Grammar) : Prop :=
  ∀ n, isPatternRoot n = false → (∀ m, g.alternatives n ≠ optionalRules m) →
    ∀ m ∈ g.mentions n, isOptionalName m = false → ¬Inlined g m

/-! ### The weight -/

open Classical in
/-- How many more alternatives of `k` may be merged, or make others that may be. -/
noncomputable def weight (g : Grammar) (k : String) : Nat :=
  if AtRest g k then 0
  else if isPatternRoot k = true then 2 * ((g.alternatives k).length - 1)
  else (g.alternatives k).length - 1

theorem weight_of_atRest (h : AtRest g k) : weight g k = 0 := by rw [weight, if_pos h]

theorem weight_le_of_length_le (hrest : AtRest g k → AtRest g' k)
    (hlen : (g'.alternatives k).length ≤ (g.alternatives k).length) : weight g' k ≤ weight g k := by
  rw [weight, weight]
  split
  · exact Nat.zero_le _
  · rename_i hno
    rw [if_neg fun h => hno (hrest h)]
    split <;> omega

theorem weight_of_not_contains (h : g.contains k = false) : weight g k = 0 := by
  have hrs : g.alternatives k = [] := by rw [alternatives, get?_eq_none_iff.mpr h, Option.getD_none]
  rw [weight, hrs]
  split
  · rfl
  · split <;> rfl

/-- The weight of all nonterminals. -/
noncomputable def totalWeight (g : Grammar) : Nat := ∑ k ∈ g.keys.toFinset, weight g k

/-! ### Passes -/

theorem nodup_optionalRules (n : String) : (optionalRules n).Nodup := by simp [optionalRules, Symbol.epsilon]

theorem narrows_pass (g : Grammar) : Narrows g g.pass where
  length_le := fun n _ => g.length_alternatives_pass_le n
  mentions_self := fun n hn _ => (mem_selfReferring_iff.mp (g.selfReferring_subset_pass hn)).2
  optional := by
    rintro k n hrs hor
    by_cases hroot : isPatternRoot k = true
    · rw [alternatives_pass_of_root hroot, hrs]
    · have hno : ¬Inlined g n := hor.resolve_left hroot
      rcases g.pass_eq with ⟨hp, -⟩ | hp
      · rw [hp, hrs]
      · have hbody : ∀ b ∈ optionalRules n, inlineInto g.inlineBodies b = id b := by
          intro b hb
          apply inlineInto_of_not_inlined
          intro m hm
          simp only [optionalRules, List.mem_cons, List.not_mem_nil, or_false] at hb
          rcases hb with rfl | rfl
          · simp [Symbol.epsilon] at hm
          · simp only [List.mem_singleton, Symbol.nonterminal.injEq] at hm
            rwa [hm]
        rw [hp, alternatives_inlineAt, if_neg hroot, hrs, List.map_congr_left hbody, List.map_id,
          distinct_eq_self (nodup_optionalRules n)]

theorem totalWeight_pass_le (hsame : g.pass.branching = g.branching) : totalWeight g.pass ≤ totalWeight g := by
  rw [totalWeight, totalWeight, keys_pass]
  apply Finset.sum_le_sum
  intro k _
  exact weight_le_of_length_le ((narrows_pass g).atRest hsame) (g.length_alternatives_pass_le k)

theorem settled_pass (h : (inlineSingles g).2 = false) (hsame : g.pass.branching = g.branching) :
    Settled g.pass := by
  intro n hroot _ m hm hopt hinl
  obtain ⟨hno, -⟩ | ⟨k, hk, hkn, -⟩ := mentions_pass hroot hm
  · exact hno ((narrows_pass g).inlined hsame hopt hinl)
  · rw [← Bool.not_eq_true] at h
    exact h (inlineSingles_snd_iff.mpr ⟨n, hroot, k, hkn, hk⟩)

/-- Inlining to its end adds no weight and leaves the grammar settled, while the same nonterminals have several
alternatives. -/
theorem inlineAll_spec {bound : Nat} {changed : Bool} (h : inlineAll bound g = some (g', changed)) :
    g'.branching ⊆ g.branching ∧
      (g'.branching = g.branching → totalWeight g' ≤ totalWeight g ∧ Settled g') := by
  induction bound generalizing g changed with
  | zero => cases h
  | succ bound ih =>
    have hsub := (narrows_pass g).branching_subset
    rw [inlineAll] at h
    rcases hone : inlineSingles g with ⟨g₁, - | -⟩ <;> obtain rfl : g.pass = g₁ := by rw [pass, hone]
    · simp only [hone] at h
      cases h
      refine ⟨hsub, fun hsame => ⟨totalWeight_pass_le hsame, settled_pass ?_ hsame⟩⟩
      rw [hone]
    · simp only [hone] at h
      obtain ⟨⟨g₂, c⟩, hrest, heq⟩ := Option.map_eq_some_iff.mp h
      cases heq
      obtain ⟨hsub', hmore⟩ := ih hrest
      refine ⟨hsub'.trans hsub, fun hsame => ?_⟩
      -- the set is the same at the end, so it is the same after the first pass
      have hfirst : g.pass.branching = g.branching := hsub.antisymm (hsame ▸ hsub')
      obtain ⟨hle, hsettled⟩ := hmore (hsame.trans hfirst.symm)
      exact ⟨hle.trans (totalWeight_pass_le hfirst), hsettled⟩

/-! ### Merges -/

theorem isOptionalName_append (s : String) : isOptionalName ("<opt_" ++ s) = true := by
  simp [isOptionalName, String.toList_append]

/-- The names that are chosen for optional parts are marked as such. -/
theorem isOptionalName_optionalName (g : Grammar) (n : String) : isOptionalName (g.optionalName n) = true := by
  rw [optionalName]
  have hplain : isOptionalName ("<opt_" ++ bareName n ++ ">") = true := by
    rw [String.append_assoc]
    exact isOptionalName_append _
  split
  · exact hplain
  · rcases hfind : ((List.range (g.size + 1)).map fun i =>
        "<opt_" ++ bareName n ++ "_" ++ toString (i + 1) ++ ">").find? (g.isFreeFor (optionalRules n)) with - | k
    · exact hplain
    · obtain ⟨i, -, rfl⟩ := List.mem_map.mp (List.mem_of_find?_eq_some hfind)
      rw [Option.getD_some, String.append_assoc, String.append_assoc, String.append_assoc]
      exact isOptionalName_append _

section

variable {o : OptionalPart} {u v : Rule}

theorem OptionalPart.Splits.two_le_length (ho : o.Splits (g.alternatives n) u v) :
    2 ≤ (g.alternatives n).length := by
  have hshort := (List.getElem?_eq_some_iff.mp ho.short).1
  have hlong := (List.getElem?_eq_some_iff.mp ho.long).1
  have hne := ho.short_ne_long
  omega

theorem OptionalPart.Splits.length_lt (ho : o.Splits (g.alternatives n) u v) :
    ((g.mergeOptional n o).alternatives n).length < (g.alternatives n).length := by
  have hshort := (List.getElem?_eq_some_iff.mp ho.short).1
  have hlen : (g.withMerged n o).length = (g.alternatives n).length := by
    rw [withMerged, List.length_modify, withOptional, alternatives_insert, if_neg ho.optionalName_ne]
  rw [alternatives_mergeOptional, if_pos rfl]
  have hle := length_distinct_le ((g.withMerged n o).eraseIdx o.short)
  rw [List.length_eraseIdx_of_lt (hlen ▸ hshort), hlen] at hle
  omega

theorem ne_optionalName (h : isOptionalName m = false) : g.optionalName k ≠ m := by
  rintro rfl
  rw [isOptionalName_optionalName] at h
  cases h

theorem OptionalPart.Splits.narrows (ho : o.Splits (g.alternatives n) u v) :
    Narrows g (g.mergeOptional n o) where
  length_le := by
    intro m hm
    by_cases hn : n = m
    · subst hn
      exact ho.length_lt.le
    · rw [alternatives_mergeOptional_of_ne hn (ne_optionalName hm)]
  mentions_self := by
    intro m hm hopt
    obtain ⟨hsingle, hself⟩ := mem_selfReferring_iff.mp hm
    have hn : n ≠ m := by
      rintro rfl
      have hone := (mem_singles_iff.mp hsingle).2
      have htwo := ho.two_le_length
      omega
    rwa [Grammar.mentions, alternatives_mergeOptional_of_ne hn (ne_optionalName hopt)]
  optional := by
    intro k m hrs _
    have hn : n ≠ k := by
      rintro rfl
      rw [hrs] at ho
      exact not_splits_optionalRules ho
    by_cases hname : g.optionalName o.name = k
    · -- the part was there already, as it is now
      subst hname
      have hcontains : g.contains (g.optionalName o.name) = true := by
        have hmem : [Symbol.epsilon] ∈ g.alternatives (g.optionalName o.name) := hrs ▸ List.mem_cons_self
        exact contains_of_mem_alternatives hmem
      rw [ho.alternatives_optionalName, ← hrs, alternatives_optionalName_of_contains hcontains]
    · rw [alternatives_mergeOptional_of_ne hn hname, hrs]

/-- A settled grammar stays settled: a merge mentions nothing new but an optional part. -/
theorem OptionalPart.Splits.settled (ho : o.Splits (g.alternatives n) u v) (hs : Settled g)
    (hsame : (g.mergeOptional n o).branching = g.branching) : Settled (g.mergeOptional n o) := by
  intro k hroot hk m hm hopt hinl
  have hinl' := ho.narrows.inlined hsame hopt hinl
  have hname : g.optionalName o.name ≠ k := by
    rintro rfl
    exact hk o.name ho.alternatives_optionalName
  obtain ⟨body, hbody, hmem⟩ := mem_mentions_iff.mp hm
  by_cases hn : n = k
  · subst hn
    have hsettled : ∀ b ∈ g.alternatives n, Symbol.nonterminal m ∉ b := by
      intro b hb hmb
      refine hs n hroot (fun j hj => ?_) m (mem_mentions_of_mem hb hmb) hopt hinl'
      rw [hj] at ho
      exact not_splits_optionalRules ho
    rcases ho.mem_or_eq_merged hbody with hold | rfl
    · exact hsettled body hold hmem
    · have hshort := hsettled _ (List.mem_of_getElem? ho.short)
      simp only [List.mem_append, List.mem_cons, Symbol.nonterminal.injEq] at hmem hshort
      rcases hmem with hu | heq | hv
      · exact hshort (.inl hu)
      · exact ne_optionalName hopt heq.symm
      · exact hshort (.inr hv)
  · rw [alternatives_mergeOptional_of_ne hn hname] at hbody
    refine hs k hroot (fun j => ?_) m (mem_mentions_of_mem hbody hmem) hopt hinl'
    rw [← alternatives_mergeOptional_of_ne hn hname]
    exact hk j

/-- The optional part weighs less than what is saved by the merge that it comes from. -/
theorem OptionalPart.Splits.weight_lt (ho : o.Splits (g.alternatives n) u v) (hs : Settled g)
    (hopt : isOptionalName o.name = false) (hsame : (g.mergeOptional n o).branching = g.branching) :
    weight (g.mergeOptional n o) n + weight (g.mergeOptional n o) (g.optionalName o.name) <
      weight g n + weight g (g.optionalName o.name) := by
  have hnot : ∀ m, g.alternatives n ≠ optionalRules m := by
    intro m hm
    rw [hm] at ho
    exact not_splits_optionalRules ho
  have hmoving : ¬AtRest g n := fun ⟨m, hm, _⟩ => hnot m hm
  have hlt := ho.length_lt
  have htwo := ho.two_le_length
  -- what `n` weighs less
  have hn : weight (g.mergeOptional n o) n + (if isPatternRoot n = true then 2 else 1) ≤ weight g n := by
    rw [weight, weight, if_neg hmoving]
    split_ifs <;> omega
  by_cases hroot : isPatternRoot n = true
  · -- the optional part weighs at most one
    have hpart : weight (g.mergeOptional n o) (g.optionalName o.name) ≤ 1 := by
      rw [weight]
      split
      · exact Nat.zero_le _
      · rename_i hno
        split
        · rename_i hpart
          exact absurd ⟨_, ho.alternatives_optionalName, hopt, .inl hpart⟩ hno
        · rw [ho.alternatives_optionalName]
          exact Nat.le_refl _
    rw [if_pos hroot] at hn
    omega
  · -- the optional part is at rest
    have hfixed : ¬Inlined (g.mergeOptional n o) o.name := by
      intro hinl
      rw [Bool.not_eq_true] at hroot
      apply hs n hroot hnot o.name _ hopt (ho.narrows.inlined hsame hopt hinl)
      exact mem_mentions_of_mem (List.mem_of_getElem? ho.long) (List.mem_append_right u List.mem_cons_self)
    have hpart : weight (g.mergeOptional n o) (g.optionalName o.name) = 0 :=
      weight_of_atRest ⟨_, ho.alternatives_optionalName, hopt, .inr hfixed⟩
    rw [if_neg hroot] at hn
    omega

theorem sum_lt_sum_of_pair {s : Finset String} {f f' : String → Nat} (hn : n ∈ s) (hk : k ∈ s) (hne : k ≠ n)
    (hpair : f' n + f' k < f n + f k) (hrest : ∀ m, n ≠ m → k ≠ m → f' m ≤ f m) :
    ∑ m ∈ s, f' m < ∑ m ∈ s, f m := by
  have hk' : k ∈ s.erase n := Finset.mem_erase.mpr ⟨hne, hk⟩
  rw [← Finset.add_sum_erase s f' hn, ← Finset.add_sum_erase s f hn, ← Finset.add_sum_erase _ f' hk',
    ← Finset.add_sum_erase _ f hk']
  have hothers : ∑ m ∈ (s.erase n).erase k, f' m ≤ ∑ m ∈ (s.erase n).erase k, f m := by
    apply Finset.sum_le_sum
    intro m hm
    obtain ⟨hmk, hm⟩ := Finset.mem_erase.mp hm
    exact hrest m (Finset.ne_of_mem_erase hm).symm hmk.symm
  omega

theorem OptionalPart.Splits.keys_toFinset (ho : o.Splits (g.alternatives n) u v) :
    (g.mergeOptional n o).keys.toFinset = Insert.insert (g.optionalName o.name) g.keys.toFinset := by
  ext k
  have hn : g.contains n = true := contains_of_mem_alternatives (List.mem_of_getElem? ho.short)
  rw [List.mem_toFinset, ← OrderedMap.contains_iff_mem_keys, contains_mergeOptional_iff, Finset.mem_insert,
    List.mem_toFinset, ← OrderedMap.contains_iff_mem_keys]
  constructor
  · rintro (rfl | rfl | h)
    · exact .inr hn
    · exact .inl rfl
    · exact .inr h
  · rintro (rfl | h)
    · exact .inr (.inl rfl)
    · exact .inr (.inr h)

theorem OptionalPart.Splits.totalWeight_lt (ho : o.Splits (g.alternatives n) u v) (hs : Settled g)
    (hopt : isOptionalName o.name = false) (hsame : (g.mergeOptional n o).branching = g.branching) :
    totalWeight (g.mergeOptional n o) < totalWeight g := by
  have hnew : totalWeight g = ∑ k ∈ Insert.insert (g.optionalName o.name) g.keys.toFinset, weight g k := by
    apply Finset.sum_subset (Finset.subset_insert _ _)
    intro k _ hk
    apply weight_of_not_contains
    rwa [← Bool.not_eq_true, OrderedMap.contains_iff_mem_keys, ← List.mem_toFinset]
  rw [hnew, totalWeight, ho.keys_toFinset]
  refine sum_lt_sum_of_pair ?_ (Finset.mem_insert_self _ _) ho.optionalName_ne (ho.weight_lt hs hopt hsame) ?_
  · apply Finset.mem_insert_of_mem
    rw [List.mem_toFinset, ← OrderedMap.contains_iff_mem_keys]
    exact contains_of_mem_alternatives (List.mem_of_getElem? ho.short)
  · intro k hn hname
    refine weight_le_of_length_le (ho.narrows.atRest hsame) ?_
    rw [alternatives_mergeOptional_of_ne hn hname]

end

/-! ### Factoring -/

/-- Two alternatives of some nonterminal are merged, and the inserted nonterminal is not an optional part. -/
def Merges (g g' : Grammar) : Prop :=
  ∃ n o u v, o.Splits (g.alternatives n) u v ∧ isOptionalName o.name = false ∧ g' = g.mergeOptional n o

/-- Merges go down, in a settled grammar and while the same nonterminals have several alternatives. -/
theorem merges_spec (h : Relation.TransGen Merges g g') :
    g'.branching ⊆ g.branching ∧ (Settled g → g'.branching = g.branching → totalWeight g' < totalWeight g) := by
  -- from the front, since each merge finds the grammar settled by those before it
  induction h using Relation.TransGen.head_induction_on with
  | single hstep =>
    obtain ⟨n, o, u, v, ho, hopt, rfl⟩ := hstep
    exact ⟨ho.narrows.branching_subset, fun hs hsame => ho.totalWeight_lt hs hopt hsame⟩
  | head hstep _ ih =>
    obtain ⟨n, o, u, v, ho, hopt, rfl⟩ := hstep
    obtain ⟨hsub', hmore⟩ := ih
    have hsub := ho.narrows.branching_subset
    refine ⟨hsub'.trans hsub, fun hs hsame => ?_⟩
    have hfirst := hsub.antisymm (hsame ▸ hsub')
    have hlt := hmore (ho.settled hs hfirst) (hsame.trans hfirst.symm)
    exact hlt.trans (ho.totalWeight_lt hs hopt hfirst)

theorem isOptionalName_of_insertedPart? {s l : Nat} {short long : Rule} {o : OptionalPart}
    (h : insertedPart? s l short long = some o) : isOptionalName o.name = false := by
  rw [insertedPart?] at h
  split at h
  · cases h
  · split at h
    · split at h
      · cases h
      · rename_i hopt
        cases h
        simpa using hopt
    · cases h

theorem isOptionalName_of_findOptional {rs : List Rule} {o : OptionalPart} (h : findOptional rs = some o) :
    isOptionalName o.name = false := by
  obtain ⟨⟨a, i⟩, -, h⟩ := List.exists_of_findSome?_eq_some h
  obtain ⟨⟨b, j⟩, -, h⟩ := List.exists_of_findSome?_eq_some h
  simp only [optionalPart?_eq] at h
  split at h
  · exact isOptionalName_of_insertedPart? h
  · exact isOptionalName_of_insertedPart? h

/-- Factoring is a run of merges, and tells if there was one. -/
def Factors (g : Grammar) (res : Grammar × Bool) : Prop :=
  res.2 = false ∧ res.1 = g ∨ res.2 = true ∧ Relation.TransGen Merges g res.1

theorem factors_factorDefinition (bound : Nat) (g : Grammar) (n : String) :
    Factors g (factorDefinition bound g n) := by
  induction bound generalizing g with
  | zero => exact .inl ⟨rfl, rfl⟩
  | succ bound ih =>
    rw [factorDefinition]
    rcases hfind : findOptional (g.alternatives n) with - | o
    · exact .inl ⟨rfl, rfl⟩
    · obtain ⟨u, v, ho⟩ := splits_of_findOptional hfind
      have hstep : Merges g (g.mergeOptional n o) :=
        ⟨n, o, u, v, ho, isOptionalName_of_findOptional hfind, rfl⟩
      refine .inr ⟨rfl, ?_⟩
      rcases ih (g.mergeOptional n o) with ⟨-, hsame⟩ | ⟨-, hmore⟩
      · rw [hsame]
        exact .single hstep
      · exact .head hstep hmore

theorem factors_factorOptionals (g : Grammar) : Factors g (factorOptionals g) := by
  rw [factorOptionals]
  have hsofar : Factors g (g, false) := .inl ⟨rfl, rfl⟩
  generalize g.keys = names
  generalize (g, false) = res at hsofar ⊢
  induction names generalizing res with
  | nil => exact hsofar
  | cons n names ih =>
    rw [List.foldl_cons]
    apply ih
    obtain ⟨g₁, c⟩ := res
    rcases hsofar with ⟨hno, hsame⟩ | ⟨hyes, hsteps⟩
    · cases hno
      cases hsame
      exact factors_factorDefinition _ g₁ n
    · cases hyes
      refine .inr ⟨rfl, ?_⟩
      rcases factors_factorDefinition (g₁.alternatives n).length g₁ n with ⟨-, hsame⟩ | ⟨-, hmore⟩
      · rw [hsame]
        exact hsteps
      · exact hsteps.trans hmore

/-! ### Rounds -/

/-- What goes down in every round that merges alternatives. -/
noncomputable def descent (g : Grammar) : ℕ ×ₗ ℕ := toLex (g.branching.card, g.totalWeight)

theorem descent_lt {bound : Nat} {c : Bool} (hinline : inlineAll bound g = some (g₁, c))
    (hfactor : Relation.TransGen Merges g₁ g') : descent g' < descent g := by
  obtain ⟨hsub, hmore⟩ := inlineAll_spec hinline
  obtain ⟨hsub', hmore'⟩ := merges_spec hfactor
  rw [descent, descent, Prod.Lex.toLex_lt_toLex]
  by_cases hsame : g'.branching = g.branching
  · -- the weight went down by the merges, and inlining before them did not raise it
    have hfirst : g₁.branching = g.branching := hsub.antisymm (hsame ▸ hsub')
    obtain ⟨hle, hsettled⟩ := hmore hfirst
    have hlt := hmore' hsettled (hsame.trans hfirst.symm)
    exact .inr ⟨by rw [hsame], hlt.trans_le hle⟩
  · exact .inl (Finset.card_lt_card ((hsub'.trans hsub).ssubset_of_ne hsame))

theorem inlineAll_mono {bound bound' : Nat} {res : Grammar × Bool} (h : inlineAll bound g = some res)
    (hle : bound ≤ bound') : inlineAll bound' g = some res := by
  induction bound generalizing g bound' res with
  | zero => cases h
  | succ bound ih =>
    obtain ⟨bound', rfl⟩ := Nat.exists_eq_add_of_le' (Nat.zero_lt_of_lt hle)
    rw [inlineAll] at h ⊢
    rcases hone : inlineSingles g with ⟨g₁, - | -⟩
    · simpa only [hone] using h
    · simp only [hone] at h ⊢
      obtain ⟨res', hrest, heq⟩ := Option.map_eq_some_iff.mp h
      rw [ih hrest (by omega), Option.map_some, heq]

theorem inlineAll_unique {bound bound' : Nat} {res res' : Grammar × Bool} (h : inlineAll bound g = some res)
    (h' : inlineAll bound' g = some res') : res = res' := by
  have hmax := inlineAll_mono h (Nat.le_max_left bound bound')
  rw [inlineAll_mono h' (Nat.le_max_right bound bound')] at hmax
  exact (Option.some.inj hmax).symm

theorem tidyWithin_succ {passes rounds : Nat} {c : Bool} (h : inlineAll passes g = some (g₁, c)) :
    tidyWithin passes (rounds + 1) g =
      if c || (factorOptionals g₁).2 then tidyWithin passes rounds (factorOptionals g₁).1
      else some (factorOptionals g₁).1 := by
  rw [tidyWithin]
  simp only [h]

theorem tidyWithin_mono {passes passes' rounds rounds' : Nat} (h : tidyWithin passes rounds g = some g')
    (hp : passes ≤ passes') (hr : rounds ≤ rounds') : tidyWithin passes' rounds' g = some g' := by
  induction rounds generalizing g rounds' with
  | zero => cases h
  | succ rounds ih =>
    obtain ⟨rounds', rfl⟩ := Nat.exists_eq_add_of_le' (Nat.zero_lt_of_lt hr)
    rcases hinline : inlineAll passes g with - | ⟨g₁, c⟩
    · simp only [tidyWithin, hinline] at h
      cases h
    · rw [tidyWithin_succ hinline] at h
      rw [tidyWithin_succ (inlineAll_mono hinline hp)]
      split
      · rename_i hmore
        rw [if_pos hmore] at h
        exact ih h (by omega)
      · rename_i hlast
        rwa [if_neg hlast] at h

/-- Tidying comes to an end, whatever the numbers of passes and rounds it takes. -/
def TidyingEnds (g : Grammar) : Prop := ∃ passes rounds, (tidyWithin passes rounds g).isSome = true

/-- A round that changes something and so is followed by another one. -/
def Round (g g' : Grammar) : Prop :=
  ∃ bound g₁ c, inlineAll bound g = some (g₁, c) ∧ (factorOptionals g₁).1 = g' ∧
    (c || (factorOptionals g₁).2) = true

theorem Round.tidyingEnds_iff (h : Round g g') : TidyingEnds g ↔ TidyingEnds g' := by
  obtain ⟨bound, g₁, c, hinline, rfl, hmore⟩ := h
  constructor
  · rintro ⟨passes, rounds, hsome⟩
    cases rounds with
    | zero => cases hsome
    | succ rounds =>
      rcases hinline' : inlineAll passes g with - | res
      · simp only [tidyWithin, hinline'] at hsome
        cases hsome
      · obtain rfl := inlineAll_unique hinline hinline'
        rw [tidyWithin_succ hinline', if_pos hmore] at hsome
        exact ⟨passes, rounds, hsome⟩
  · rintro ⟨passes, rounds, hsome⟩
    obtain ⟨g', hg'⟩ := Option.isSome_iff_exists.mp hsome
    refine ⟨max bound passes, rounds + 1, ?_⟩
    rw [tidyWithin_succ (inlineAll_mono hinline (Nat.le_max_left _ _)), if_pos hmore,
      tidyWithin_mono hg' (Nat.le_max_right _ _) (Nat.le_refl _)]
    rfl

theorem TidyingEnds.inliningEnds (h : TidyingEnds g) : InliningEnds g := by
  obtain ⟨passes, rounds, hsome⟩ := h
  cases rounds with
  | zero => cases hsome
  | succ rounds =>
    refine ⟨passes, ?_⟩
    rcases hinline : inlineAll passes g with - | res
    · simp only [tidyWithin, hinline] at hsome
      cases hsome
    · rfl

theorem inlineSingles_of_inlineAll_false {bound : Nat} (h : inlineAll bound g = some (g', false)) :
    inlineSingles g = (g', false) := by
  cases bound with
  | zero => cases h
  | succ bound =>
    rw [inlineAll] at h
    rcases hone : inlineSingles g with ⟨g₁, - | -⟩
    · simp only [hone] at h
      cases h
      rfl
    · simp only [hone] at h
      obtain ⟨res, -, heq⟩ := Option.map_eq_some_iff.mp h
      cases heq

/-- After inlining to its end there is nothing left to inline, if there was something before. -/
theorem inlineSingles_of_inlineAll_true {bound : Nat} (h : inlineAll bound g = some (g', true)) :
    inlineSingles g' = (g', false) := by
  induction bound generalizing g with
  | zero => cases h
  | succ bound ih =>
    rw [inlineAll] at h
    rcases hone : inlineSingles g with ⟨g₁, - | -⟩
    · simp only [hone] at h
      cases h
    · obtain rfl : g.pass = g₁ := by rw [pass, hone]
      simp only [hone] at h
      obtain ⟨⟨g₂, c⟩, hrest, heq⟩ := Option.map_eq_some_iff.mp h
      cases heq
      cases c with
      | true => exact ih hrest
      | false =>
        -- the first pass was the only one, and its grammar is left as it is
        have hlast := inlineSingles_of_inlineAll_false hrest
        have hsame : g.pass.pass = g.pass := (tight_pass (by rw [hone])).pass_eq_self (by rw [hlast])
        obtain rfl : g.pass = g₂ := by rw [← hsame, pass, hlast]
        exact hlast

/-- After a round without merges, the next round is the last one. -/
theorem tidyingEnds_of_factored_eq_false {bound : Nat} {c : Bool} (hinline : inlineAll bound g = some (g₁, c))
    (hfactor : factorOptionals g₁ = (g₁, false)) : TidyingEnds g := by
  cases c with
  | false =>
    refine ⟨bound, 1, ?_⟩
    rw [tidyWithin_succ hinline, hfactor]
    rfl
  | true =>
    have hround : Round g g₁ := ⟨bound, g₁, true, hinline, by rw [hfactor], rfl⟩
    have hlast : inlineAll 1 g₁ = some (g₁, false) := by
      rw [inlineAll, inlineSingles_of_inlineAll_true hinline]
    rw [hround.tidyingEnds_iff]
    refine ⟨1, 1, ?_⟩
    rw [tidyWithin_succ hlast, hfactor]
    rfl

/-- Only inlining can keep tidying from coming to an end. -/
theorem tidyingEnds_of_inliningEnds (h : ∀ g', Relation.ReflTransGen Round g g' → InliningEnds g') :
    TidyingEnds g := by
  induction hdescent : descent g using WellFoundedLT.induction generalizing g with
  | ind d ih =>
    obtain ⟨bound, hsome⟩ := h g .refl
    obtain ⟨⟨g₁, c⟩, hinline⟩ := Option.isSome_iff_exists.mp hsome
    rcases factors_factorOptionals g₁ with ⟨hflag, hsame⟩ | ⟨hflag, hsteps⟩
    · exact tidyingEnds_of_factored_eq_false hinline (Prod.ext hsame hflag)
    · -- alternatives were merged, so what is left goes down
      have hround : Round g (factorOptionals g₁).1 := ⟨bound, g₁, c, hinline, rfl, by rw [hflag, Bool.or_true]⟩
      rw [hround.tidyingEnds_iff]
      refine ih _ ?_ (fun g' hg' => h g' (.head hround hg')) rfl
      rw [← hdescent]
      exact descent_lt hinline hsteps

theorem tidyingEnds_iff : TidyingEnds g ↔ ∀ g', Relation.ReflTransGen Round g g' → InliningEnds g' := by
  constructor
  · intro h g' hrounds
    have hends : TidyingEnds g' := by
      induction hrounds with
      | refl => exact h
      | tail _ hround ih => exact hround.tidyingEnds_iff.mp ih
    exact hends.inliningEnds
  · exact tidyingEnds_of_inliningEnds

/-- **Circles are all that keeps tidying from its end.**  Passes of inlining end, unless from some pass on every
pass leaves a circle of nonterminals that are inlined; and rounds of inlining and factoring end, unless one of
them comes to a grammar whose inlining does not. -/
theorem tidying_ends_unless_circular (g : Grammar) :
    (InliningEnds g ↔ (inlineSingles g).2 = false ∨ ∀ k, ∃ j ≥ k, ¬Circular (pass^[j] g)) ∧
      (TidyingEnds g ↔ ∀ g', Relation.ReflTransGen Round g g' → InliningEnds g') :=
  ⟨inliningEnds_iff, tidyingEnds_iff⟩

/-- A valid grammar with a circle that persists: tidying it does not end. -/
theorem circle_not_tidyingEnds :
    circle.validate = .ok () ∧ ¬InliningEnds circle ∧ ¬TidyingEnds circle := by
  have hvalid : circle.validate = .ok () := by decide +kernel
  have hinlining : ¬InliningEnds circle := by
    rintro ⟨bound, hsome⟩
    rw [(inlineAll_circle bound).1] at hsome
    cases hsome
  exact ⟨hvalid, hinlining, fun h => hinlining h.inliningEnds⟩

end Grammar

end GrammarInference
