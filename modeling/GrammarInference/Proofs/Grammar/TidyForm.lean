/-
GrammarInference/Proofs/Grammar/TidyForm.lean

Tidying ends in a normal form.

Design.  Tidying stops after a round in which a pass of inlining and a call of factoring both say that they did
nothing, and what they say is true: both leave the grammar of that round as it is.  So a normal form is a grammar
that both steps leave alone, and it remains to read off what that means.  For inlining it is said by the flag.
The search for a pair of alternatives looks only at the first place where one is the other with a symbol inserted;
but the inserted symbol is the same at every such place, since the symbols of the two rules differ in it alone.

    u ++ v, u ++ X :: v ∈ alternatives n  →  X is an optional part
-/
import GrammarInference.Proofs.Grammar.Complete
import GrammarInference.Proofs.Grammar.Rounds
import Mathlib.Data.Multiset.AddSub

namespace GrammarInference

namespace Grammar

variable {g g' : Grammar} {n x : String} {rs : List Rule} {u v : Rule}

/-! ### The search misses no pair -/

theorem exists_insertionPoint? (u v : Rule) (s : Symbol) : ∃ k, insertionPoint? (u ++ v) (u ++ s :: v) = some k := by
  induction u with
  | nil =>
    cases v with
    | nil => exact ⟨0, rfl⟩
    | cons t v => exact ⟨0, by simp [insertionPoint?]⟩
  | cons t u ih =>
    obtain ⟨k, hk⟩ := ih
    rw [List.cons_append, List.cons_append, insertionPoint?]
    split
    · exact ⟨0, rfl⟩
    · exact ⟨k + 1, by rw [if_pos rfl, hk, Option.map_some]⟩

/-- Wherever one rule is the other with a symbol inserted, it is the same symbol. -/
theorem inserted_unique {u' v' : Rule} {s s' : Symbol} (hshort : u ++ v = u' ++ v')
    (hlong : u ++ s :: v = u' ++ s' :: v') : s = s' := by
  have hperm : (s :: (u ++ v)).Perm (s' :: (u ++ v)) := by
    have hmiddle : (s' :: (u' ++ v')).Perm (u' ++ s' :: v') := List.perm_middle.symm
    rw [← hlong, ← hshort] at hmiddle
    exact List.perm_middle.symm.trans hmiddle.symm
  have hset : s ::ₘ (↑(u ++ v) : Multiset Symbol) = s' ::ₘ ↑(u ++ v) := Multiset.coe_eq_coe.mpr hperm
  exact (Multiset.cons_inj_left _).mp hset

theorem isOptionalName_of_insertedPart?_eq_none {s l : Nat}
    (h : insertedPart? s l (u ++ v) (u ++ .nonterminal x :: v) = none) : isOptionalName x = true := by
  obtain ⟨k, hk⟩ := exists_insertionPoint? u v (.nonterminal x)
  obtain ⟨u', y, v', hshort, hlong, rfl⟩ := insertionPoint?_eq_some hk
  obtain rfl := inserted_unique hshort hlong
  have hy : (u ++ .nonterminal x :: v)[u'.length]? = some (.nonterminal x) := by
    rw [hlong]
    simp
  rw [insertedPart?, hk] at h
  simp only [hy, ite_eq_left_iff, reduceCtorEq, imp_false, not_not] at h
  exact h

/-- If no pair is found, then all that is ever inserted are optional parts. -/
theorem isOptionalName_of_findOptional_eq_none (h : findOptional rs = none) (hshort : u ++ v ∈ rs)
    (hlong : u ++ .nonterminal x :: v ∈ rs) : isOptionalName x = true := by
  have hpair : ∀ i j a b, rs[i]? = some a → rs[j]? = some b → i < j → optionalPart? i j a b = none := by
    intro i j a b ha hb hij
    have hrow := List.findSome?_eq_none_iff.mp h (a, i) (List.mk_mem_zipIdx_iff_getElem?.mpr ha)
    have hmem : (b, j) ∈ rs.zipIdx.drop (i + 1) := by
      refine List.mem_iff_getElem?.mpr ⟨j - (i + 1), ?_⟩
      rw [List.getElem?_drop, Nat.add_sub_cancel' hij, List.getElem?_zipIdx, hb]
      simp
    exact List.findSome?_eq_none_iff.mp hrow (b, j) hmem
  have hlen : (u ++ v).length < (u ++ .nonterminal x :: v).length := by simp
  obtain ⟨i, hi⟩ := List.mem_iff_getElem?.mp hshort
  obtain ⟨j, hj⟩ := List.mem_iff_getElem?.mp hlong
  rcases Nat.lt_trichotomy i j with hij | rfl | hji
  · have hnone := hpair i j _ _ hi hj hij
    rw [optionalPart?_eq, if_pos hlen] at hnone
    exact isOptionalName_of_insertedPart?_eq_none hnone
  · rw [hi, Option.some_inj] at hj
    rw [hj] at hlen
    exact absurd hlen (Nat.lt_irrefl _)
  · have hnone := hpair j i _ _ hj hi hji
    rw [optionalPart?_eq, if_neg hlen.not_gt] at hnone
    exact isOptionalName_of_insertedPart?_eq_none hnone

/-! ### What factoring leaves alone -/

theorem findOptional_of_factorDefinition (h : (factorDefinition (g.alternatives n).length g n).2 = false) :
    findOptional (g.alternatives n) = none := by
  rcases hrs : g.alternatives n with - | ⟨r, rs⟩
  · rfl
  · rw [hrs, List.length_cons, factorDefinition] at h
    rcases hfind : findOptional (g.alternatives n) with - | o
    · rw [← hrs, hfind]
    · simp only [hfind, Bool.true_eq_false] at h

/-- Factoring one definition, after others. -/
def factorStep (res : Grammar × Bool) (n : String) : Grammar × Bool :=
  ((factorDefinition (res.1.alternatives n).length res.1 n).1,
    res.2 || (factorDefinition (res.1.alternatives n).length res.1 n).2)

theorem factorOptionals_eq (g : Grammar) : factorOptionals g = g.keys.foldl factorStep (g, false) := rfl

theorem foldl_factorStep_true (g : Grammar) (names : List String) :
    (names.foldl factorStep (g, true)).2 = true := by
  induction names generalizing g with
  | nil => rfl
  | cons n names ih => exact ih _

theorem findOptional_of_foldl_factorStep {names : List String} (h : (names.foldl factorStep (g, false)).2 = false)
    (hn : n ∈ names) : findOptional (g.alternatives n) = none := by
  induction names with
  | nil => cases hn
  | cons k names ih =>
    rw [List.foldl_cons, factorStep, Bool.false_or] at h
    rcases factors_factorDefinition (g.alternatives k).length g k with ⟨hflag, hsame⟩ | ⟨hflag, -⟩
    · -- nothing was merged so far, so the other definitions are those of `g`
      simp only [hflag, hsame] at h
      rcases List.mem_cons.mp hn with rfl | hn
      · exact findOptional_of_factorDefinition hflag
      · exact ih h hn
    · simp only [hflag, foldl_factorStep_true] at h
      cases h

/-- If factoring says that it merged nothing, then there was nothing to merge. -/
theorem findOptional_of_factorOptionals (h : (factorOptionals g).2 = false) (n : String) :
    findOptional (g.alternatives n) = none := by
  rcases hget : g.get? n with - | rs
  · rw [alternatives, hget]
    rfl
  · rw [factorOptionals_eq] at h
    refine findOptional_of_foldl_factorStep h (OrderedMap.contains_iff_mem_keys.mp ?_)
    rw [OrderedMap.contains, hget]
    rfl

/-! ### Stable grammars -/

/-- Neither step changes the grammar, and both say so. -/
structure Stable (g : Grammar) : Prop where
  /-- A pass of inlining replaces nothing. -/
  inline : inlineSingles g = (g, false)
  /-- Factoring merges nothing. -/
  factor : factorOptionals g = (g, false)

theorem nodup_round {bound : Nat} {c : Bool} {g₁ : Grammar} (hg : ∀ n, (g.alternatives n).Nodup)
    (h : inlineAll bound g = some (g₁, c)) (n : String) : ((factorOptionals g₁).1.alternatives n).Nodup := by
  refine factorOptionals_induction (P := fun g => ∀ n, (g.alternatives n).Nodup) ?_ ?_ n
  · intro g n o u v _ hg m
    exact nodup_mergeOptional hg m
  · exact inlineAll_induction (P := fun g => ∀ n, (g.alternatives n).Nodup)
      (fun g hg n => nodup_inlineSingles hg n) hg h

/-- Tidying stops at a grammar that it would not change. -/
theorem stable_of_tidyWithin {passes rounds : Nat} (hg : ∀ n, (g.alternatives n).Nodup)
    (h : tidyWithin passes rounds g = some g') : Stable g' := by
  induction rounds generalizing g with
  | zero => cases h
  | succ rounds ih =>
    rcases hinline : inlineAll passes g with - | ⟨g₁, c⟩
    · simp only [tidyWithin, hinline] at h
      cases h
    · rw [tidyWithin_succ hinline] at h
      split at h
      · exact ih (nodup_round hg hinline) h
      · -- the last round
        rename_i hlast
        rw [Bool.or_eq_true, not_or, Bool.not_eq_true, Bool.not_eq_true] at hlast
        obtain ⟨rfl, hfactored⟩ := hlast
        have hone : inlineSingles g = (g₁, false) := inlineSingles_of_inlineAll_false hinline
        have htight : Tight g := fun n _ => hg n
        have hpass : g.pass = g := htight.pass_eq_self (by rw [hone])
        obtain rfl : g = g₁ := by rw [← hpass, pass, hone]
        have hsame : (factorOptionals g).1 = g := by
          rcases factors_factorOptionals g with ⟨-, hsame⟩ | ⟨hflag, -⟩
          · exact hsame
          · rw [hfactored] at hflag
            cases hflag
        rw [hsame] at h
        cases h
        exact ⟨hone, Prod.ext hsame hfactored⟩

theorem Stable.inlineAll (h : Stable g) {passes : Nat} (hp : 0 < passes) :
    Grammar.inlineAll passes g = some (g, false) := by
  obtain ⟨passes, rfl⟩ := Nat.exists_eq_add_of_le' hp
  rw [Grammar.inlineAll, h.inline]

theorem Stable.tidyWithin (h : Stable g) {passes rounds : Nat} (hp : 0 < passes) (hr : 0 < rounds) :
    Grammar.tidyWithin passes rounds g = some g := by
  obtain ⟨rounds, rfl⟩ := Nat.exists_eq_add_of_le' hr
  rw [tidyWithin_succ (h.inlineAll hp), h.factor]
  rfl

/-! ### The normal form -/

/-- What tidying makes of a valid grammar. -/
structure TidyForm (g : Grammar) : Prop where
  /-- Pattern roots apart, nothing mentions a nonterminal with one alternative, unless that mentions itself. -/
  inlined : ∀ n, isPatternRoot n = false → ∀ m ∈ g.mentions n, isPatternRoot m = false →
    (g.alternatives m).length = 1 → m ∈ g.mentions m
  /-- If one alternative is another one with a nonterminal inserted, then that is an optional part. -/
  factored : ∀ n u v x, u ++ v ∈ g.alternatives n → u ++ .nonterminal x :: v ∈ g.alternatives n →
    isOptionalName x = true
  /-- No alternative is listed twice. -/
  nodup : ∀ n, (g.alternatives n).Nodup
  /-- The grammar is valid. -/
  valid : g.validate = .ok ()

theorem Stable.tidyForm (h : Stable g) (hg : g.Valid) : TidyForm g where
  inlined := by
    intro n hroot m hm hroot' hone
    have hflag : ¬(inlineSingles g).2 = true := by rw [h.inline, Bool.not_eq_true]
    rw [inlineSingles_snd_iff] at hflag
    by_contra hself
    exact hflag ⟨n, hroot, m, hm, inlined_iff.mpr ⟨hroot', hone, hself⟩⟩
  factored := fun n u v x hshort hlong =>
    isOptionalName_of_findOptional_eq_none (findOptional_of_factorOptionals (by rw [h.factor]) n) hshort hlong
  nodup := hg.nodup
  valid := validate_eq_ok_iff.mpr hg

theorem Valid.tidyWithin {passes rounds : Nat} (hg : g.Valid) (h : tidyWithin passes rounds g = some g') :
    g'.Valid := by
  obtain ⟨R, hsub, hclosed, -⟩ := preserves_tidyWithin h _ hg.closed
  exact hclosed.valid (hsub (mem_reachableFrom_self hg.start)) (nodup_tidyWithin hg.nodup h)

/-- **Tidying reaches a normal form.**  Whatever tidying makes of a valid grammar is valid, lists no alternative
twice, has nothing left to inline and nothing left to factor, and stays as it is when it is tidied again; and so
whatever the numbers of passes and rounds after which tidying would be cut off. -/
theorem tidying_reaches_normal_form (hg : g.validate = .ok ()) :
    (∀ g', tidy g = some g' → TidyForm g' ∧ tidy g' = some g') ∧
      ∀ passes rounds g', tidyWithin passes rounds g = some g' → TidyForm g' ∧
        ∀ passes' rounds', 0 < passes' → 0 < rounds' → tidyWithin passes' rounds' g' = some g' := by
  have hvalid := validate_eq_ok_iff.mp hg
  have hform : ∀ passes rounds g', tidyWithin passes rounds g = some g' → Stable g' ∧ TidyForm g' := by
    intro passes rounds g' h
    have hstable := stable_of_tidyWithin hvalid.nodup h
    exact ⟨hstable, hstable.tidyForm (hvalid.tidyWithin h)⟩
  constructor
  · intro g' h
    obtain ⟨hstable, htidy⟩ := hform _ _ g' h
    have hbound : 0 < tidyBound g' := by rw [tidyBound]; omega
    exact ⟨htidy, hstable.tidyWithin hbound hbound⟩
  · intro passes rounds g' h
    obtain ⟨hstable, htidy⟩ := hform _ _ g' h
    exact ⟨htidy, fun passes' rounds' hp hr => hstable.tidyWithin hp hr⟩

/-- Numbers with a sign in front end in a normal form. -/
theorem tidyForm_signedNumbers : signedNumbers.validate = .ok () ∧
    ∃ g', tidy signedNumbers = some g' ∧ TidyForm g' ∧ tidy g' = some g' := by
  have hvalid : signedNumbers.validate = .ok () := by decide +kernel
  have hsome : (tidy signedNumbers).isSome = true := by decide +kernel
  obtain ⟨g', hg'⟩ := Option.isSome_iff_exists.mp hsome
  obtain ⟨htidy, -⟩ := tidying_reaches_normal_form hvalid
  exact ⟨hvalid, g', hg', htidy g' hg'⟩

end Grammar

end GrammarInference
