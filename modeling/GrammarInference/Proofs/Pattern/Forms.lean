/-
GrammarInference/Proofs/Pattern/Forms.lean

What a pattern derives in each form in which it is tried.

Design.  A pattern of the library is tried as it is or narrowed, plain or behind white space; a `Form` says which.
The definitions that are added for white space have names of their own, so that the fragment inside keeps its
meaning, and a root behind white space derives what the root inside derives, with white space put in front.  All
this comes together in one expression for the words of a root (`Form.strict`, `Form.inLanguage_root_iff`).

The expression of a form matches the same words, unless it is one of the loose ones that is not narrowed
(`Form.matches_iff_strict`).
-/
import GrammarInference.Generalization.Generalizer
import GrammarInference.Proofs.Pattern.Narrowed
import GrammarInference.Proofs.Refinement.Narrowing

namespace GrammarInference

open Grammar (Within)

variable {p : Pattern} {chars : SortedSet Char} {id : Nat} {n m c : String} {r : Regex} {l w : List Char}

/-! ### Names for white space -/

theorem isReserved_of_isExternal (h : isExternal n = true) : isReserved n = true := by
  obtain ⟨t, ht⟩ := List.isPrefixOf_iff_prefix.mp h
  rw [isReserved, ← ht]
  rfl

namespace Pattern

theorem toList_spacedName (id : Nat) (n : String) : (spacedName id n).toList =
    '<' :: 'p' :: 'r' :: 'e' :: ("_ws".toList ++ (toString id).toList ++ "_".toList ++ (bareName n).toList ++ ['>']) := by
  simp [spacedName, String.toList_append]

theorem isReserved_spacedName (id : Nat) (n : String) : isReserved (spacedName id n) = true := by
  rw [isReserved, toList_spacedName]
  rfl

theorem isExternal_spacedName (id : Nat) (n : String) : isExternal (spacedName id n) = false := by
  rw [isExternal, toList_spacedName]
  rfl

theorem spacedName_inj (hn : isNonterminalName n = true) (hm : isNonterminalName m = true)
    (h : spacedName id n = spacedName id m) : n = m := by
  refine eq_of_bareName_eq hn hm ?_
  rw [← String.toList_inj, toList_spacedName, toList_spacedName] at h
  simpa using h

/-- A name that is made for white space. -/
def spaceName (id : Nat) (ending : String) : String := "<ws" ++ toString id ++ ending

theorem toList_spaceName (id : Nat) (ending : String) : (spaceName id ending).toList =
    '<' :: 'w' :: 's' :: ((toString id).toList ++ ending.toList) := by
  simp [spaceName, String.toList_append]

theorem isReserved_spaceName (id : Nat) (ending : String) : isReserved (spaceName id ending) = true := by
  obtain ⟨d, rest, hd⟩ := List.exists_cons_of_ne_nil (toList_toString_ne_nil id)
  rw [isReserved, toList_spaceName, hd]
  exact isAsciiDigit_of_mem_toString (hd ▸ List.mem_cons_self)

theorem isExternal_spaceName (id : Nat) (ending : String) : isExternal (spaceName id ending) = false := by
  rw [isExternal, toList_spaceName]
  rfl

theorem spacedName_ne_spaceName (id : Nat) (n ending : String) : spacedName id n ≠ spaceName id ending := by
  rw [Ne, ← String.toList_inj, toList_spacedName, toList_spaceName]
  simp

theorem spacedName_ne_spaceRunName (id : Nat) (n : String) : spacedName id n ≠ spaceRunName id :=
  spacedName_ne_spaceName id n "_str>"

theorem spacedName_ne_spaceCharName (id : Nat) (n : String) : spacedName id n ≠ spaceCharName id :=
  spacedName_ne_spaceName id n "_char>"

theorem spaceRunName_ne_spaceCharName (id : Nat) : spaceRunName id ≠ spaceCharName id := by
  rw [Ne, ← String.toList_inj]
  change (spaceName id "_str>").toList ≠ (spaceName id "_char>").toList
  simp [toList_spaceName]

/-! ### White space in front -/

theorem alternatives_spaceGrammar (l : List Char) (id : Nat) (n : String) : (spaceGrammar l id).alternatives n =
    if spaceCharName id = n then charRules l
    else if spaceRunName id = n then runRules (spaceRunName id) (spaceCharName id) else [] := by
  change Grammar.alternatives (OrderedMap.insert (OrderedMap.insert OrderedMap.empty _ _) _ _) n = _
  rw [Grammar.alternatives_insert, Grammar.alternatives_insert]
  rfl

theorem contains_spaceGrammar_iff {l : List Char} : (spaceGrammar l id).contains n = true ↔
    spaceCharName id = n ∨ spaceRunName id = n := by
  change (OrderedMap.insert (OrderedMap.insert OrderedMap.empty _ _) _ _).contains n = true ↔ _
  rw [Grammar.contains_insert, Grammar.contains_insert]
  simp [OrderedMap.contains, OrderedMap.get?, OrderedMap.find, OrderedMap.empty]

/-- What is added to a fragment for white space: a run, and its roots behind it. -/
structure Spaced (p : Pattern) (chars : SortedSet Char) (id : Nat) (g : Grammar) : Prop where
  /-- The definitions inside stay. -/
  inner : ∀ n, isReserved n = false → g.alternatives n = p.grammar.alternatives n
  /-- A run of white space. -/
  run : g.alternatives (spaceRunName id) = runRules (spaceRunName id) (spaceCharName id)
  /-- Its characters. -/
  char : g.alternatives (spaceCharName id) = charRules chars.toList
  /-- The roots behind white space. -/
  root : ∀ n ∈ p.roots, g.alternatives (spacedName id n) = spacedRules id n
  /-- No token is mentioned. -/
  mentioned : ∀ n, ∀ m ∈ g.mentions n, isExternal m = false

/-- The definitions for the roots are made one after another. -/
theorem grammar_withLeadingSpace (p : Pattern) (chars : SortedSet Char) (id : Nat) :
    (p.withLeadingSpace chars id).grammar = p.roots.foldl (fun g n => g.insert (spacedName id n) (spacedRules id n))
      (p.grammar.overlay (spaceGrammar chars.toList id)) := by
  rw [withLeadingSpace, roots]
  rcases p.charName? with - | c <;> rfl

/-- The grammar with the definitions for some roots. -/
def withSpaced (id : Nat) (roots : List String) (g : Grammar) : Grammar :=
  roots.foldl (fun g n => g.insert (spacedName id n) (spacedRules id n)) g

theorem alternatives_withSpaced_of_ne {roots : List String} {g : Grammar} (h : ∀ m ∈ roots, spacedName id m ≠ n) :
    (withSpaced id roots g).alternatives n = g.alternatives n := by
  induction roots generalizing g with
  | nil => rfl
  | cons k roots ih =>
    obtain ⟨hk, hroots⟩ := List.forall_mem_cons.mp h
    rw [withSpaced, List.foldl_cons]
    exact (ih hroots).trans (by rw [Grammar.alternatives_insert, if_neg hk])

theorem alternatives_withSpaced {roots : List String} {g : Grammar}
    (hroots : ∀ m ∈ roots, isNonterminalName m = true) (hn : n ∈ roots) :
    (withSpaced id roots g).alternatives (spacedName id n) = spacedRules id n := by
  induction roots generalizing g with
  | nil => cases hn
  | cons k roots ih =>
    obtain ⟨hk, hrest⟩ := List.forall_mem_cons.mp hroots
    rw [withSpaced, List.foldl_cons]
    by_cases hmem : n ∈ roots
    · exact ih hrest hmem
    · obtain rfl : n = k := (List.mem_cons.mp hn).resolve_right hmem
      refine (alternatives_withSpaced_of_ne fun m hm h => ?_).trans
        (by rw [Grammar.alternatives_insert, if_pos rfl])
      exact hmem (spacedName_inj (hrest m hm) hk h ▸ hm)

theorem mem_mentions_withSpaced {roots : List String} {g : Grammar} (hm : m ∈ (withSpaced id roots g).mentions n) :
    m ∈ roots ∨ m = spaceRunName id ∨ m ∈ g.mentions n := by
  induction roots generalizing g with
  | nil => exact .inr (.inr hm)
  | cons k roots ih =>
    rw [withSpaced, List.foldl_cons] at hm
    rcases ih hm with hm | rfl | hm
    · exact .inl (List.mem_cons_of_mem k hm)
    · exact .inr (.inl rfl)
    · rcases Grammar.mem_mentions_insert hm with ⟨r, hr, hmem⟩ | hm
      · simp only [spacedRules, List.mem_cons, List.not_mem_nil, or_false] at hr
        rcases hr with rfl | rfl <;> simp only [List.mem_cons, List.not_mem_nil, or_false,
          Symbol.nonterminal.injEq] at hmem
        · exact .inl (hmem ▸ List.mem_cons_self)
        · rcases hmem with rfl | rfl
          · exact .inr (.inl rfl)
          · exact .inl List.mem_cons_self
      · exact .inr (.inr hm)

theorem isExternal_of_free (h : isReserved n = false) : isExternal n = false :=
  Bool.eq_false_iff.mpr fun hn => by
    rw [isReserved_of_isExternal hn] at h
    cases h

theorem mem_mentions_spaceGrammar {l : List Char} (hm : m ∈ (spaceGrammar l id).mentions n) :
    isExternal m = false := by
  rw [Grammar.mem_mentions_iff, alternatives_spaceGrammar] at hm
  obtain ⟨r, hr, hmem⟩ := hm
  split at hr
  · exact absurd hmem (not_mem_charRules hr)
  · split at hr
    · simp only [runRules, List.mem_cons, List.not_mem_nil, or_false] at hr
      rcases hr with rfl | rfl <;> simp only [List.mem_cons, List.not_mem_nil, or_false,
        Symbol.nonterminal.injEq] at hmem
      · rcases hmem with rfl | rfl <;> exact isExternal_spaceName id _
      · exact hmem ▸ isExternal_spaceName id _
    · cases hr

/-- The definitions that are added do not disturb those that are there. -/
theorem WellNamed.spaced (hp : p.WellNamed) (chars : SortedSet Char) (id : Nat) :
    Spaced p chars id (p.withLeadingSpace chars id).grammar := by
  have hgrammar : (p.withLeadingSpace chars id).grammar =
      withSpaced id p.roots (p.grammar.overlay (spaceGrammar chars.toList id)) :=
    grammar_withLeadingSpace p chars id
  rw [hgrammar]
  constructor
  · intro n hn
    have hne : ∀ k, isReserved k = true → k ≠ n := fun k hk hkn => by
      rw [← hkn, hk] at hn
      cases hn
    rw [alternatives_withSpaced_of_ne fun m _ => hne _ (isReserved_spacedName id m),
      Grammar.alternatives_overlay, if_neg]
    rw [contains_spaceGrammar_iff]
    rintro (h | h)
    · exact hne _ (isReserved_spaceName id _) h
    · exact hne _ (isReserved_spaceName id _) h
  · rw [alternatives_withSpaced_of_ne fun m _ => spacedName_ne_spaceRunName id m, Grammar.alternatives_overlay,
      if_pos (contains_spaceGrammar_iff.mpr (.inr rfl)), alternatives_spaceGrammar,
      if_neg (Ne.symm (spaceRunName_ne_spaceCharName id)), if_pos rfl]
  · rw [alternatives_withSpaced_of_ne fun m _ => spacedName_ne_spaceCharName id m, Grammar.alternatives_overlay,
      if_pos (contains_spaceGrammar_iff.mpr (.inl rfl)), alternatives_spaceGrammar, if_pos rfl]
  · exact fun n hn => alternatives_withSpaced hp.conventional hn
  · intro n m hm
    rcases mem_mentions_withSpaced hm with hm | rfl | hm
    · exact isExternal_of_free (hp.free m hm)
    · exact isExternal_spaceName id _
    · rw [Grammar.mentions, Grammar.alternatives_overlay] at hm
      split at hm
      · exact mem_mentions_spaceGrammar hm
      · exact isExternal_of_free (hp.within.mentioned n m hm)

/-- A root behind white space derives what the root derives, with white space in front. -/
theorem WellNamed.inLanguage_spacedName_iff (hp : p.WellNamed) (chars : SortedSet Char) (id : Nat)
    (hn : n ∈ p.roots) : (p.withLeadingSpace chars id).grammar.InLanguage (spacedName id n) w ↔
      ∃ u v, w = u ++ v ∧ (∀ a ∈ u, a ∈ chars.toList) ∧ p.grammar.InLanguage n v := by
  have hspaced := hp.spaced chars id
  have hinner : ∀ v, (p.withLeadingSpace chars id).grammar.InLanguage n v ↔ p.grammar.InLanguage n v := fun v =>
    Grammar.inLanguage_iff_of_agree hspaced.inner (fun k _ => hp.within.mentioned k) (hp.free n hn)
  have hrun := fun u => Grammar.inLanguage_run_iff (w := u) hspaced.run hspaced.char
  rw [Grammar.InLanguage, hspaced.root n hn, spacedRules]
  constructor
  · rintro ⟨body, hbody, hd⟩
    rcases List.mem_pair.mp hbody with rfl | rfl
    · exact ⟨[], w, rfl, List.forall_mem_nil _, (hinner w).mp (Grammar.derives_singleton_iff.mp hd)⟩
    · obtain ⟨u, v, rfl, hu, hv⟩ := Grammar.derives_nonterminal_cons_iff.mp hd
      exact ⟨u, v, rfl, ((hrun u).mp hu).2, (hinner v).mp (Grammar.derives_singleton_iff.mp hv)⟩
  · rintro ⟨u, v, rfl, hu, hv⟩
    have hd := Grammar.derives_singleton_iff.mpr ((hinner v).mpr hv)
    by_cases hnil : u = []
    · exact ⟨_, List.mem_cons_self, by rwa [hnil, List.nil_append]⟩
    · exact ⟨_, List.mem_cons_of_mem _ List.mem_cons_self,
        Grammar.derives_nonterminal_cons_iff.mpr ⟨u, v, rfl, (hrun u).mpr ⟨hnil, hu⟩, hd⟩⟩

/-! ### Roots -/

/-- The root of a pattern: that of single characters if it is asked for and there is one. -/
def root (p : Pattern) (single : Bool) : String :=
  p.charName?.elim p.stringName fun c => if single then c else p.stringName

theorem root_mem_roots (p : Pattern) (single : Bool) : p.root single ∈ p.roots := by
  rw [mem_roots_iff, root]
  rcases p.charName? with - | c
  · exact .inl rfl
  · cases single
    · exact .inl rfl
    · exact .inr rfl

theorem root_withLeadingSpace (p : Pattern) (chars : SortedSet Char) (id : Nat) (single : Bool) :
    (p.withLeadingSpace chars id).root single = spacedName id (p.root single) := by
  rw [root, root, withLeadingSpace]
  rcases p.charName? with - | c
  · rfl
  · cases single <;> rfl

theorem Words.inLanguage_root_iff (hp : p.Words r l) (single : Bool) : p.grammar.InLanguage (p.root single) w ↔
    (if p.isRun && single then charClass l else r).Matches w := by
  rw [root, isRun]
  rcases hc : p.charName? with - | c
  · exact hp.string w
  · cases single
    · exact hp.string w
    · exact (hp.char c hc w).trans Regex.matches_charClass_iff.symm

end Pattern

/-! ### Forms -/

/-- A form in which a pattern of the library is tried: as it is, or narrowed to some characters; plain, or behind
white space.  Both changes come with a number. -/
structure Form where
  /-- The pattern of the library. -/
  base : Pattern
  /-- It belongs to the library. -/
  mem : base ∈ patternLibrary
  /-- The characters that it is narrowed to. -/
  narrowing : Option (SortedSet Char × Nat)
  /-- Only a run is narrowed, and not to nothing. -/
  narrowable : ∀ e ∈ narrowing, base.isRun = true ∧ e.1.isEmpty = false
  /-- The white space in front of it. -/
  spacing : Option (SortedSet Char × Nat)
  /-- There is some. -/
  spaceable : ∀ e ∈ spacing, e.1.isEmpty = false

namespace Form

variable (f : Form)

/-- The pattern without white space. -/
def inner : Pattern :=
  match f.narrowing with
  | some e => f.base.narrowed e.1 e.2
  | none => f.base

/-- The pattern that is tried. -/
def pattern : Pattern :=
  match f.spacing with
  | some e => f.inner.withLeadingSpace e.1 e.2
  | none => f.inner

/-- The characters of a run. -/
def letters : List Char :=
  match f.narrowing with
  | some e => e.1.toList
  | none => f.base.letters

/-- The expression for the words of the pattern without white space. -/
def innerStrict : Regex :=
  match f.narrowing with
  | some e => .plus (charClass e.1.toList)
  | none => f.base.strict

/-- The expression for the words of a root. -/
def strict (single : Bool) : Regex :=
  let inner := if f.inner.isRun && single then charClass f.letters else f.innerStrict
  match f.spacing with
  | some e => .seq (.star (charClass e.1.toList)) (.group inner false)
  | none => inner

/-- Does the expression match the words of the root? -/
def IsFaithful : Prop := f.narrowing.isSome = true ∨ f.base.stringName ∉ looseExpressions.map Prod.fst

theorem words_inner : f.inner.Words f.innerStrict f.letters := by
  rcases h : f.narrowing with - | e
  · simp only [inner, innerStrict, letters, h]
    exact words_of_mem_library f.mem
  · simp only [inner, innerStrict, letters, h]
    exact words_narrowed f.mem (f.narrowable e h).1 e.1 e.2

/-- A root derives what the expression for it matches. -/
theorem inLanguage_root_iff (single : Bool) :
    f.pattern.grammar.InLanguage (f.pattern.root single) w ↔ (f.strict single).Matches w := by
  have hinner := fun v => f.words_inner.inLanguage_root_iff (w := v) single
  rcases h : f.spacing with - | e
  · simp only [pattern, strict, h]
    exact hinner w
  · simp only [pattern, strict, h]
    rw [Pattern.root_withLeadingSpace,
      f.words_inner.inLanguage_spacedName_iff e.1 e.2 (Pattern.root_mem_roots f.inner single), Regex.matches_seq_iff]
    simp only [Regex.matches_star_charClass_iff, Regex.matches_group_iff, hinner]

/-- The names that are mentioned are not those of tokens. -/
theorem isExternal_of_mem_mentions (hm : m ∈ f.pattern.grammar.mentions n) : isExternal m = false := by
  rcases h : f.spacing with - | e
  · simp only [pattern, h] at hm
    exact Pattern.isExternal_of_free (f.words_inner.within.mentioned n m hm)
  · simp only [pattern, h] at hm
    exact (f.words_inner.spaced e.1 e.2).mentioned n m hm

theorem isExternal_root (single : Bool) : isExternal (f.pattern.root single) = false := by
  rcases h : f.spacing with - | e
  · simp only [pattern, h]
    exact Pattern.isExternal_of_free (f.words_inner.free _ (Pattern.root_mem_roots f.inner single))
  · simp only [pattern, h, Pattern.root_withLeadingSpace]
    exact Pattern.isExternal_spacedName e.2 _

/-! ### Expressions -/

variable {f}

theorem regex_inner (hf : f.IsFaithful) : f.inner.regex = f.innerStrict := by
  rcases h : f.narrowing with - | e
  · simp only [inner, innerStrict, h]
    have hloose : f.base.stringName ∉ looseExpressions.map Prod.fst := hf.resolve_left (by simp [h])
    rw [Pattern.strict, Option.not_isSome_iff_eq_none.mp (OrderedMap.find_isSome_iff.not.mpr hloose)]
    rfl
  · simp only [inner, innerStrict, h]
    rfl

/-- The expression of a faithful form matches the words of its root. -/
theorem regex_pattern (hf : f.IsFaithful) : f.pattern.regex = f.strict false := by
  have hinner := regex_inner hf
  rcases h : f.spacing with - | e
  · simp only [pattern, strict, h, Bool.and_false, Bool.false_eq_true, if_false]
    exact hinner
  · simp only [pattern, strict, h, Bool.and_false, Bool.false_eq_true, if_false, Pattern.withLeadingSpace, hinner]

variable (f)

theorem matches_innerStrict_iff (hrun : f.inner.isRun = true) :
    f.innerStrict.Matches w ↔ w ≠ [] ∧ ∀ a ∈ w, a ∈ f.letters := by
  rcases h : f.narrowing with - | e
  · simp only [inner, h] at hrun
    obtain ⟨c, hc⟩ := Option.isSome_iff_exists.mp hrun
    obtain ⟨hs, hchars⟩ := Grammar.isRun_iff.mp (isRun_of_mem_library f.base f.mem c hc).2.1
    simp only [innerStrict, letters, h]
    rw [← (words_of_mem_library f.mem).string, Grammar.inLanguage_run_iff hs hchars, Pattern.letters, hc]
  · simp only [innerStrict, letters, h]
    exact Regex.matches_plus_charClass_iff

theorem depth_of_mem_library : ∀ p ∈ patternLibrary, p.regex.wellFormed = true ∧ p.regex.depth ≤ 200 := by
  decide +kernel

theorem charClass_spec (h : l ≠ []) : (charClass l).wellFormed = true ∧ (charClass l).depth ≤ 2 := by
  constructor
  · simp [charClass, Regex.wellFormed, h]
  · rw [charClass, Regex.depth]
    split <;> decide

theorem toList_ne_nil {s : SortedSet Char} (h : s.isEmpty = false) : s.toList ≠ [] := by
  rintro hnil
  rw [SortedSet.isEmpty, hnil] at h
  cases h

/-- Every form can be used to match words. -/
theorem isUsable : f.pattern.regex.isUsable = true := by
  have hinner : f.inner.regex.wellFormed = true ∧ f.inner.regex.depth ≤ 200 := by
    rcases h : f.narrowing with - | e
    · simp only [inner, h]
      exact depth_of_mem_library f.base f.mem
    · simp only [inner, h, Pattern.narrowed, Regex.wellFormed, Regex.depth]
      obtain ⟨hformed, hdepth⟩ := charClass_spec (toList_ne_nil (f.narrowable e h).2)
      exact ⟨hformed, by omega⟩
  obtain ⟨hformed, hdepth⟩ := hinner
  rw [Regex.isUsable, Regex.depthLimit, Bool.and_eq_true, decide_eq_true_eq]
  rcases h : f.spacing with - | e
  · simp only [pattern, h]
    exact ⟨hformed, by omega⟩
  · obtain ⟨hspace, hspaceDepth⟩ := charClass_spec (toList_ne_nil (f.spaceable e h))
    simp only [pattern, h, Pattern.withLeadingSpace, Regex.wellFormed, Regex.depth, Regex.isSeq, hspace, hformed,
      Bool.false_eq_true, if_false]
    exact ⟨rfl, by omega⟩

end Form

end GrammarInference
