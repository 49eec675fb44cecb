/-
GrammarInference/Proofs/Generalization/Complete.lean

Generalization leaves nothing undefined.

Design.  What can become of a token is said once (`Decides`).  The fragment for a token is complete, whatever is
decided on it; only the alternatives that are kept may mention names of the grammar from which they come, and all of
these are defined in the end, since every entry of the grammar is added to the result.  The expressions of patterns
can always be used, so the only way in which generalization fails is that a token derives no string
(`generalize_complete`).
-/
import GrammarInference.Proofs.Derivation.Depth
import GrammarInference.Proofs.Generalization.Coverage
import GrammarInference.Proofs.Pattern.Complete

namespace GrammarInference

open Grammar (Complete CompleteOver)

namespace Generalizer

variable {g out : Grammar} {K : Set String} {n : String} {rules : List Rule} {source : Generator} {p : Pattern}

/-! ### Decisions -/

/-- What can become of a token with the given alternatives, and the fragment that is made for it. -/
inductive Decides (gen : Generalizer) (n : String) (rules : List Rule) (samples : SortedSet String) :
    Generalization → Grammar → Prop
  /-- What is left of the samples stays behind white space. -/
  | spaced : Decides gen n rules samples (gen.spacedLiterals n (.ofSamples samples)).1.1
      (gen.spacedLiterals n (.ofSamples samples)).1.2
  /-- The alternatives stay. -/
  | kept : Decides gen n rules samples .literals (.ofList [(n, rules)])
  /-- The samples are listed. -/
  | listed : Decides gen n rules samples .literals (.ofList [(n, literalRules samples)])
  /-- A form of a pattern takes their place. -/
  | pattern (f : Form) : Decides gen n rules samples (.pattern (rootFor f.pattern (.ofSamples samples)))
      (f.pattern.grammar.insert n [[.nonterminal (rootFor f.pattern (.ofSamples samples))]])

theorem generalizeToken_decides (gen : Generalizer) (n : String) (rules : List Rule) (samples : SortedSet String)
    (alphabet : SortedSet Char) : ∃ decision fragment gen',
      gen.generalizeToken n rules samples alphabet = (.ok (decision, fragment), gen') ∧
        Decides gen n rules samples decision fragment := by
  simp only [generalizeToken]
  generalize hspaced : (decide (0 < (Stripped.ofSamples samples).spacedCount) &&
    decide (Float.ofNat samples.size * gen.config.spaceRatio ≤
      Float.ofNat (Stripped.ofSamples samples).spacedCount)) = spaced
  have hspace : spaced = true → (Stripped.ofSamples samples).spaceAlphabet.isEmpty = false := by
    rintro rfl
    rw [Bool.and_eq_true, decide_eq_true_eq] at hspaced
    exact Stripped.isEmpty_spaceAlphabet hspaced.1
  split
  · exact ⟨_, _, _, rfl, .spaced⟩
  · split
    · exact ⟨_, _, _, rfl, .kept⟩
    · obtain ⟨found, gen', hsearch, hfound⟩ := gen.search_spec samples alphabet hspace fun p hp => hp
      rw [hsearch]
      rcases found with - | p
      · exact ⟨_, _, _, rfl, .listed⟩
      · obtain ⟨f, rfl, -⟩ := hfound p rfl
        exact ⟨_, _, _, rfl, .pattern f⟩

/-! ### Fragments for a token -/

/-- The fragment defines the token, and may mention names of `K` without defining them. -/
structure Defines (K : Set String) (n : String) (fragment : Grammar) : Prop where
  /-- Other names are not left undefined. -/
  complete : CompleteOver K fragment
  /-- The token is defined. -/
  token : fragment.contains n = true

/-- Alternatives that mention names of `K` only. -/
theorem defines_ofList (hrules : rules.Nodup) (hK : ∀ r ∈ rules, ∀ m, Symbol.nonterminal m ∈ r → m ∈ K) :
    Defines K n (.ofList [(n, rules)]) where
  complete := (Grammar.completeOver_empty K).insert hrules fun r hr m hm => .inl (hK r hr m hm)
  token := Grammar.contains_insert.mpr (.inl rfl)

/-- The alternatives for some strings. -/
theorem defines_literals (strings : SortedSet String) (n : String) :
    Defines K n (.ofList [(n, literalRules strings)]) := by
  apply defines_ofList
  · refine strings.nodup_toList.map fun s t hst => ?_
    simpa using hst
  · intro r hr m hm
    obtain ⟨s, -, rfl⟩ := List.mem_map.mp hr
    cases List.mem_singleton.mp hm

/-- A token that stands for a root of a pattern. -/
theorem Defines.of_pattern (hp : p.Complete) {root : String} (hroot : root ∈ p.roots) (K : Set String) (n : String) :
    Defines K n (p.grammar.insert n [[.nonterminal root]]) where
  complete := by
    refine (hp.grammar.mono (Set.empty_subset K)).insert (List.nodup_singleton _) fun r hr m hm => ?_
    rw [List.mem_singleton.mp hr] at hm
    obtain rfl : m = root := by simpa using hm
    exact .inr (.inr (hp.roots m hroot))
  token := Grammar.contains_insert.mpr (.inl rfl)

theorem complete_literalPattern (id : Nat) (strings : SortedSet String) : (literalPattern id strings).Complete where
  grammar := (defines_literals strings (literalName id)).complete
  roots := List.forall_mem_singleton.mpr (Grammar.contains_insert.mpr (.inl rfl))

theorem defines_spacedLiterals (gen : Generalizer) (K : Set String) (n : String) (stripped : Stripped) :
    Defines K n (gen.spacedLiterals n stripped).1.2 := by
  let id := gen.literalCount + 1
  let spaceId := ({ gen with literalCount := id }.spaceId stripped.spaceAlphabet).1
  let p := (literalPattern id stripped.rest).withLeadingSpace stripped.spaceAlphabet spaceId
  have hp : p.Complete := (complete_literalPattern id stripped.rest).withLeadingSpace stripped.spaceAlphabet spaceId
  exact .of_pattern hp (Pattern.mem_roots_iff.mpr (.inl rfl)) K n

/-- A token is always decided on, and its fragment defines it. -/
theorem generalizeToken_defines (gen : Generalizer) (n : String) (samples : SortedSet String)
    (alphabet : SortedSet Char) (hrules : rules.Nodup) (hK : ∀ r ∈ rules, ∀ m, Symbol.nonterminal m ∈ r → m ∈ K) :
    ∃ decision fragment gen',
      gen.generalizeToken n rules samples alphabet = (.ok (decision, fragment), gen') ∧ Defines K n fragment := by
  obtain ⟨decision, fragment, gen', htoken, hdecides⟩ := gen.generalizeToken_decides n rules samples alphabet
  refine ⟨decision, fragment, gen', htoken, ?_⟩
  cases hdecides with
  | spaced => exact gen.defines_spacedLiterals K n _
  | kept => exact defines_ofList hrules hK
  | listed => exact defines_literals samples n
  | pattern f =>
    refine .of_pattern f.complete ?_ K n
    rw [rootFor_eq]
    exact Pattern.root_mem_roots f.pattern _

/-! ### Samples -/

/-- A sample is taken, unless the nonterminal derives no string. -/
theorem sample_spec (hsource : Generator.IsFor g source) (hn : g.contains n = true) (draws : Nat)
    (found : List String) :
    (∃ samples source', sample n draws source found = (.ok samples, source') ∧ Generator.IsFor g source') ∨
      ∃ source', sample n draws source found = (.error (.unproductive n), source') := by
  induction draws generalizing source found with
  | zero => exact .inl ⟨_, _, rfl, hsource⟩
  | succ draws ih =>
    rw [sample, Generator.generateString]
    by_cases hends : Generator.CanEnd g n none
    · obtain ⟨id, arena, source', r, hgenerate, hsource', -⟩ := Generator.generate_of_canEnd hsource hn ∅ hends
      simp only [hgenerate]
      exact ih hsource' _
    · simp only [Generator.generate_of_not_canEnd hsource hn ∅ hends]
      exact .inr ⟨_, rfl⟩

/-! ### Whole grammars -/

/-- A complete grammar with the definitions of `g`, or the complaint that a token derives no string. -/
def Generalizes (g : Grammar) : Except Error Grammar → Prop
  | .ok g' => g'.Complete ∧ ∀ n, g.contains n = true → g'.contains n = true
  | .error e => ∃ n, e = .unproductive n

/-- The entries that are left are added to what was generalized, which may mention names of `g`. -/
theorem generalizeEntries_generalizes (hg : g.Complete) (alphabets : OrderedMap String (SortedSet Char))
    {rest : List (String × List Rule)} {gen : Generalizer} (hrest : ∀ e ∈ rest, e ∈ g.entries)
    (hsource : Generator.IsFor g source) (hout : CompleteOver {n | g.contains n = true} out)
    (hadded : ∀ n, g.contains n = true → n ∈ rest.map Prod.fst ∨ out.contains n = true) :
    Generalizes g (generalizeEntries g alphabets rest gen source out) := by
  induction rest generalizing gen source out with
  | nil =>
    have hall : ∀ n, g.contains n = true → out.contains n = true := fun n hn =>
      (hadded n hn).resolve_left List.not_mem_nil
    exact ⟨hout.complete hall, hall⟩
  | cons e rest ih =>
    obtain ⟨n, rules⟩ := e
    obtain ⟨he, hrest⟩ := List.forall_mem_cons.mp hrest
    have halternatives : g.alternatives n = rules := Grammar.alternatives_of_mem_entries he
    have hdefined : g.contains n = true := OrderedMap.contains_iff_mem_keys.mpr (List.mem_map_of_mem he)
    have hnodup : rules.Nodup := halternatives ▸ hg.nodup n
    have hnames : ∀ r ∈ rules, ∀ m, Symbol.nonterminal m ∈ r → g.contains m = true := fun r hr m hm =>
      hg.contains (halternatives ▸ hr) hm
    -- what was added stays, and the entry itself is added
    have hnext : ∀ out' : Grammar, out'.contains n = true → (∀ m, out.contains m = true → out'.contains m = true) →
        ∀ m, g.contains m = true → m ∈ rest.map Prod.fst ∨ out'.contains m = true := by
      intro out' hn hkept m hm
      rcases hadded m hm with hm | hm
      · rcases List.mem_cons.mp hm with rfl | hm
        · exact .inr hn
        · exact .inl hm
      · exact .inr (hkept m hm)
    rw [generalizeEntries]
    split
    · refine ih hrest hsource (hout.insert hnodup fun r hr m hm => .inl (hnames r hr m hm)) (hnext _ ?_ fun m hm => ?_)
      · exact Grammar.contains_insert.mpr (.inl rfl)
      · exact Grammar.contains_insert.mpr (.inr hm)
    · rcases sample_spec hsource hdefined gen.config.samples [] with ⟨samples, source', hsample, hsource'⟩ |
        ⟨source', hsample⟩
      · obtain ⟨decision, fragment, gen', htoken, hdefines⟩ := gen.generalizeToken_defines n samples
          ((alphabets.get? n).getD (g.terminalAlphabet n)) hnodup hnames
        simp only [hsample, htoken]
        refine ih hrest hsource' (hout.overlay hdefines.complete) (hnext _ ?_ fun m hm => ?_)
        · exact Grammar.contains_overlay_iff.mpr (.inr hdefines.token)
        · exact Grammar.contains_overlay_iff.mpr (.inl hm)
      · simp only [hsample]
        exact ⟨n, rfl⟩

/-- Generalization keeps a grammar complete, or complains that a token derives no string. -/
theorem generalize_complete (hg : g.Complete) (gen : Generalizer) (alphabets : OrderedMap String (SortedSet Char)) :
    Generalizes g (gen.generalize g alphabets) := by
  refine generalizeEntries_generalizes hg alphabets (fun e he => he) (Generator.isFor_new g _ _)
    (Grammar.completeOver_empty _) fun n hn => .inl ?_
  exact OrderedMap.contains_iff_mem_keys.mp hn

end Generalizer

end GrammarInference
