/-
GrammarInference/Proofs/Generalization/Symbols.lean

Which symbols generalization brings into a grammar.

Design.  The samples of a token are derived from the grammar, so what is listed for it in the end are words of its
nonterminals, or what is left of them without the white space in front.  All other symbols that are new belong to
patterns, and follow the naming convention.  A word that has the form of a name does not start with white space, so
it is enough to say which words are left when white space is taken off.
-/
import GrammarInference.Proofs.Derivation.Generator
import GrammarInference.Proofs.Generalization.Complete
import GrammarInference.Proofs.Pattern.Symbols

namespace GrammarInference

open Grammar (HasOnly)

variable {s : String} {samples : SortedSet String}

/-! ### Samples without their white space -/

namespace Stripped

/-- A name does not start with white space. -/
theorem split_of_isNonterminalName (hs : isNonterminalName s = true) : (split s).2 = s := by
  rw [← String.toList_inj, split, toList_of_isNonterminalName hs, List.span_eq_takeWhile_dropWhile,
    String.toList_ofList, List.dropWhile_cons_of_neg (by decide)]

theorem exists_of_mem_rest (hs : s ∈ (ofSamples samples).rest) : ∃ s' ∈ samples, (split s').2 = s := by
  rw [ofSamples, SortedSet.mem_ofList, List.map_map] at hs
  exact List.mem_map.mp hs

end Stripped

namespace Generalizer

variable {g out : Grammar} {S : Set String} {n : String} {rules : List Rule} {source : Generator} {x : Symbol}

/-- The symbol follows the naming convention, or it is a terminal of what is left of a string of `S` without the white
space in front. -/
def IsFrom (S : Set String) (x : Symbol) : Prop := x.IsConventional ∨ ∃ s ∈ S, x = .terminal (Stripped.split s).2

theorem isFrom_of_isConventional (hx : x.IsConventional) : IsFrom S x := .inl hx

theorem isFrom_terminal (hs : s ∈ S) : IsFrom S (.terminal s) := by
  rcases hname : isNonterminalName s with - | -
  · exact .inl hname
  · exact .inr ⟨s, hs, by rw [Stripped.split_of_isNonterminalName hname]⟩

/-! ### Fragments for a token -/

theorem hasOnly_literals {P : Symbol → Prop} {strings : SortedSet String} (h : ∀ s ∈ strings, P (.terminal s))
    (n : String) : HasOnly P (.ofList [(n, literalRules strings)]) := by
  refine Grammar.hasOnly_empty.insert fun r hr x hx => ?_
  obtain ⟨s, hs, rfl⟩ := List.mem_map.mp hr
  obtain rfl := List.mem_singleton.mp hx
  exact h s hs

/-- A token that stands for a root. -/
theorem hasOnly_root {fragment : Grammar} {root : String} (hfragment : HasOnly (IsFrom S) fragment)
    (hroot : isNonterminalName root = true) (n : String) :
    HasOnly (IsFrom S) (fragment.insert n [[.nonterminal root]]) := by
  refine hfragment.insert fun r hr x hx => ?_
  rw [List.mem_singleton.mp hr] at hx
  obtain rfl := List.mem_singleton.mp hx
  exact .inl hroot

theorem hasOnly_spacedLiterals (gen : Generalizer) (n : String) (hsamples : ∀ s ∈ samples, s ∈ S) :
    HasOnly (IsFrom S) (gen.spacedLiterals n (.ofSamples samples)).1.2 := by
  let id := gen.literalCount + 1
  let spaceId := ({ gen with literalCount := id }.spaceId (Stripped.ofSamples samples).spaceAlphabet).1
  let p := literalPattern id (Stripped.ofSamples samples).rest
  have hnamed : p.WellNamed := wellNamed_literalPattern id _
  -- only the literals are not of the generalizer's own making
  have hrest : ∀ s ∈ (Stripped.ofSamples samples).rest, IsFrom S (.terminal s) := by
    intro s hs
    obtain ⟨s', hs', rfl⟩ := Stripped.exists_of_mem_rest hs
    exact .inr ⟨s', hsamples s' hs', rfl⟩
  have hspaced := hnamed.hasOnly_withLeadingSpace (fun _ => isFrom_of_isConventional) (hasOnly_literals hrest _)
    (Stripped.ofSamples samples).spaceAlphabet spaceId
  exact hasOnly_root hspaced (Pattern.isNonterminalName_spacedName spaceId _) n

/-- A fragment has symbols of the token, and symbols from its samples. -/
theorem hasOnly_of_decides {gen : Generalizer} {decision : Generalization} {fragment : Grammar}
    (hrules : ∀ r ∈ rules, ∀ x ∈ r, IsFrom S x) (hsamples : ∀ s ∈ samples, s ∈ S)
    (h : Decides gen n rules samples decision fragment) : HasOnly (IsFrom S) fragment := by
  cases h with
  | spaced => exact gen.hasOnly_spacedLiterals n hsamples
  | kept => exact Grammar.hasOnly_empty.insert hrules
  | listed => exact hasOnly_literals (fun s hs => isFrom_terminal (hsamples s hs)) n
  | pattern f =>
    refine hasOnly_root (f.conventional.mono fun _ => isFrom_of_isConventional) ?_ n
    rw [rootFor_eq]
    exact f.conventional_root _

/-! ### Samples -/

/-- The samples of a token are words that it derives. -/
theorem inLanguage_of_sample (hsource : Generator.Offers g source) {draws : Nat} {found : List String}
    (hfound : ∀ s ∈ found, g.InLanguage n s.toList) {source' : Generator}
    (h : sample n draws source found = (.ok samples, source')) :
    Generator.Offers g source' ∧ ∀ s ∈ samples, g.InLanguage n s.toList := by
  induction draws generalizing source found with
  | zero =>
    cases h
    exact ⟨hsource, fun s hs => hfound s (SortedSet.mem_ofList.mp hs)⟩
  | succ draws ih =>
    obtain ⟨hnext, hword⟩ := Generator.generateString_spec hsource n .never
    rw [sample] at h
    rcases hgenerate : source.generateString n .never with ⟨e | w, source₁⟩
    · rw [hgenerate] at h
      cases h
    · rw [hgenerate] at h hnext hword
      refine ih hnext ?_ h
      split
      · exact hfound
      · exact List.forall_mem_cons.mpr ⟨hword w rfl, hfound⟩

/-! ### Whole grammars -/

/-- The entries that are left bring symbols of their own and of the words of `g`. -/
theorem hasOnly_generalizeEntries (hg : HasOnly (IsFrom S) g) (hwords : ∀ n s, g.InLanguage n s.toList → s ∈ S)
    (alphabets : OrderedMap String (SortedSet Char)) {rest : List (String × List Rule)} {gen : Generalizer}
    (hrest : ∀ e ∈ rest, e ∈ g.entries) (hsource : Generator.Offers g source) (hout : HasOnly (IsFrom S) out)
    {g' : Grammar} (h : generalizeEntries g alphabets rest gen source out = .ok g') : HasOnly (IsFrom S) g' := by
  induction rest generalizing gen source out with
  | nil =>
    cases h
    exact hout
  | cons e rest ih =>
    obtain ⟨n, rules⟩ := e
    obtain ⟨he, hrest⟩ := List.forall_mem_cons.mp hrest
    have hrules : ∀ r ∈ rules, ∀ x ∈ r, IsFrom S x := hg _ he
    rw [generalizeEntries] at h
    split at h
    · exact ih hrest hsource (hout.insert hrules) h
    · -- the samples of a token are words of `g`, and so in `S`
      rcases hsample : sample n gen.config.samples source [] with ⟨e | samples, source'⟩
      · rw [hsample] at h
        cases h
      · obtain ⟨hsource', hderived⟩ := inLanguage_of_sample hsource (fun s hs => absurd hs List.not_mem_nil) hsample
        obtain ⟨decision, fragment, gen', htoken, hdecides⟩ := gen.generalizeToken_decides n rules samples
          ((alphabets.get? n).getD (g.terminalAlphabet n))
        simp only [hsample, htoken] at h
        have hfragment := hasOnly_of_decides hrules (fun s hs => hwords n s (hderived s hs)) hdecides
        exact ih hrest hsource' (hout.overlay hfragment) h

/-- If all symbols of a grammar follow the naming convention or come from `S`, and all words are in `S`, then the
symbols after generalization follow the convention or come from `S`. -/
theorem hasOnly_generalize (hg : HasOnly (IsFrom S) g) (hwords : ∀ n s, g.InLanguage n s.toList → s ∈ S)
    {gen : Generalizer} {alphabets : OrderedMap String (SortedSet Char)} {g' : Grammar}
    (h : gen.generalize g alphabets = .ok g') : HasOnly (IsFrom S) g' :=
  hasOnly_generalizeEntries hg hwords alphabets (fun _ he => he) (Generator.offers_new g _ _) Grammar.hasOnly_empty h

end Generalizer

end GrammarInference
