/-
GrammarInference/Proofs/Generalization/Coverage.lean

Which samples of a token its fragment derives.

Design.  Each decision is followed to the fragment that it installs.  Literals, also behind white space, derive
every sample.  A pattern is found by its expression: the samples that this does not match are few enough for the
comparison that the generalizer makes (`PatternCovers.allowed`), but whether a matched sample is derived is another
question, and what the fragment derives is known exactly (`PatternCovers.language`).  A matched sample is lost for
one of two reasons: the expression goes further than the fragment, or the root for single characters was taken for
a pattern that matched the sample together with its white space.
-/
import GrammarInference.Proofs.Pattern.Forms
import Mathlib.Data.List.TakeDrop

namespace GrammarInference

open Grammar (InLanguage)

variable {n m : String} {s : String} {samples : SortedSet String} {alphabet : SortedSet Char}

/-! ### Samples without their white space -/

namespace Stripped

theorem toList_split (s : String) : s.toList = (split s).1 ++ (split s).2.toList := by
  simp only [split, List.span_eq_takeWhile_dropWhile, String.toList_ofList, List.takeWhile_append_dropWhile]

theorem mem_spaceAlphabet (hs : s ∈ samples) : ∀ a ∈ (split s).1, a ∈ (ofSamples samples).spaceAlphabet := by
  intro a ha
  rw [ofSamples, SortedSet.mem_ofList, List.mem_flatMap]
  exact ⟨_, List.mem_map_of_mem hs, ha⟩

theorem mem_rest (hs : s ∈ samples) : (split s).2 ∈ (ofSamples samples).rest := by
  rw [ofSamples, SortedSet.mem_ofList]
  exact List.mem_map_of_mem (List.mem_map_of_mem hs)

/-- If some sample had white space, then there are characters of white space. -/
theorem isEmpty_spaceAlphabet (h : 0 < (ofSamples samples).spacedCount) :
    (ofSamples samples).spaceAlphabet.isEmpty = false := by
  obtain ⟨x, hx⟩ := List.exists_mem_of_length_pos h
  obtain ⟨hx, hne⟩ := List.mem_filter.mp hx
  obtain ⟨s, hs, rfl⟩ := List.mem_map.mp hx
  obtain ⟨a, rest, ha⟩ := List.exists_cons_of_ne_nil (by simpa using hne : (split s).1 ≠ [])
  have hmem := mem_spaceAlphabet hs a (ha ▸ List.mem_cons_self)
  rw [SortedSet.isEmpty, List.isEmpty_eq_false_iff]
  exact List.ne_nil_of_mem hmem

end Stripped

/-! ### Fragments for a token -/

/-- A token that is defined by a root derives what the root derives. -/
theorem inLanguage_token_iff {g : Grammar} {root : String} {w : List Char} (hn : isExternal n = true)
    (hg : ∀ k, ∀ m ∈ g.mentions k, isExternal m = false) (hroot : isExternal root = false) :
    InLanguage (g.insert n [[.nonterminal root]]) n w ↔ InLanguage g root w := by
  have hagree : ∀ k ∈ {k | isExternal k = false},
      Grammar.alternatives (g.insert n [[.nonterminal root]]) k = g.alternatives k := by
    intro k hk
    rw [Grammar.alternatives_insert, if_neg]
    rintro rfl
    rw [Set.mem_ofPred_eq, hn] at hk
    cases hk
  rw [InLanguage, Grammar.alternatives_insert, if_pos rfl]
  simp only [List.mem_singleton, exists_eq_left, Grammar.derives_singleton_iff]
  exact Grammar.inLanguage_iff_of_agree hagree (fun k _ => hg k) hroot

theorem inLanguage_literals_iff {g : Grammar} {strings : SortedSet String} {w : List Char}
    (h : g.alternatives n = Generalizer.literalRules strings) :
    InLanguage g n w ↔ ∃ s ∈ strings, w = s.toList := by
  rw [InLanguage, h, Generalizer.literalRules]
  constructor
  · rintro ⟨body, hbody, hd⟩
    obtain ⟨s, hs, rfl⟩ := List.mem_map.mp hbody
    exact ⟨s, hs, Grammar.derives_terminal_iff.mp hd⟩
  · rintro ⟨s, hs, rfl⟩
    exact ⟨_, List.mem_map_of_mem hs, Grammar.derives_terminal_iff.mpr rfl⟩

namespace Generalizer

variable {gen : Generalizer} {f : Form} {spaced : Bool} {stripped : Stripped}

/-! ### Patterns that are tried -/

/-- The samples that a pattern does not match. -/
def missed (p : Pattern) (samples : SortedSet String) : List String :=
  samples.toList.filter fun s => !p.regex.accepts s.toList

/-- Are so many samples few enough to be missed? -/
def Allows (config : GeneralizeConfig) (count : Nat) (samples : SortedSet String) : Prop :=
  Float.ofNat count / Float.ofNat samples.size < config.allowedMismatchRate

instance (config : GeneralizeConfig) (count : Nat) (samples : SortedSet String) :
    Decidable (Allows config count samples) :=
  inferInstanceAs (Decidable (_ < config.allowedMismatchRate))

theorem covers_eq (gen : Generalizer) {p : Pattern} (hp : p.regex.isUsable = true) (samples : SortedSet String) :
    gen.covers p samples = .ok (!samples.isEmpty && decide (Allows gen.config (missed p samples).length samples)) := by
  rw [covers, Pattern.matcher, if_pos hp]
  cases samples.isEmpty <;> rfl

theorem narrow_spec (gen : Generalizer) {p : Pattern} (hp : p ∈ patternLibrary) (alphabet : SortedSet Char) :
    (gen.narrow p alphabet).2.config = gen.config ∧
      ∃ f : Form, f.spacing = none ∧ f.pattern = (gen.narrow p alphabet).1 := by
  rw [narrow]
  split
  · rename_i h
    simp only [Bool.and_eq_true, Bool.not_eq_true'] at h
    have hnarrow : ∀ e ∈ some (alphabet, gen.patternCount + 1), p.isRun = true ∧ e.1.isEmpty = false := by
      rintro e he
      cases he
      exact ⟨h.1.1.1, h.1.1.2⟩
    exact ⟨rfl, ⟨p, hp, some (alphabet, gen.patternCount + 1), hnarrow, none, by simp⟩, rfl, rfl⟩
  · exact ⟨rfl, ⟨p, hp, none, by simp, none, by simp⟩, rfl, rfl⟩

/-- The white space that a form allows is that of the samples. -/
def SpacedBy (f : Form) (stripped : Stripped) : Prop := ∀ e ∈ f.spacing, e.1 = stripped.spaceAlphabet

theorem forms_spec (gen : Generalizer) (hf : f.spacing = none)
    (hspaced : spaced = true → stripped.spaceAlphabet.isEmpty = false) :
    (gen.forms f.pattern spaced stripped).2.config = gen.config ∧
      ∀ q ∈ (gen.forms f.pattern spaced stripped).1, ∃ f' : Form, f'.pattern = q ∧ SpacedBy f' stripped := by
  have hplain : SpacedBy f stripped := by
    intro e he
    rw [hf] at he
    cases he
  rw [forms]
  split
  · rename_i h
    rw [Bool.and_eq_true] at h
    refine ⟨rfl, fun q hq => ?_⟩
    rcases List.mem_pair.mp hq with rfl | rfl
    · exact ⟨f, rfl, hplain⟩
    · let e := (stripped.spaceAlphabet, (gen.spaceId stripped.spaceAlphabet).1)
      have hspace : ∀ d ∈ some e, d.1.isEmpty = false := by
        rintro d hd
        cases hd
        exact hspaced h.2
      refine ⟨⟨f.base, f.mem, f.narrowing, f.narrowable, some e, hspace⟩, ?_, ?_⟩
      · simp only [Form.pattern, hf]
        rfl
      · rintro d hd
        cases hd
        rfl
  · refine ⟨rfl, fun q hq => ?_⟩
    obtain rfl := List.mem_singleton.mp hq
    exact ⟨f, rfl, hplain⟩

/-- The form of a pattern that was found, whose expression misses few enough samples. -/
structure Found (config : GeneralizeConfig) (samples : SortedSet String) (stripped : Stripped) (f : Form) : Prop where
  /-- The white space is that of the samples. -/
  spaced : SpacedBy f stripped
  /-- The comparison with the allowed share. -/
  allowed : Allows config (missed f.pattern samples).length samples

theorem firstCovering_spec (gen : Generalizer) (samples : SortedSet String) {l : List Pattern}
    (hl : ∀ q ∈ l, ∃ f : Form, f.pattern = q ∧ SpacedBy f stripped) : ∃ found, gen.firstCovering samples l = .ok found ∧
      ∀ p ∈ found, ∃ f : Form, f.pattern = p ∧ Found gen.config samples stripped f := by
  induction l with
  | nil => exact ⟨none, rfl, by simp⟩
  | cons q l ih =>
    obtain ⟨⟨f, rfl, hspaced⟩, hrest⟩ := List.forall_mem_cons.mp hl
    rw [firstCovering, covers_eq gen f.isUsable]
    split
    · rename_i h
      cases h
    · rename_i h
      simp only [Except.ok.injEq, Bool.and_eq_true, decide_eq_true_eq] at h
      refine ⟨some f.pattern, rfl, fun p hp => ?_⟩
      cases hp
      exact ⟨f, rfl, hspaced, h.2⟩
    · exact ih hrest

/-- The search finds a form of a pattern of the library, or none. -/
theorem search_spec (gen : Generalizer) (samples : SortedSet String) (alphabet : SortedSet Char)
    (hspaced : spaced = true → stripped.spaceAlphabet.isEmpty = false) {l : List Pattern}
    (hl : ∀ p ∈ l, p ∈ patternLibrary) : ∃ found gen', gen.search samples alphabet spaced stripped l = (.ok found, gen') ∧
      ∀ p ∈ found, ∃ f : Form, f.pattern = p ∧ Found gen.config samples stripped f := by
  induction l generalizing gen with
  | nil => exact ⟨none, gen, rfl, by simp⟩
  | cons p l ih =>
    obtain ⟨hp, hl⟩ := List.forall_mem_cons.mp hl
    obtain ⟨hconfig, f, hplain, hf⟩ := gen.narrow_spec hp alphabet
    obtain ⟨hconfig', hforms⟩ := forms_spec (gen.narrow p alphabet).2 hplain hspaced
    rw [hconfig] at hconfig'
    rw [hf] at hconfig' hforms
    obtain ⟨found, hfirst, hfound⟩ := firstCovering_spec
      ((gen.narrow p alphabet).2.forms (gen.narrow p alphabet).1 spaced stripped).2 samples hforms
    rw [hconfig'] at hfound
    rw [search]
    simp only [hfirst]
    rcases found with - | q
    · obtain ⟨found, gen', hsearch, hspec⟩ := ih _ hl
      rw [hconfig'] at hspec
      exact ⟨found, gen', hsearch, hspec⟩
    · exact ⟨some q, _, rfl, hfound⟩

/-! ### Decisions -/

/-- The pattern that stands for a token, in its form: `single` tells whether its root is that of single
characters. -/
structure PatternCovers (config : GeneralizeConfig) (n : String) (samples : SortedSet String) (fragment : Grammar)
    (f : Form) (single : Bool) : Prop where
  /-- The samples that the expression does not match are few enough for the allowed share. -/
  allowed : Allows config (missed f.pattern samples).length samples
  /-- The token derives what the strict expression matches. -/
  language : ∀ w, fragment.InLanguage n w ↔ (f.strict single).Matches w
  /-- A matched sample is derived if the expression of the pattern is faithful, or else if the strict one matches it,
  too; longer samples are lost where a pattern without white space in front is replaced by its single characters. -/
  covered : ∀ s ∈ samples, s ∉ missed f.pattern samples → f.IsFaithful ∨ (f.strict false).Matches s.toList →
    (single = true → f.spacing = none → s.toList.length = 1) → fragment.InLanguage n s.toList

/-- What a decision on the token `n` of the grammar `g` means for its samples. -/
def CoversToken (config : GeneralizeConfig) (g : Grammar) (n : String) (samples : SortedSet String)
    (fragment : Grammar) : Generalization → Prop
  | .spacedLiterals _ => ∀ s ∈ samples, fragment.InLanguage n s.toList
  | .literals => (config.thresholdGeneralization < samples.size ∧ ∀ s ∈ samples, fragment.InLanguage n s.toList) ∨
      samples.size ≤ config.thresholdGeneralization ∧
        ∀ w, InLanguage (g.overlay fragment) n w ↔ InLanguage g n w
  | .pattern root => ∃ f single, f.pattern.root single = root ∧ PatternCovers config n samples fragment f single

theorem not_mem_missed_iff {p : Pattern} (hs : s ∈ samples) : s ∉ missed p samples ↔ p.regex.Matches s.toList := by
  rw [← Regex.accepts_iff_matches, missed, List.mem_filter]
  have hmem : s ∈ samples.toList := hs
  simp [hmem]

/-- All of a word but its last character is white space, if at most one character is left behind white space. -/
theorem mem_spaceAlphabet_of_concat (hs : s ∈ samples) (hshort : (Stripped.split s).2.toList.length ≤ 1)
    {u : List Char} {a : Char} (h : s.toList = u ++ [a]) : ∀ c ∈ u, c ∈ (Stripped.ofSamples samples).spaceAlphabet := by
  intro c hc
  refine Stripped.mem_spaceAlphabet hs c ?_
  have hsplit := Stripped.toList_split s
  rw [h] at hsplit
  rcases hrest : (Stripped.split s).2.toList with - | ⟨b, rest⟩
  · rw [hrest, List.append_nil] at hsplit
    exact hsplit ▸ List.mem_append_left [a] hc
  · rw [hrest] at hshort hsplit
    obtain rfl : rest = [] := List.eq_nil_of_length_eq_zero (Nat.le_zero.mp (Nat.le_of_succ_le_succ hshort))
    exact (List.append_inj' hsplit rfl).1 ▸ hc

/-- A sample that is matched behind white space, and is not longer than one character without it, is matched as
white space with one character behind it. -/
theorem matches_strict_single (hf : SpacedBy f (.ofSamples samples)) (hs : s ∈ samples)
    (hshort : (Stripped.split s).2.toList.length ≤ 1) (hone : f.spacing = none → s.toList.length = 1)
    (h : (f.strict false).Matches s.toList) : (f.strict true).Matches s.toList := by
  by_cases hrun : f.inner.isRun = true
  · rcases hspacing : f.spacing with - | e
    · obtain ⟨a, ha⟩ := List.length_eq_one_iff.mp (hone hspacing)
      simp only [Form.strict, hspacing, hrun, Bool.and_false, Bool.and_true, Bool.false_eq_true, if_false, if_true]
        at h ⊢
      rw [Form.matches_innerStrict_iff f hrun, ha] at h
      exact Regex.matches_charClass_iff.mpr ⟨a, h.2 a List.mem_cons_self, ha⟩
    · simp only [Form.strict, hspacing, hrun, Bool.and_false, Bool.and_true, Bool.false_eq_true, if_false, if_true,
        Regex.matches_seq_iff, Regex.matches_group_iff, Regex.matches_star_charClass_iff,
        Form.matches_innerStrict_iff f hrun, Regex.matches_charClass_iff] at h ⊢
      obtain ⟨u, v, hsplit, -, hne, hv⟩ := h
      obtain ⟨v, a, rfl⟩ := (List.eq_nil_or_concat' v).resolve_left hne
      rw [← List.append_assoc] at hsplit
      refine ⟨u ++ v, [a], hsplit, fun c hc => ?_, a, hv a (List.mem_append_right v List.mem_cons_self), rfl⟩
      rw [hf e hspacing]
      exact mem_spaceAlphabet_of_concat hs hshort hsplit c hc
  · simpa only [Form.strict, hrun, Bool.false_and, Bool.false_eq_true, if_false] using h

theorem rootFor_eq (p : Pattern) (stripped : Stripped) : rootFor p stripped =
    p.root ((stripped.rest.toList.all fun s => decide (s.length ≤ 1)) && !p.whitespace) := by
  rw [rootFor, Pattern.root]
  rcases p.charName? with - | c <;> rfl

/-- The fragment of a pattern that was found. -/
theorem Found.patternCovers {config : GeneralizeConfig} (h : Found config samples (.ofSamples samples) f)
    (hn : isExternal n = true) : ∃ single, f.pattern.root single = rootFor f.pattern (.ofSamples samples) ∧
      PatternCovers config n samples
        (f.pattern.grammar.insert n [[.nonterminal (rootFor f.pattern (.ofSamples samples))]]) f single := by
  rw [rootFor_eq]
  generalize hsingle : (((Stripped.ofSamples samples).rest.toList.all fun s => decide (s.length ≤ 1)) &&
    !f.pattern.whitespace) = single
  have hlanguage : ∀ w, InLanguage (f.pattern.grammar.insert n [[.nonterminal (f.pattern.root single)]]) n w ↔
      (f.strict single).Matches w := fun w =>
    (inLanguage_token_iff hn (fun _ _ => f.isExternal_of_mem_mentions) (f.isExternal_root single)).trans
      (f.inLanguage_root_iff single)
  refine ⟨single, rfl, h.allowed, hlanguage, fun s hs hmatch hor hone => (hlanguage _).mpr ?_⟩
  have hstrict : (f.strict false).Matches s.toList := by
    rcases hor with hfaithful | hstrict
    · rw [← Form.regex_pattern hfaithful]
      exact (not_mem_missed_iff hs).mp hmatch
    · exact hstrict
  cases single with
  | false => exact hstrict
  | true =>
    rw [Bool.and_eq_true, List.all_eq_true] at hsingle
    have hshort := hsingle.1 _ (Stripped.mem_rest hs)
    rw [decide_eq_true_eq, ← String.length_toList] at hshort
    exact matches_strict_single h.spaced hs hshort (hone rfl) hstrict

/-! ### Literals behind white space -/

/-- The name of literals. -/
def literalName (id : Nat) : String := "<toknt" ++ toString id ++ ">"

/-- Literals as a pattern without an expression. -/
def literalPattern (id : Nat) (strings : SortedSet String) : Pattern :=
  { regex := .nothing
    stringName := literalName id
    charName? := none
    grammar := .ofList [(literalName id, literalRules strings)]
    whitespace := false }

theorem toList_literalName (id : Nat) :
    (literalName id).toList = '<' :: (("toknt".toList ++ (toString id).toList) ++ ['>']) := by
  simp [literalName, String.toList_append]

theorem alternatives_literalPattern (id : Nat) (strings : SortedSet String) (n : String) :
    (literalPattern id strings).grammar.alternatives n =
      if literalName id = n then literalRules strings else [] := by
  change Grammar.alternatives (OrderedMap.insert OrderedMap.empty _ _) n = _
  rw [Grammar.alternatives_insert]
  rfl

theorem wellNamed_literalPattern (id : Nat) (strings : SortedSet String) : (literalPattern id strings).WellNamed := by
  have hfree : isReserved (literalName id) = false := by
    rw [isReserved, toList_literalName]
    rfl
  have hname : isNonterminalName (literalName id) = true :=
    isNonterminalName_of_toList (toList_literalName id) (by simp)
  have hroot : ∀ n ∈ (literalPattern id strings).roots, n = literalName id := fun n hn => List.mem_singleton.mp hn
  refine ⟨⟨fun n hn => ?_, fun n m hm => ?_⟩, fun n hn => hroot n hn ▸ hfree, fun n hn => hroot n hn ▸ hname, by
    simp [literalPattern]⟩
  · rcases Grammar.contains_insert.mp hn with rfl | hn
    · exact hfree
    · cases hn
  · obtain ⟨body, hbody, hmem⟩ := Grammar.mem_mentions_iff.mp hm
    rw [alternatives_literalPattern] at hbody
    split at hbody
    · obtain ⟨s, -, rfl⟩ := List.mem_map.mp hbody
      cases List.mem_singleton.mp hmem
    · cases hbody

/-- Literals behind white space derive every sample. -/
theorem spacedLiterals_covers (gen : Generalizer) (hn : isExternal n = true) (hs : s ∈ samples) :
    InLanguage (gen.spacedLiterals n (.ofSamples samples)).1.2 n s.toList := by
  let id := gen.literalCount + 1
  let spaceId := ({ gen with literalCount := id }.spaceId (Stripped.ofSamples samples).spaceAlphabet).1
  let p := literalPattern id (Stripped.ofSamples samples).rest
  have hnamed : p.WellNamed := wellNamed_literalPattern id _
  have hspaced := hnamed.spaced (Stripped.ofSamples samples).spaceAlphabet spaceId
  refine (inLanguage_token_iff hn hspaced.mentioned (Pattern.isExternal_spacedName spaceId p.stringName)).mpr ?_
  refine (hnamed.inLanguage_spacedName_iff _ spaceId (Pattern.mem_roots_iff.mpr (.inl rfl))).mpr ?_
  refine ⟨_, _, Stripped.toList_split s, Stripped.mem_spaceAlphabet hs, ?_⟩
  refine (inLanguage_literals_iff ?_).mpr ⟨_, Stripped.mem_rest hs, rfl⟩
  exact (alternatives_literalPattern id _ _).trans (if_pos rfl)

theorem alternatives_ofList_singleton (rules : List Rule) (n m : String) :
    Grammar.alternatives (.ofList [(n, rules)]) m = if n = m then rules else [] := by
  change Grammar.alternatives (OrderedMap.insert OrderedMap.empty _ _) m = _
  rw [Grammar.alternatives_insert]
  rfl

/-- With its own alternatives, a token keeps its meaning. -/
theorem inLanguage_overlay_self_iff (g : Grammar) (n m : String) (w : List Char) :
    InLanguage (g.overlay (.ofList [(n, g.alternatives n)])) m w ↔ InLanguage g m w := by
  have hsame : ∀ k, Grammar.alternatives (g.overlay (.ofList [(n, g.alternatives n)])) k = g.alternatives k := by
    intro k
    rw [Grammar.alternatives_overlay, alternatives_ofList_singleton]
    by_cases hk : n = k
    · rw [if_pos hk, hk, ite_self]
    · rw [if_neg]
      intro hdefined
      rcases Grammar.contains_insert.mp hdefined with h | h
      · exact hk h
      · cases h
  exact Grammar.inLanguage_iff_of_agree (K := Set.univ) (fun k _ => hsame k) (fun _ _ _ _ => trivial) trivial

/-- A token is always decided on.  Literals, behind white space or all that were seen, derive every sample, and a
token that is left as it is derives what it did.  A pattern does not match more samples than are allowed to be
missed, and its fragment derives those that it matches, unless the expression is one of the loose ones and only this
one matches, or a longer sample was taken for a single character; in any case the words that the token derives are
those of the strict expression. -/
theorem generalizeToken_covers_samples (gen : Generalizer) (g : Grammar) (samples : SortedSet String)
    (alphabet : SortedSet Char) (hn : isExternal n = true) : ∃ decision fragment gen',
      gen.generalizeToken n (g.alternatives n) samples alphabet = (.ok (decision, fragment), gen') ∧
        CoversToken gen.config g n samples fragment decision := by
  simp only [generalizeToken]
  generalize hspaced : (decide (0 < (Stripped.ofSamples samples).spacedCount) &&
    decide (Float.ofNat samples.size * gen.config.spaceRatio ≤
      Float.ofNat (Stripped.ofSamples samples).spacedCount)) = spaced
  have hspace : spaced = true → (Stripped.ofSamples samples).spaceAlphabet.isEmpty = false := by
    rintro rfl
    rw [Bool.and_eq_true, decide_eq_true_eq] at hspaced
    exact Stripped.isEmpty_spaceAlphabet hspaced.1
  split
  · exact ⟨_, _, _, rfl, fun s hs => gen.spacedLiterals_covers hn hs⟩
  · split
    · rename_i hsize
      exact ⟨_, _, _, rfl, .inr ⟨hsize, inLanguage_overlay_self_iff g n n⟩⟩
    · rename_i hsize
      obtain ⟨found, gen', hsearch, hfound⟩ := gen.search_spec samples alphabet hspace fun p hp => hp
      rw [hsearch]
      rcases found with - | p
      · refine ⟨_, _, _, rfl, .inl ⟨Nat.lt_of_not_le hsize, fun s hs => ?_⟩⟩
        refine (inLanguage_literals_iff ?_).mpr ⟨s, hs, rfl⟩
        rw [alternatives_ofList_singleton, if_pos rfl]
      · obtain ⟨f, rfl, hf⟩ := hfound p rfl
        obtain ⟨single, hroot, hcovers⟩ := hf.patternCovers hn
        exact ⟨_, _, _, rfl, f, single, hroot, hcovers⟩

/-- A grammar with a token of which two strings were seen. -/
def twoNumbers : Grammar := .ofList [("<__external_num>", [[.terminal "12"], [.terminal "7"]])]

/-- Two samples are more than the threshold of one, and a pattern is looked for. -/
theorem generalizeToken_twoNumbers : isExternal "<__external_num>" = true ∧ ∃ decision fragment gen',
    (new { thresholdGeneralization := 1 }).generalizeToken "<__external_num>"
      (twoNumbers.alternatives "<__external_num>") (.ofList ["12", "7"]) (.ofList ['1', '2', '7']) =
        (.ok (decision, fragment), gen') ∧
      CoversToken { thresholdGeneralization := 1 } twoNumbers "<__external_num>" (.ofList ["12", "7"]) fragment
        decision :=
  ⟨by decide, generalizeToken_covers_samples (new { thresholdGeneralization := 1 }) twoNumbers (.ofList ["12", "7"])
    (.ofList ['1', '2', '7']) (by decide)⟩

/-! ### A sample that is lost -/

/-- Is the pattern narrowed? -/
def isNarrowed (p : Pattern) (alphabet : SortedSet Char) : Bool :=
  p.isRun && !alphabet.isEmpty && decide (alphabet ≠ p.alphabet) && alphabet.isSubset p.alphabet

theorem narrow_eq_self (gen : Generalizer) {p : Pattern} (h : isNarrowed p alphabet = false) :
    gen.narrow p alphabet = (p, gen) := by
  rw [isNarrowed] at h
  exact if_neg (by rw [h]; exact Bool.false_ne_true)

/-- A pattern that is tried as it is, without success, is skipped. -/
theorem search_cons_of_missed (gen : Generalizer) {p : Pattern} {rest : List Pattern}
    (hplain : isNarrowed p alphabet = false) (husable : p.regex.isUsable = true)
    (hmissed : ¬Allows gen.config (missed p samples).length samples) :
    gen.search samples alphabet false stripped (p :: rest) = gen.search samples alphabet false stripped rest := by
  have hcovers : gen.covers p samples = .ok false := by
    rw [covers_eq gen husable, decide_eq_false hmissed, Bool.and_false]
  rw [search]
  simp only [narrow_eq_self gen hplain, forms, Bool.and_false, Bool.false_eq_true, if_false, firstCovering, hcovers]

/-- A pattern that is tried as it is, with success, is found. -/
theorem search_cons_of_allowed (gen : Generalizer) {p : Pattern} {rest : List Pattern}
    (hplain : isNarrowed p alphabet = false) (husable : p.regex.isUsable = true) (hne : samples.isEmpty = false)
    (hmissed : Allows gen.config (missed p samples).length samples) :
    gen.search samples alphabet false stripped (p :: rest) = (.ok (some p), gen) := by
  have hcovers : gen.covers p samples = .ok true := by
    rw [covers_eq gen husable, decide_eq_true hmissed, hne]
    rfl
  rw [search]
  simp only [narrow_eq_self gen hplain, forms, Bool.and_false, Bool.false_eq_true, if_false, firstCovering, hcovers]

theorem search_append_of_missed (gen : Generalizer) {l rest : List Pattern}
    (h : ∀ p ∈ l, isNarrowed p alphabet = false ∧ p.regex.isUsable = true ∧
      ¬Allows gen.config (missed p samples).length samples) :
    gen.search samples alphabet false stripped (l ++ rest) = gen.search samples alphabet false stripped rest := by
  induction l with
  | nil => rfl
  | cons p l ih =>
    obtain ⟨⟨hplain, husable, hmissed⟩, hl⟩ := List.forall_mem_cons.mp h
    rw [List.cons_append, search_cons_of_missed gen hplain husable hmissed, ih hl]

/-- The only sample of a number, with nothing behind its point. -/
def pointed : SortedSet String := .ofList ["1."]

/-- A grammar with this number as a token. -/
def pointedNumber : Grammar := .ofList [("<__external_num>", literalRules pointed)]

/-- Settings by which a single sample is replaced by a pattern. -/
def patternsOnly : GeneralizeConfig := { thresholdGeneralization := 0 }

/-- The patterns before the first one for numbers do not match the sample. -/
theorem missed_of_mem_take : ∀ p ∈ patternLibrary.take 6, isNarrowed p (.ofList ['.', '1']) = false ∧
    p.regex.isUsable = true ∧ (missed p pointed).length = 1 := by
  decide +kernel

/-- The first pattern for numbers. -/
def simpleNumber : Pattern := .fragment .pointedNumber "<float_simple_2>" numberGrammar

/-- A sample that is in the language of its token, and is matched by the pattern that is found for it, is not derived
by the fragment. -/
theorem generalizeToken_pointed : isExternal "<__external_num>" = true ∧
    (∀ s ∈ pointed, InLanguage pointedNumber "<__external_num>" s.toList) ∧
    ∃ fragment gen',
      (new patternsOnly).generalizeToken "<__external_num>" (pointedNumber.alternatives "<__external_num>") pointed
        (.ofList ['.', '1']) = (.ok (.pattern "<float_simple_2>", fragment), gen') ∧
      ∀ s ∈ pointed, ¬fragment.InLanguage "<__external_num>" s.toList := by
  have hlanguage : ∀ s ∈ pointed, InLanguage pointedNumber "<__external_num>" s.toList := fun s hs =>
    (inLanguage_literals_iff ((alternatives_ofList_singleton _ _ _).trans (if_pos rfl))).mpr ⟨s, hs, rfl⟩
  have hnone : Allows patternsOnly 0 pointed := by decide +kernel
  have hone : ¬Allows patternsOnly 1 pointed := by decide +kernel
  refine ⟨by decide, hlanguage, ?_⟩
  have hspaced : (Stripped.ofSamples pointed).spacedCount = 0 := by decide +kernel
  have hsearch : (new patternsOnly).search pointed (.ofList ['.', '1']) false (.ofSamples pointed) patternLibrary =
      (.ok (some simpleNumber), new patternsOnly) := by
    rw [← List.take_append_drop 6 patternLibrary, search_append_of_missed]
    · refine search_cons_of_allowed (new patternsOnly) (p := simpleNumber) (by decide) (by decide) (by decide) ?_
      have hmissed : (missed simpleNumber pointed).length = 0 := by decide +kernel
      rwa [hmissed]
    · intro p hp
      obtain ⟨hplain, husable, hmissed⟩ := missed_of_mem_take p hp
      exact ⟨hplain, husable, hmissed ▸ hone⟩
  refine ⟨simpleNumber.grammar.insert "<__external_num>" [[.nonterminal "<float_simple_2>"]], new patternsOnly, ?_, ?_⟩
  · simp only [generalizeToken, hspaced, Nat.lt_irrefl, decide_false, Bool.false_and, Bool.false_eq_true, if_false]
    rw [if_neg (by decide), hsearch]
    rfl
  · have hmem : simpleNumber ∈ patternLibrary := List.mem_of_getElem? (i := 6) rfl
    have hwords := words_of_mem_library hmem
    intro s hs h
    obtain rfl : s = "1." := List.mem_singleton.mp hs
    have hroot : InLanguage simpleNumber.grammar simpleNumber.stringName "1.".toList :=
      (inLanguage_token_iff (by decide)
        (fun k m hm => Pattern.isExternal_of_free (hwords.within.mentioned k m hm)) (by decide)).mp h
    have hmatch : simpleNumber.strict.accepts "1.".toList = true :=
      (Regex.accepts_iff_matches _ _).mpr ((hwords.string _).mp hroot)
    exact absurd hmatch (by decide +kernel)

end Generalizer

end GrammarInference
