/-
GrammarInference/Proofs/Generalization/Selection.lean

Which pattern is selected for a token.

Design.  The patterns are tried in the order of the library, each of them in up to two forms, and numbers for narrowed
patterns are given out on the way.  All this depends on the alphabet and on the state before the first trial only, so
the candidates can be listed beforehand (`candidates`), and the search is that for the first element of a list
(`search_eq`).  A candidate is taken if the share of the samples that it misses is less than the allowed one.

The comparison is strict.  If the allowed share is more than zero, then a candidate that misses nothing is taken; if it
is zero, then no candidate ever is, not even one that matches all samples.
-/
import GrammarInference.Proofs.Generalization.Coverage
import GrammarInference.Proofs.Generalization.Share
import GrammarInference.Proofs.Pattern.InStep

namespace GrammarInference

namespace Generalizer

variable {gen : Generalizer} {config : GeneralizeConfig} {p : Pattern} {n : String} {samples : SortedSet String}
  {alphabet : SortedSet Char} {spaced : Bool} {stripped : Stripped}

/-! ### Candidates -/

/-- The share of the samples that the pattern misses. -/
def missedShare (p : Pattern) (samples : SortedSet String) : Float :=
  Float.ofNat (missed p samples).length / Float.ofNat samples.size

/-- Is this share less than the allowed one? -/
def isAllowed (config : GeneralizeConfig) (samples : SortedSet String) (p : Pattern) : Bool :=
  decide (missedShare p samples < config.allowedMismatchRate)

-- one of twenty samples is too many if the allowed share is a twentieth
example : ¬Float.ofNat 1 / Float.ofNat 20 < 0.05 := by decide +kernel

/-- The forms in which a pattern is tried: as it is, and then behind white space, unless it is one of white space. -/
def formsOf (spacing : Option (SortedSet Char × Nat)) (p : Pattern) : List Pattern :=
  p :: if p.whitespace then [] else spacing.toList.map fun e => p.withLeadingSpace e.1 e.2

/-- The candidates that come of some patterns, in the order in which they are tried.  Where the alphabet is a proper
part of that of a run, the run is narrowed to it, and the narrowed ones are numbered from `count + 1` on. -/
def candidatesFrom (alphabet : SortedSet Char) (spacing : Option (SortedSet Char × Nat)) :
    Nat → List Pattern → List Pattern
  | _, [] => []
  | count, p :: rest =>
    if isNarrowed p alphabet then
      formsOf spacing (p.narrowed alphabet (count + 1)) ++ candidatesFrom alphabet spacing (count + 1) rest
    else formsOf spacing p ++ candidatesFrom alphabet spacing count rest

/-- The white space that patterns are put behind, with its number. -/
def spacing (gen : Generalizer) (spaced : Bool) (stripped : Stripped) : Option (SortedSet Char × Nat) :=
  if spaced then some (stripped.spaceAlphabet, (gen.spaceId stripped.spaceAlphabet).1) else none

/-! ### The search -/

/-- A set of white space keeps its number. -/
theorem spaceId_spaceId (gen : Generalizer) (chars : SortedSet Char) :
    ((gen.spaceId chars).2.spaceId chars).1 = (gen.spaceId chars).1 := by
  show ((gen.spaces.insert chars).insert chars).indexOf chars + 1 = _
  rw [OrderedSet.insert_of_mem (OrderedSet.mem_insert.mpr (.inr rfl))]
  rfl

theorem narrow_eq (gen : Generalizer) (p : Pattern) (alphabet : SortedSet Char) : gen.narrow p alphabet =
    if isNarrowed p alphabet then
      (p.narrowed alphabet (gen.patternCount + 1), { gen with patternCount := gen.patternCount + 1 })
    else (p, gen) :=
  rfl

theorem forms_eq (gen : Generalizer) (p : Pattern) (spaced : Bool) (stripped : Stripped) :
    (gen.forms p spaced stripped).1 = formsOf (gen.spacing spaced stripped) p ∧
      (gen.forms p spaced stripped).2.patternCount = gen.patternCount ∧
      (gen.forms p spaced stripped).2.spacing spaced stripped = gen.spacing spaced stripped := by
  rw [forms, formsOf]
  cases hwhite : p.whitespace <;> cases spaced
  · exact ⟨rfl, rfl, rfl⟩
  · refine ⟨rfl, rfl, ?_⟩
    show some (stripped.spaceAlphabet, ((gen.spaceId stripped.spaceAlphabet).2.spaceId stripped.spaceAlphabet).1) = _
    rw [spaceId_spaceId]
    rfl
  · exact ⟨rfl, rfl, rfl⟩
  · exact ⟨rfl, rfl, rfl⟩

theorem firstCovering_eq (gen : Generalizer) (hne : samples.isEmpty = false) {l : List Pattern}
    (hl : ∀ q ∈ l, q.regex.isUsable = true) :
    gen.firstCovering samples l = .ok (l.find? (isAllowed gen.config samples)) := by
  induction l with
  | nil => rfl
  | cons q l ih =>
    obtain ⟨hq, hl⟩ := List.forall_mem_cons.mp hl
    have hcovers : gen.covers q samples = .ok (isAllowed gen.config samples q) := by
      rw [covers_eq gen hq, hne]
      rfl
    rw [firstCovering, hcovers, List.find?_cons]
    cases isAllowed gen.config samples q with
    | true => rfl
    | false => exact ih hl

/-- The search gives the first candidate that is allowed. -/
theorem search_eq (gen : Generalizer) (hne : samples.isEmpty = false)
    (hspaced : spaced = true → stripped.spaceAlphabet.isEmpty = false) {l : List Pattern}
    (hl : ∀ p ∈ l, p ∈ patternLibrary) : (gen.search samples alphabet spaced stripped l).1 =
      .ok ((candidatesFrom alphabet (gen.spacing spaced stripped) gen.patternCount l).find?
        (isAllowed gen.config samples)) := by
  induction l generalizing gen with
  | nil => rfl
  | cons p l ih =>
    obtain ⟨hp, hl⟩ := List.forall_mem_cons.mp hl
    obtain ⟨hconfig, f, hplain, hf⟩ := gen.narrow_spec hp alphabet
    obtain ⟨hconfig', hforms⟩ := forms_spec (gen.narrow p alphabet).2 hplain hspaced
    rw [hconfig] at hconfig'
    rw [hf] at hconfig' hforms
    obtain ⟨hlist, hcount, hspacing⟩ :=
      forms_eq (gen.narrow p alphabet).2 (gen.narrow p alphabet).1 spaced stripped
    have husable : ∀ q ∈ ((gen.narrow p alphabet).2.forms (gen.narrow p alphabet).1 spaced stripped).1,
        q.regex.isUsable = true := by
      intro q hq
      obtain ⟨f', rfl, -⟩ := hforms q hq
      exact f'.isUsable
    have hfirst := firstCovering_eq
      ((gen.narrow p alphabet).2.forms (gen.narrow p alphabet).1 spaced stripped).2 hne husable
    rw [hconfig', hlist] at hfirst
    have hrest := ih ((gen.narrow p alphabet).2.forms (gen.narrow p alphabet).1 spaced stripped).2 hl
    rw [hconfig', hcount, hspacing] at hrest
    -- the candidates of this pattern come first
    have hcandidates : candidatesFrom alphabet (gen.spacing spaced stripped) gen.patternCount (p :: l) =
        formsOf ((gen.narrow p alphabet).2.spacing spaced stripped) (gen.narrow p alphabet).1 ++
          candidatesFrom alphabet ((gen.narrow p alphabet).2.spacing spaced stripped)
            (gen.narrow p alphabet).2.patternCount l := by
      rw [candidatesFrom, narrow_eq]
      split <;> rfl
    rw [search, hcandidates, List.find?_append]
    simp only [hlist, hfirst]
    cases (formsOf ((gen.narrow p alphabet).2.spacing spaced stripped) (gen.narrow p alphabet).1).find?
        (isAllowed gen.config samples) with
    | some q => rfl
    | none => exact hrest

/-! ### Tokens -/

/-- Are the samples taken to stand behind white space? -/
def isSpaced (gen : Generalizer) (samples : SortedSet String) : Bool :=
  decide (0 < (Stripped.ofSamples samples).spacedCount) &&
    decide (Float.ofNat samples.size * gen.config.spaceRatio ≤ Float.ofNat (Stripped.ofSamples samples).spacedCount)

/-- Do few literals behind white space stand for the token? -/
def takesSpacedLiterals (gen : Generalizer) (samples : SortedSet String) : Bool :=
  gen.isSpaced samples && decide ((Stripped.ofSamples samples).rest.size ≤ gen.config.thresholdGeneralization) &&
    !(Stripped.ofSamples samples).isSpaceOnly

/-- The patterns that are tried on the samples of a token, in order. -/
def candidates (gen : Generalizer) (samples : SortedSet String) (alphabet : SortedSet Char) : List Pattern :=
  candidatesFrom alphabet (gen.spacing (gen.isSpaced samples) (.ofSamples samples)) gen.patternCount patternLibrary

/-- The pattern that is selected: the first one that does not miss too large a share of the samples. -/
def selected? (gen : Generalizer) (samples : SortedSet String) (alphabet : SortedSet Char) : Option Pattern :=
  (gen.candidates samples alphabet).find? (isAllowed gen.config samples)

/-- What a token becomes: its selected pattern, or its samples if there is none. -/
def replacement (n : String) (samples : SortedSet String) : Option Pattern → Generalization × Grammar
  | some p =>
    (.pattern (rootFor p (.ofSamples samples)),
      p.grammar.insert n [[.nonterminal (rootFor p (.ofSamples samples))]])
  | none => (.literals, .ofList [(n, literalRules samples)])

theorem generalizeToken_eq (gen : Generalizer) (n : String) (rules : List Rule) (alphabet : SortedSet Char)
    (hmany : gen.config.thresholdGeneralization < samples.size) (hroute : gen.takesSpacedLiterals samples = false) :
    (gen.generalizeToken n rules samples alphabet).1 =
      .ok (replacement n samples (gen.selected? samples alphabet)) := by
  have hne : samples.isEmpty = false := by
    rw [SortedSet.isEmpty, List.isEmpty_eq_false_iff]
    exact List.ne_nil_of_length_pos (Nat.zero_lt_of_lt hmany)
  have hspaced : gen.isSpaced samples = true → (Stripped.ofSamples samples).spaceAlphabet.isEmpty = false := by
    intro h
    rw [isSpaced, Bool.and_eq_true, decide_eq_true_eq] at h
    exact Stripped.isEmpty_spaceAlphabet h.1
  have hsearch : (gen.search samples alphabet (gen.isSpaced samples) (.ofSamples samples) patternLibrary).1 =
      .ok (gen.selected? samples alphabet) := search_eq gen hne hspaced fun p hp => hp
  have hmany' : ¬samples.size ≤ gen.config.thresholdGeneralization := Nat.not_le.mpr hmany
  rw [isSpaced] at hsearch
  rw [takesSpacedLiterals, isSpaced] at hroute
  simp only [generalizeToken, hroute, Bool.false_eq_true, if_false, if_neg hmany']
  rcases hresult : gen.search samples alphabet _ (.ofSamples samples) patternLibrary with ⟨found, gen'⟩
  rw [hresult] at hsearch
  obtain rfl : found = .ok (gen.selected? samples alphabet) := hsearch
  rcases gen.selected? samples alphabet with - | p <;> rfl

/-! ### The allowed share -/

/-- Where nothing may be missed, no pattern is good enough. -/
theorem isAllowed_eq_false (h : ¬0 < config.allowedMismatchRate) (samples : SortedSet String) (p : Pattern) :
    isAllowed config samples p = false :=
  decide_eq_false fun hallowed => h (Share.pos_of_share_lt hallowed)

/-- Where something may be missed, a pattern that misses nothing is good enough. -/
theorem isAllowed_of_missed_eq_nil (hrate : 0 < config.allowedMismatchRate) (hsize : 0 < samples.size)
    (hmissed : missed p samples = []) : isAllowed config samples p = true := by
  rw [isAllowed, decide_eq_true_eq, missedShare, hmissed]
  exact (Share.share_zero_lt_iff hsize).mpr hrate

theorem exists_find?_eq_some {l l' : List Pattern} {test : Pattern → Bool} (h : test p = true) :
    ∃ q ∈ l ++ [p], (l ++ p :: l').find? test = some q := by
  have hfound : ((l ++ [p]).find? test).isSome = true :=
    List.find?_isSome.mpr ⟨p, List.mem_append_right l List.mem_cons_self, h⟩
  obtain ⟨q, hq⟩ := Option.isSome_iff_exists.mp hfound
  refine ⟨q, List.mem_of_find?_eq_some hq, ?_⟩
  rw [← List.singleton_append, ← List.append_assoc, List.find?_append, hq]
  rfl

/-- A token with more samples than the threshold, that few literals behind white space do not stand for, becomes the
first candidate of which the share of missed samples is less than the allowed one, or else its samples.  A candidate
that misses exactly the allowed share is not taken.  If this is more than zero, then a candidate that matches all
samples is taken unless an earlier one is; if it is not, then no candidate is taken, whatever the samples are. -/
theorem generalizeToken_selects_first (gen : Generalizer) (n : String) (rules : List Rule) (alphabet : SortedSet Char)
    (hmany : gen.config.thresholdGeneralization < samples.size) (hroute : gen.takesSpacedLiterals samples = false) :
    ∃ selected, (gen.generalizeToken n rules samples alphabet).1 = .ok (replacement n samples selected) ∧
      selected = ((gen.candidates samples alphabet).find? fun p =>
        decide (missedShare p samples < gen.config.allowedMismatchRate)) ∧
      (∀ p, missedShare p samples = gen.config.allowedMismatchRate → selected ≠ some p) ∧
      (0 < gen.config.allowedMismatchRate → ∀ before p after,
        gen.candidates samples alphabet = before ++ p :: after → missed p samples = [] →
          ∃ q ∈ before ++ [p], selected = some q) ∧
      (¬0 < gen.config.allowedMismatchRate → selected = none) := by
  refine ⟨gen.selected? samples alphabet, generalizeToken_eq gen n rules alphabet hmany hroute, rfl,
    fun p hshare hselected => ?_, fun hrate before p after hlist hmissed => ?_, fun hrate => ?_⟩
  · have hallowed := List.find?_some hselected
    rw [isAllowed, decide_eq_true_eq, hshare] at hallowed
    exact Share.not_lt_self _ hallowed
  · have hallowed := isAllowed_of_missed_eq_nil hrate (Nat.zero_lt_of_lt hmany) hmissed
    rw [selected?, hlist]
    exact exists_find?_eq_some hallowed
  · exact List.find?_eq_none.mpr fun p _ => Bool.eq_false_iff.mp (isAllowed_eq_false hrate samples p)

/-- Digits are tried first. -/
theorem exists_candidates_eq_cons (gen : Generalizer) (samples : SortedSet String)
    (h : isNarrowed Pattern.digitRun alphabet = true) : ∃ rest,
      gen.candidates samples alphabet = Pattern.digitRun.narrowed alphabet (gen.patternCount + 1) :: rest := by
  have hlibrary : patternLibrary = Pattern.digitRun :: patternLibrary.tail := rfl
  rw [candidates, hlibrary, candidatesFrom, if_pos h]
  exact ⟨_, rfl⟩

/-- Settings by which two samples are replaced by a pattern. -/
def twoOrMore : GeneralizeConfig := { thresholdGeneralization := 1 }

/-- Two numbers, made of three digits, become a run of these. -/
theorem generalizeToken_selects_digits :
    (new twoOrMore).config.thresholdGeneralization < (SortedSet.ofList ["12", "7"]).size ∧
    (new twoOrMore).takesSpacedLiterals (.ofList ["12", "7"]) = false ∧
    ((new twoOrMore).generalizeToken "<__external_num>" [] (.ofList ["12", "7"]) (.ofList ['1', '2', '7'])).1 =
      .ok (replacement "<__external_num>" (.ofList ["12", "7"])
        (some (Pattern.digitRun.narrowed (.ofList ['1', '2', '7']) 1))) := by
  have hmany : (new twoOrMore).config.thresholdGeneralization < (SortedSet.ofList ["12", "7"]).size := by decide +kernel
  have hroute : (new twoOrMore).takesSpacedLiterals (.ofList ["12", "7"]) = false := by decide +kernel
  have hmissed : missed (Pattern.digitRun.narrowed (.ofList ['1', '2', '7']) 1) (.ofList ["12", "7"]) = [] := by
    decide +kernel
  have hnarrowed : isNarrowed Pattern.digitRun (.ofList ['1', '2', '7']) = true := by decide +kernel
  obtain ⟨selected, hresult, -, -, hmatching, -⟩ :=
    generalizeToken_selects_first (new twoOrMore) "<__external_num>" [] (.ofList ['1', '2', '7']) hmany hroute
  obtain ⟨rest, hlist⟩ := exists_candidates_eq_cons (new twoOrMore) (.ofList ["12", "7"]) hnarrowed
  obtain ⟨q, hq, rfl⟩ := hmatching (by decide +kernel) [] _ rest hlist hmissed
  obtain rfl := List.mem_singleton.mp hq
  exact ⟨hmany, hroute, hresult⟩

/-- Settings by which a single sample is replaced by a pattern, which may miss nothing. -/
def noneMissed : GeneralizeConfig := { thresholdGeneralization := 0, allowedMismatchRate := 0 }

/-- With an allowed share of zero, a number is listed as it is, although the first candidate matches it. -/
theorem generalizeToken_noneMissed :
    (∃ p ∈ (new noneMissed).candidates (.ofList ["12"]) (.ofList ['1', '2']), missed p (.ofList ["12"]) = []) ∧
    ((new noneMissed).generalizeToken "<__external_num>" [[.terminal "12"]] (.ofList ["12"]) (.ofList ['1', '2'])).1 =
      .ok (.literals, .ofList [("<__external_num>", [[.terminal "12"]])]) := by
  have hmissed : missed (Pattern.digitRun.narrowed (.ofList ['1', '2']) 1) (.ofList ["12"]) = [] := by decide +kernel
  have hnarrowed : isNarrowed Pattern.digitRun (.ofList ['1', '2']) = true := by decide +kernel
  have hmany : (new noneMissed).config.thresholdGeneralization < (SortedSet.ofList ["12"]).size := by decide +kernel
  have hroute : (new noneMissed).takesSpacedLiterals (.ofList ["12"]) = false := by decide +kernel
  have hrate : ¬0 < noneMissed.allowedMismatchRate := Share.not_lt_self 0
  have hnone : (new noneMissed).selected? (.ofList ["12"]) (.ofList ['1', '2']) = none :=
    List.find?_eq_none.mpr fun p _ => Bool.eq_false_iff.mp (isAllowed_eq_false hrate (.ofList ["12"]) p)
  have hresult :=
    generalizeToken_eq (new noneMissed) "<__external_num>" [[.terminal "12"]] (.ofList ['1', '2']) hmany hroute
  rw [hnone] at hresult
  obtain ⟨rest, hlist⟩ := exists_candidates_eq_cons (new noneMissed) (.ofList ["12"]) hnarrowed
  exact ⟨⟨_, hlist ▸ List.mem_cons_self, hmissed⟩, hresult⟩

end Generalizer

end GrammarInference
