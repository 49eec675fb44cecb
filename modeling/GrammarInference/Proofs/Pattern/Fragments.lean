/-
GrammarInference/Proofs/Pattern/Fragments.lean

Expressions for what a fragment derives.

Design.  The only recursion in a fragment is that of runs: a nonterminal for words, and one for their characters.
Everything else is unfolded, a nonterminal into a choice between its alternatives and an alternative into a
sequence, so that a fragment becomes an expression for the words that it derives (`Grammar.expression`).  The
unfolding is computed; for every pattern of the library its branches are those of an expression that is written
down here, `Pattern.strict`.

For half of the patterns this is the expression of the pattern itself.  The expressions of the others match more
than their fragments derive: `looseExpressions` lists what is left of them.
-/
import GrammarInference.Proofs.Grammar.Derivation
import GrammarInference.Proofs.Pattern.Words

namespace GrammarInference

namespace Grammar

variable {g : Grammar} {n s c : String} {r : Rule} {rs : List Rule} {a b : Regex} {chars : List Char}
  {w : List Char}

/-! ### Runs -/

theorem inLanguage_chars_iff (h : g.alternatives c = charRules chars) :
    InLanguage g c w ↔ ∃ a ∈ chars, w = [a] := by
  rw [InLanguage, h, charRules]
  simp only [List.mem_map]
  constructor
  · rintro ⟨-, ⟨a, ha, rfl⟩, hw⟩
    refine ⟨a, ha, ?_⟩
    rw [derives_terminal_iff.mp hw, String.toList_singleton]
  · rintro ⟨a, ha, rfl⟩
    refine ⟨_, ⟨a, ha, rfl⟩, derives_terminal_iff.mpr ?_⟩
    rw [String.toList_singleton]

theorem inLanguage_run_cons_iff (hs : g.alternatives s = runRules s c)
    (hc : g.alternatives c = charRules chars) {a : Char} :
    InLanguage g s (a :: w) ↔ a ∈ chars ∧ (w = [] ∨ InLanguage g s w) := by
  rw [InLanguage, hs, runRules]
  simp only [List.mem_cons, List.not_mem_nil, or_false, exists_eq_or_imp, exists_eq_left,
    derives_nonterminal_cons_iff, derives_nil_iff, inLanguage_chars_iff hc]
  constructor
  · rintro (⟨-, v, heq, ⟨b, hb, rfl⟩, u, -, rfl, hu, rfl⟩ | ⟨-, v, heq, ⟨b, hb, rfl⟩, rfl⟩)
    · obtain ⟨rfl, rfl⟩ := List.cons.inj heq
      rw [List.append_nil]
      exact ⟨hb, .inr hu⟩
    · obtain ⟨rfl, rfl⟩ := List.cons.inj heq
      exact ⟨hb, .inl rfl⟩
  · rintro ⟨ha, rfl | hw⟩
    · exact .inr ⟨[a], [], rfl, ⟨a, ha, rfl⟩, rfl⟩
    · exact .inl ⟨[a], w, rfl, ⟨a, ha, rfl⟩, w, [], (List.append_nil w).symm, hw, rfl⟩

theorem not_inLanguage_run_nil (hs : g.alternatives s = runRules s c)
    (hc : g.alternatives c = charRules chars) : ¬InLanguage g s [] := by
  rintro ⟨body, hbody, hd⟩
  rw [hs, runRules, List.mem_pair] at hbody
  have hnil : InLanguage g c [] := by
    rcases hbody with rfl | rfl
    · obtain ⟨u, v, heq, hu, -⟩ := derives_nonterminal_cons_iff.mp hd
      rwa [(List.append_eq_nil_iff.mp heq.symm).1] at hu
    · exact derives_singleton_iff.mp hd
  obtain ⟨a, -, heq⟩ := (inLanguage_chars_iff hc).mp hnil
  cases heq

/-- The words of a run are made of one character or more. -/
theorem inLanguage_run_iff (hs : g.alternatives s = runRules s c) (hc : g.alternatives c = charRules chars) :
    InLanguage g s w ↔ w ≠ [] ∧ ∀ a ∈ w, a ∈ chars := by
  induction w with
  | nil => exact iff_of_false (not_inLanguage_run_nil hs hc) fun h => h.1 rfl
  | cons a w ih =>
    rw [inLanguage_run_cons_iff hs hc, ih, List.forall_mem_cons]
    by_cases hw : w = []
    · simp [hw]
    · simp [hw]

/-! ### Unfolding -/

/-- The characters of a text one after another. -/
def textExpression : List Char → Regex
  | [] => .nothing
  | c :: rest => .seq (.char c false) (textExpression rest)

/-- The symbols of an alternative one after another, where expressions for names are given. -/
def ruleExpression (f : String → Option Regex) : Rule → Option Regex
  | [] => some .nothing
  | .terminal t :: r => (ruleExpression f r).map (.seq (textExpression t.toList))
  | .nonterminal m :: r => (f m).bind fun a => (ruleExpression f r).map (.seq a)

/-- A choice between some alternatives. -/
def rulesExpression (f : String → Option Regex) : List Rule → Option Regex
  | [] => some (.oneOf [])
  | r :: rest => (ruleExpression f r).bind fun a => (rulesExpression f rest).map (.alt a)

/-- All characters of the alternatives of a name. -/
def letters (g : Grammar) (c : String) : List Char :=
  (g.alternatives c).flatMap fun r => r.flatMap fun x => x.text.toList

/-- Is `s` a run over the characters of `c`? -/
def isRun (g : Grammar) (s c : String) : Bool :=
  decide (g.alternatives s = runRules s c) && decide (g.alternatives c = charRules (g.letters c))

/-- The name that comes first in the alternatives of `n`. -/
def firstName (g : Grammar) (n : String) : String := (g.mentions n).head?.getD ""

/-- An expression for the words of `n`, if `k` levels of names are enough to find one. -/
def expression (g : Grammar) : Nat → String → Option Regex
  | 0, _ => none
  | k + 1, n =>
    if g.isRun n (g.firstName n) then some (.plus (charClass (g.letters (g.firstName n))))
    else rulesExpression (expression g k) (g.alternatives n)

theorem isRun_iff : g.isRun s c = true ↔
    g.alternatives s = runRules s c ∧ g.alternatives c = charRules (g.letters c) := by
  rw [isRun, Bool.and_eq_true, decide_eq_true_eq, decide_eq_true_eq]

theorem matches_textExpression_iff {t : List Char} : (textExpression t).Matches w ↔ w = t := by
  induction t generalizing w with
  | nil => exact Regex.matches_nothing_iff
  | cons c t ih => simp [textExpression, Regex.matches_seq_iff, Regex.matches_char_iff, ih]

section Unfolding

variable {f : String → Option Regex} (hf : ∀ m a, f m = some a → ∀ u, InLanguage g m u ↔ a.Matches u)

include hf

theorem derives_iff_of_ruleExpression (h : ruleExpression f r = some a) : Derives g r w ↔ a.Matches w := by
  induction r generalizing a w with
  | nil =>
    cases h
    rw [derives_nil_iff, Regex.matches_nothing_iff]
  | cons x r ih =>
    cases x with
    | terminal t =>
      obtain ⟨b, hb, rfl⟩ := Option.map_eq_some_iff.mp h
      rw [derives_terminal_cons_iff, Regex.matches_seq_iff]
      simp only [matches_textExpression_iff, ih hb]
      exact ⟨fun ⟨v, hw, hv⟩ => ⟨_, v, hw, rfl, hv⟩, fun ⟨u, v, hw, hu, hv⟩ => ⟨v, hu ▸ hw, hv⟩⟩
    | nonterminal m =>
      obtain ⟨b, hb, h⟩ := Option.bind_eq_some_iff.mp h
      obtain ⟨d, hd, rfl⟩ := Option.map_eq_some_iff.mp h
      rw [derives_nonterminal_cons_iff, Regex.matches_seq_iff]
      simp only [hf m b hb, ih hd]

theorem exists_derives_iff_of_rulesExpression (h : rulesExpression f rs = some a) :
    (∃ body ∈ rs, Derives g body w) ↔ a.Matches w := by
  induction rs generalizing a with
  | nil =>
    cases h
    simp [Regex.matches_oneOf_iff]
  | cons r rs ih =>
    obtain ⟨b, hb, h⟩ := Option.bind_eq_some_iff.mp h
    obtain ⟨d, hd, rfl⟩ := Option.map_eq_some_iff.mp h
    rw [List.exists_mem_cons_iff, derives_iff_of_ruleExpression hf hb, ih hd, Regex.matches_alt_iff]

end Unfolding

/-- What a name is unfolded into matches the words of the name. -/
theorem inLanguage_iff_of_expression {k : Nat} (h : g.expression k n = some a) :
    InLanguage g n w ↔ a.Matches w := by
  induction k generalizing n a w with
  | zero => cases h
  | succ k ih =>
    rw [expression] at h
    by_cases hrun : g.isRun n (g.firstName n) = true
    · rw [if_pos hrun] at h
      obtain rfl := Option.some.inj h
      obtain ⟨hs, hc⟩ := isRun_iff.mp hrun
      rw [inLanguage_run_iff hs hc, Regex.matches_plus_charClass_iff]
    · rw [if_neg hrun] at h
      exact exists_derives_iff_of_rulesExpression (fun m b hb u => ih hb) h

end Grammar

/-! ### The library -/

namespace Regex

/-- An optional sign, the plus first. -/
def signed : Regex := .opt (plainClass ['+', '-'])

/-- An optional exponent with such a sign. -/
def signedExponent : Regex := .opt (sequence [eitherCase 'e' 'E', signed, digits])

/-- Digits, also behind a point. -/
def simpleMantissa : Regex := .alt digits (sequence [digits, point, digits])

/-- Digits, digits behind a point, or both. -/
def strictMantissa : Regex := .alt digits (.alt (.seq point digits) (sequence [digits, point, digits]))

/-- The value that is no number. -/
def nan : Regex := sequence [eitherCase 'n' 'N', eitherCase 'a' 'A', eitherCase 'n' 'N']

/-- An infinity, in its short form or in full. -/
def infinity : Regex :=
  let inf := [eitherCase 'i' 'I', eitherCase 'n' 'N', eitherCase 'f' 'F']
  let rest := [eitherCase 'i' 'I', eitherCase 'n' 'N', eitherCase 'i' 'I', eitherCase 't' 'T', eitherCase 'y' 'Y']
  .alt (sequence inf) (sequence (inf ++ rest))

/-- Characters from 1 to 255 between quotes, none of them the quote. -/
def quotedBytes (quote : Char) : Regex :=
  sequence [.lit quote, .star (charClass (bytesExcept quote)), .lit quote]

end Regex

/-- The roots of the patterns whose expressions match words that their fragments do not derive, with expressions
for the words that they do derive.  A number has digits behind its point, and no further character at its end; a
quoted string holds neither its own quote nor a character above 255; and the character 0 does not occur. -/
def looseExpressions : List (String × Regex) :=
  [("<ws_control_str>", .plus (charClass (charRange 1 32 ++ [Char.ofNat 127]))),
   ("<float_simple_2>", Regex.sequence [.signed, .simpleMantissa, .signedExponent]),
   ("<float_simple_1>", Regex.sequence [.signed, .strictMantissa, .signedExponent]),
   ("<float>", .alt (Regex.sequence [.signed, .strictMantissa, .signedExponent])
     (.alt (.seq .signed .nan) (.seq .signed .infinity))),
   ("<single_quoted_string>", .quotedBytes apostrophe),
   ("<double_quoted_string>", .quotedBytes quoteMark),
   ("<quoted_string>", .alt (.quotedBytes apostrophe) (.quotedBytes quoteMark)),
   ("<any_str>", .plus (charClass (charRange 1 255)))]

/-- The expression for the words that the fragment of a pattern of the library derives. -/
def Pattern.strict (p : Pattern) : Regex := (OrderedMap.find p.stringName looseExpressions).getD p.regex

theorem expression_of_mem_library : ∀ p ∈ patternLibrary,
    (p.grammar.expression 6 p.stringName).map Regex.branches = some p.strict.branches := by
  decide +kernel

/-- The fragment of a pattern of the library derives what its strict expression matches. -/
theorem inLanguage_iff_strict {p : Pattern} (hp : p ∈ patternLibrary) {w : List Char} :
    p.grammar.InLanguage p.stringName w ↔ p.strict.Matches w := by
  obtain ⟨a, ha, hbranches⟩ := Option.map_eq_some_iff.mp (expression_of_mem_library p hp)
  rw [Grammar.inLanguage_iff_of_expression ha, Regex.matches_iff_of_branches_eq hbranches]

end GrammarInference
