/-
GrammarInference/Proofs/Pattern/Narrowed.lean

What the roots of a narrowed pattern derive.

Design.  A narrowed fragment is that of the library with the characters replaced and all names numbered.  A name
of the library does not end in a number, so the numbered names are fresh, and the renaming step for one name does
not interfere with those for the others: in the end the fragment is again a run, of the characters that were
asked for.  `Pattern.Words` says what the two roots of a pattern derive; it also keeps apart the names of the
fragment from those that are made for tokens and for white space.
-/
import GrammarInference.Proofs.Grammar.Renaming
import GrammarInference.Proofs.Pattern.Fragments
import GrammarInference.Proofs.Refinement.Names

namespace GrammarInference

open Grammar (Within Relabels)

variable {p : Pattern} {chars : SortedSet Char} {id : Nat} {n m c : String}

/-! ### Names -/

/-- Do the first characters belong to a name that is made for a token or for white space? -/
def isReservedStart : List Char → Bool
  | '<' :: '_' :: _ => true
  | ['<', 'w', 's', c] => isAsciiDigit c
  | ['<', 'p', 'r', 'e'] => true
  | _ => false

/-- Does a name start like those that are made for tokens and for white space? -/
def isReserved (n : String) : Bool := isReservedStart (n.toList.take 4)

/-- Is there a digit before the closing bracket? -/
def isNumbered (n : String) : Bool := (n.toList.dropLast.getLast?.map isAsciiDigit).getD false

/-- Is this a name as they occur in the library? -/
def isBasicName (n : String) : Bool :=
  isNonterminalName n && !isReserved n && !isNumbered n && decide (5 ≤ n.toList.length)

theorem isBasicName_iff : isBasicName n = true ↔ isNonterminalName n = true ∧ isReserved n = false ∧
    isNumbered n = false ∧ 5 ≤ n.toList.length := by
  simp [isBasicName, and_assoc]

theorem toList_narrowedName (hn : isNonterminalName n = true) (id : Nat) :
    (Pattern.narrowedName id n).toList = '<' :: ((bareName n).toList ++ '_' :: (toString id).toList ++ ['>']) := by
  rw [Pattern.narrowedName, withoutLast, String.toList_append, String.toList_append, String.toList_append,
    String.toList_ofList, toList_of_isNonterminalName hn, ← List.cons_append, List.dropLast_concat]
  simp

theorem isNonterminalName_narrowedName (hn : isNonterminalName n = true) (id : Nat) :
    isNonterminalName (Pattern.narrowedName id n) = true :=
  isNonterminalName_of_toList (toList_narrowedName hn id) (by simp)

theorem narrowedName_inj (hn : isNonterminalName n = true) (hm : isNonterminalName m = true)
    (h : Pattern.narrowedName id n = Pattern.narrowedName id m) : n = m := by
  rw [← String.toList_inj, toList_narrowedName hn, toList_narrowedName hm, List.cons_inj_right,
    List.append_assoc, List.append_assoc, List.append_cancel_right_eq] at h
  exact eq_of_bareName_eq hn hm h

theorem isAsciiDigit_of_mem_toString {d : Char} (h : d ∈ (toString id).toList) : isAsciiDigit d = true :=
  isDigit_of_mem_toString h

theorem isNumbered_narrowedName (hn : isNonterminalName n = true) (id : Nat) :
    isNumbered (Pattern.narrowedName id n) = true := by
  obtain ⟨u, d, hu⟩ := (List.eq_nil_or_concat' (toString id).toList).resolve_left (toList_toString_ne_nil id)
  have hlast : (Pattern.narrowedName id n).toList.dropLast = ('<' :: ((bareName n).toList ++ '_' :: u)) ++ [d] := by
    rw [toList_narrowedName hn, ← List.cons_append, List.dropLast_concat, hu]
    simp
  rw [isNumbered, hlast, List.getLast?_concat]
  exact isAsciiDigit_of_mem_toString (hu ▸ List.mem_append_right u List.mem_cons_self)

/-- The beginning of a name is left as it is. -/
theorem isReserved_narrowedName (hn : 5 ≤ n.toList.length) (id : Nat) :
    isReserved (Pattern.narrowedName id n) = isReserved n := by
  have hlength : 4 ≤ n.toList.dropLast.length := by
    rw [List.length_dropLast]
    omega
  have hstart : (Pattern.narrowedName id n).toList.take 4 = n.toList.take 4 := by
    rw [Pattern.narrowedName, withoutLast, String.toList_append, String.toList_append, String.toList_append,
      String.toList_ofList, List.append_assoc, List.append_assoc, List.take_append_of_le_length hlength,
      List.dropLast_eq_take, List.take_take, Nat.min_eq_left (by omega)]
  rw [isReserved, isReserved, hstart]

/-! ### The library -/

/-- Do all names of the grammar, defined or mentioned, pass the test? -/
def Grammar.allNames (test : String → Bool) (g : Grammar) : Bool :=
  g.entries.all fun e => test e.1 && e.2.all fun r => (Rule.names r).all test

theorem within_of_allNames {test : String → Bool} {g : Grammar} (h : g.allNames test = true) :
    Within g {n | test n = true} := by
  simp only [Grammar.allNames, List.all_eq_true, Bool.and_eq_true] at h
  constructor
  · intro n hn
    obtain ⟨rs, hrs⟩ := Option.isSome_iff_exists.mp hn
    exact (h _ (OrderedMap.get?_eq_some_iff.mp hrs)).1
  · intro n m hm
    obtain ⟨r, hr, hmem⟩ := Grammar.mem_mentions_iff.mp hm
    obtain ⟨rs, hrs⟩ := Option.isSome_iff_exists.mp (Grammar.contains_of_mem_alternatives hr)
    rw [Grammar.alternatives, hrs] at hr
    exact (h _ (OrderedMap.get?_eq_some_iff.mp hrs)).2 r hr m (Grammar.mem_names_iff.mpr hmem)

theorem allNames_of_mem_library : ∀ p ∈ patternLibrary,
    p.grammar.allNames (fun n => !isReserved n) = true ∧ p.grammar.contains p.stringName = true ∧
      isNonterminalName p.stringName = true := by
  decide +kernel

theorem isRun_of_mem_library : ∀ p ∈ patternLibrary, ∀ c ∈ p.charName?,
    p.grammar.allNames isBasicName = true ∧ p.grammar.isRun p.stringName c = true ∧
      p.grammar.contains c = true ∧ p.stringName ≠ c := by
  decide +kernel

/-! ### Words -/

/-- The characters of the single-character nonterminal, in the order of its alternatives. -/
def Pattern.letters (p : Pattern) : List Char :=
  match p.charName? with
  | some c => p.grammar.letters c
  | none => []

/-- The names of the roots. -/
def Pattern.roots (p : Pattern) : List String := p.stringName :: p.charName?.toList

/-- The names of the fragment are none that are made for tokens or for white space, and its roots are names in
brackets. -/
structure Pattern.WellNamed (p : Pattern) : Prop where
  /-- The names of the fragment do not start like those that are made later. -/
  within : Within p.grammar {n | isReserved n = false}
  /-- So do the roots. -/
  free : ∀ n ∈ p.roots, isReserved n = false
  /-- The roots are written in brackets. -/
  conventional : ∀ n ∈ p.roots, isNonterminalName n = true
  /-- The roots are different. -/
  ne : ∀ c ∈ p.charName?, p.stringName ≠ c

/-- The root of a pattern derives the words of an expression, and the single-character nonterminal derives some
characters. -/
structure Pattern.Words (p : Pattern) (r : Regex) (letters : List Char) : Prop extends p.WellNamed where
  /-- The root derives the words of the expression. -/
  string : ∀ w, p.grammar.InLanguage p.stringName w ↔ r.Matches w
  /-- The single-character nonterminal derives the characters. -/
  char : ∀ c ∈ p.charName?, ∀ w, p.grammar.InLanguage c w ↔ ∃ a ∈ letters, w = [a]

theorem Pattern.mem_roots_iff : n ∈ p.roots ↔ n = p.stringName ∨ n ∈ p.charName? := by
  rw [Pattern.roots, List.mem_cons, Option.mem_toList]
  rfl

theorem wellNamed_of_mem_library (hp : p ∈ patternLibrary) : p.WellNamed := by
  obtain ⟨hnames, hdefined, hroot⟩ := allNames_of_mem_library p hp
  have hwithin : Within p.grammar {n | isReserved n = false} := by
    simpa only [Bool.not_eq_true'] using within_of_allNames hnames
  have hchar : ∀ c ∈ p.charName?, isBasicName c = true := fun c hc =>
    (within_of_allNames (isRun_of_mem_library p hp c hc).1).defined c (isRun_of_mem_library p hp c hc).2.2.1
  refine ⟨hwithin, fun n hn => ?_, fun n hn => ?_, fun c hc => (isRun_of_mem_library p hp c hc).2.2.2⟩
  · rcases Pattern.mem_roots_iff.mp hn with rfl | hn
    · exact hwithin.defined _ hdefined
    · exact (isBasicName_iff.mp (hchar n hn)).2.1
  · rcases Pattern.mem_roots_iff.mp hn with rfl | hn
    · exact hroot
    · exact (isBasicName_iff.mp (hchar n hn)).1

theorem words_of_mem_library (hp : p ∈ patternLibrary) : p.Words p.strict p.letters where
  toWellNamed := wellNamed_of_mem_library hp
  string := fun w => inLanguage_iff_strict hp
  char := fun c hc w => by
    obtain ⟨-, hrun, -⟩ := isRun_of_mem_library p hp c hc
    rw [Pattern.letters, hc]
    exact Grammar.inLanguage_chars_iff (Grammar.isRun_iff.mp hrun).2

theorem map_charRules (l : List Char) (f : String → String) :
    (charRules l).map (fun r => r.map (Symbol.mapName f)) = charRules l := by
  rw [charRules, List.map_map]
  rfl

theorem not_mem_charRules {l : List Char} {r : Rule} (hr : r ∈ charRules l) : Symbol.nonterminal m ∉ r := by
  obtain ⟨a, -, rfl⟩ := List.mem_map.mp hr
  exact fun hm => by cases List.mem_singleton.mp hm

/-- With other characters, the names of a run stay as they are. -/
theorem within_insert_charRules {g : Grammar} {K : Set String} {l : List Char} (hg : Within g K) (hc : c ∈ K) :
    Within (g.insert c (charRules l)) K := by
  constructor
  · intro n hn
    rcases Grammar.contains_insert.mp hn with rfl | hn
    · exact hc
    · exact hg.defined n hn
  · intro n m hm
    rcases Grammar.mem_mentions_insert hm with ⟨r, hr, hmem⟩ | hm
    · exact absurd hmem (not_mem_charRules hr)
    · exact hg.mentioned n m hm

/-- The fragment of a run pattern with other characters. -/
def restricted (p : Pattern) (c : String) (chars : SortedSet Char) : Grammar :=
  p.grammar.insert c (charRules chars.toList)

/-- The names of the library stay those of a fragment with other characters. -/
theorem isBasicName_of_mem_restricted (hp : p ∈ patternLibrary) (hc : p.charName? = some c) :
    ∀ n ∈ (restricted p c chars).keys, isBasicName n = true := by
  obtain ⟨hnames, -, hdefined, -⟩ := isRun_of_mem_library p hp c hc
  have hwithin := within_of_allNames hnames
  intro n hn
  exact (within_insert_charRules hwithin (hwithin.defined c hdefined)).defined n
    (OrderedMap.contains_iff_mem_keys.mpr hn)

/-- The names are numbered one after another. -/
theorem grammar_narrowed (hc : p.charName? = some c) (chars : SortedSet Char) (id : Nat) :
    (p.narrowed chars id).grammar = (restricted p c chars).keys.foldl
      (fun g n => Grammar.rename g n (Pattern.narrowedName id n)) (restricted p c chars) := by
  simp only [Pattern.narrowed, hc]
  rfl

/-- The names after narrowing: those that are defined are numbered. -/
def numbered (g : Grammar) (id : Nat) (n : String) : String :=
  if n ∈ g.keys then Pattern.narrowedName id n else n

theorem numbered_of_contains {g : Grammar} (h : g.contains n = true) (id : Nat) :
    numbered g id n = Pattern.narrowedName id n := by
  rw [numbered, if_pos (OrderedMap.contains_iff_mem_keys.mp h)]

/-- A narrowed fragment is the one with other characters, under numbered names. -/
theorem relabels_narrowed (hc : p.charName? = some c)
    (hg : Within (restricted p c chars) {n | isBasicName n = true}) (id : Nat) :
    Relabels (numbered (restricted p c chars) id) {n | isBasicName n = true} (restricted p c chars)
      (p.narrowed chars id).grammar := by
  have hconventional : ∀ n ∈ (restricted p c chars).keys, isNonterminalName n = true := fun n hn =>
    (isBasicName_iff.mp (hg.defined n (OrderedMap.contains_iff_mem_keys.mpr hn))).1
  rw [grammar_narrowed hc]
  refine hg.relabels_foldl (restricted p c chars).nodup_keys
    (fun n hn => hg.defined n (OrderedMap.contains_iff_mem_keys.mpr hn)) ?_ ?_
  · intro n hn hbasic
    have hnumbered := isNumbered_narrowedName (hconventional n hn) id
    rw [(isBasicName_iff.mp hbasic).2.2.1] at hnumbered
    cases hnumbered
  · exact fun n hn m hm => narrowedName_inj (hconventional n hn) (hconventional m hm)

theorem isReserved_numbered (g : Grammar) (id : Nat) (hn : isBasicName n = true) :
    isReserved (numbered g id n) = false := by
  obtain ⟨-, hfree, -, hlong⟩ := isBasicName_iff.mp hn
  rw [numbered]
  split
  · rw [isReserved_narrowedName hlong, hfree]
  · exact hfree

/-- The fragment of a narrowed pattern is a run over the characters. -/
theorem narrowed_isRun (hp : p ∈ patternLibrary) (hc : p.charName? = some c) (chars : SortedSet Char) (id : Nat) :
    Within (p.narrowed chars id).grammar {n | isReserved n = false} ∧
      (p.narrowed chars id).grammar.alternatives (Pattern.narrowedName id p.stringName) =
        runRules (Pattern.narrowedName id p.stringName) (Pattern.narrowedName id c) ∧
      (p.narrowed chars id).grammar.alternatives (Pattern.narrowedName id c) = charRules chars.toList := by
  obtain ⟨hnames, hshape, hdefined, hne⟩ := isRun_of_mem_library p hp c hc
  have hwithin := within_of_allNames hnames
  have hcbasic := hwithin.defined c hdefined
  have hs := (allNames_of_mem_library p hp).2.1
  have hg : Within (restricted p c chars) {n | isBasicName n = true} := within_insert_charRules hwithin hcbasic
  have hrelabels := relabels_narrowed hc hg id
  have hsname : numbered (restricted p c chars) id p.stringName = Pattern.narrowedName id p.stringName :=
    numbered_of_contains (Grammar.contains_insert.mpr (.inr hs)) id
  have hcname : numbered (restricted p c chars) id c = Pattern.narrowedName id c :=
    numbered_of_contains (Grammar.contains_insert.mpr (.inl rfl)) id
  refine ⟨(hrelabels.within hg).mono ?_, ?_, ?_⟩
  · rintro - ⟨n, hn, rfl⟩
    exact isReserved_numbered _ id hn
  · have hrules : (restricted p c chars).alternatives p.stringName = runRules p.stringName c := by
      rw [restricted, Grammar.alternatives_insert, if_neg (Ne.symm hne), (Grammar.isRun_iff.mp hshape).1]
    rw [← hsname, ← hcname, hrelabels.alternatives _ (hwithin.defined _ hs), hrules]
    rfl
  · rw [← hcname, hrelabels.alternatives c hcbasic, restricted, Grammar.alternatives_insert, if_pos rfl,
      map_charRules]

/-- The roots of a narrowed pattern derive the words over the characters, and the characters. -/
theorem words_narrowed (hp : p ∈ patternLibrary) (hrun : p.isRun = true) (chars : SortedSet Char) (id : Nat) :
    (p.narrowed chars id).Words (.plus (charClass chars.toList)) chars.toList := by
  obtain ⟨c, hc⟩ := Option.isSome_iff_exists.mp hrun
  obtain ⟨hwithin, hword, hchars⟩ := narrowed_isRun hp hc chars id
  obtain ⟨hnames, -, hdefined, hne⟩ := isRun_of_mem_library p hp c hc
  have hbasic : ∀ n ∈ p.roots, isBasicName n = true := by
    intro n hn
    rcases Pattern.mem_roots_iff.mp hn with rfl | hn
    · exact (within_of_allNames hnames).defined _ (allNames_of_mem_library p hp).2.1
    · obtain rfl := Option.some.inj (hc.symm.trans hn)
      exact (within_of_allNames hnames).defined _ hdefined
  have hroots : ∀ n ∈ (p.narrowed chars id).roots, ∃ m ∈ p.roots, n = Pattern.narrowedName id m := by
    intro n hn
    have hmap : (p.narrowed chars id).roots = p.roots.map (Pattern.narrowedName id) := by
      rw [Pattern.roots, Pattern.roots, hc, Pattern.narrowed, hc]
      rfl
    obtain ⟨m, hm, rfl⟩ := List.mem_map.mp (hmap ▸ hn)
    exact ⟨m, hm, rfl⟩
  have hchar : (p.narrowed chars id).charName? = some (Pattern.narrowedName id c) := by
    rw [Pattern.narrowed, hc]
    rfl
  refine ⟨⟨hwithin, fun n hn => ?_, fun n hn => ?_, fun d hd => ?_⟩, fun w => ?_, fun d hd w => ?_⟩
  · obtain ⟨m, hm, rfl⟩ := hroots n hn
    obtain ⟨-, hfree, -, hlong⟩ := isBasicName_iff.mp (hbasic m hm)
    rw [isReserved_narrowedName hlong, hfree]
  · obtain ⟨m, hm, rfl⟩ := hroots n hn
    exact isNonterminalName_narrowedName (isBasicName_iff.mp (hbasic m hm)).1 id
  · obtain rfl := Option.some.inj (hchar.symm.trans hd)
    have hs := isBasicName_iff.mp (hbasic _ (Pattern.mem_roots_iff.mpr (.inl rfl)))
    have hc := isBasicName_iff.mp (hbasic c (Pattern.mem_roots_iff.mpr (.inr hc)))
    exact fun h => hne (narrowedName_inj hs.1 hc.1 h)
  · exact (Grammar.inLanguage_run_iff hword hchars).trans Regex.matches_plus_charClass_iff.symm
  · obtain rfl := Option.some.inj (hchar.symm.trans hd)
    exact Grammar.inLanguage_chars_iff hchars

end GrammarInference
