/-
GrammarInference/Proofs/Pattern/Symbols.lean

The symbols in the fragments of patterns.

Design.  The names that are made for patterns are written in brackets, and the terminals of the library are not.  So
a fragment follows the naming convention in whatever form the pattern is tried (`Form.conventional`).  White space is
also put in front of literals, which may be any strings; what is said about it therefore holds for every property of
symbols that the convention implies.
-/
import GrammarInference.Proofs.Grammar.Symbols
import GrammarInference.Proofs.Pattern.Forms

namespace GrammarInference

open Grammar (HasOnly)

variable {P : Symbol → Prop} {p : Pattern} {chars : SortedSet Char} {id : Nat} {n m c : String} {l : List Char}

/-! ### Runs -/

/-- A single character is not a name. -/
theorem isConventional_singleton (a : Char) : (Symbol.terminal (String.singleton a)).IsConventional := by
  rw [Symbol.IsConventional, isNonterminalName, String.toList_singleton]
  simp [bracketed?]

theorem isConventional_of_mem_charRules : ∀ r ∈ charRules l, ∀ x ∈ r, x.IsConventional := by
  intro r hr x hx
  obtain ⟨a, -, rfl⟩ := List.mem_map.mp hr
  obtain rfl := List.mem_singleton.mp hx
  exact isConventional_singleton a

theorem isConventional_of_mem_runRules (hn : isNonterminalName n = true) (hc : isNonterminalName c = true) :
    ∀ r ∈ runRules n c, ∀ x ∈ r, x.IsConventional := by
  intro r hr x hx
  rcases List.mem_pair.mp hr with rfl | rfl
  · rcases List.mem_pair.mp hx with rfl | rfl
    · exact hc
    · exact hn
  · obtain rfl := List.mem_singleton.mp hx
    exact hc

/-! ### The library -/

theorem conventional_of_mem_library : ∀ p ∈ patternLibrary, HasOnly Symbol.IsConventional p.grammar := by
  decide +kernel

/-! ### Narrowing -/

theorem conventional_narrowed (hp : p ∈ patternLibrary) (hrun : p.isRun = true) (chars : SortedSet Char) (id : Nat) :
    HasOnly Symbol.IsConventional (p.narrowed chars id).grammar := by
  obtain ⟨c, hc⟩ := Option.isSome_iff_exists.mp hrun
  rw [grammar_narrowed hc]
  refine HasOnly.foldl_rename ((conventional_of_mem_library p hp).insert isConventional_of_mem_charRules) ?_
  exact fun n hn => isNonterminalName_narrowedName (isBasicName_iff.mp (isBasicName_of_mem_restricted hp hc n hn)).1 id

/-! ### White space in front -/

namespace Pattern

theorem isNonterminalName_spacedName (id : Nat) (n : String) : isNonterminalName (spacedName id n) = true := by
  refine isNonterminalName_of_toList
    (l := "pre_ws".toList ++ (toString id).toList ++ "_".toList ++ (bareName n).toList) ?_ (by simp)
  simp [spacedName, String.toList_append]

theorem isNonterminalName_spaceRunName (id : Nat) : isNonterminalName (spaceRunName id) = true := by
  refine isNonterminalName_of_toList (l := "ws".toList ++ (toString id).toList ++ "_str".toList) ?_ (by simp)
  simp [spaceRunName, String.toList_append]

theorem isNonterminalName_spaceCharName (id : Nat) : isNonterminalName (spaceCharName id) = true := by
  refine isNonterminalName_of_toList (l := "ws".toList ++ (toString id).toList ++ "_char".toList) ?_ (by simp)
  simp [spaceCharName, String.toList_append]

theorem conventional_spaceGrammar (l : List Char) (id : Nat) :
    HasOnly Symbol.IsConventional (spaceGrammar l id) := by
  refine Grammar.hasOnly_empty.insert ?_ |>.insert isConventional_of_mem_charRules
  exact isConventional_of_mem_runRules (isNonterminalName_spaceRunName id) (isNonterminalName_spaceCharName id)

theorem isConventional_of_mem_spacedRules (hn : isNonterminalName n = true) :
    ∀ r ∈ spacedRules id n, ∀ x ∈ r, x.IsConventional := by
  intro r hr x hx
  rcases List.mem_pair.mp hr with rfl | rfl
  · obtain rfl := List.mem_singleton.mp hx
    exact hn
  · rcases List.mem_pair.mp hx with rfl | rfl
    · exact isNonterminalName_spaceRunName id
    · exact hn

theorem hasOnly_withSpaced {g : Grammar} {roots : List String} (hP : ∀ x : Symbol, x.IsConventional → P x)
    (hg : HasOnly P g) (hroots : ∀ n ∈ roots, isNonterminalName n = true) : HasOnly P (withSpaced id roots g) := by
  induction roots generalizing g with
  | nil => exact hg
  | cons k roots ih =>
    obtain ⟨hk, hroots⟩ := List.forall_mem_cons.mp hroots
    exact ih (hg.insert fun r hr x hx => hP x (isConventional_of_mem_spacedRules hk r hr x hx)) hroots

/-- White space in front brings symbols that follow the convention. -/
theorem WellNamed.hasOnly_withLeadingSpace (hp : p.WellNamed) (hP : ∀ x : Symbol, x.IsConventional → P x)
    (hg : HasOnly P p.grammar) (chars : SortedSet Char) (id : Nat) :
    HasOnly P (p.withLeadingSpace chars id).grammar := by
  rw [grammar_withLeadingSpace]
  exact hasOnly_withSpaced hP (hg.overlay ((conventional_spaceGrammar chars.toList id).mono hP)) hp.conventional

end Pattern

/-! ### Forms -/

namespace Form

theorem conventional_inner (f : Form) : HasOnly Symbol.IsConventional f.inner.grammar := by
  rw [inner]
  split
  · rename_i e he
    exact conventional_narrowed f.mem (f.narrowable e he).1 e.1 e.2
  · exact conventional_of_mem_library f.base f.mem

/-- The fragment of every form follows the naming convention. -/
theorem conventional (f : Form) : HasOnly Symbol.IsConventional f.pattern.grammar := by
  rw [pattern]
  split
  · exact f.words_inner.hasOnly_withLeadingSpace (fun _ hx => hx) f.conventional_inner _ _
  · exact f.conventional_inner

theorem conventional_root (f : Form) (single : Bool) : isNonterminalName (f.pattern.root single) = true := by
  rw [pattern]
  split
  · rw [Pattern.root_withLeadingSpace]
    exact Pattern.isNonterminalName_spacedName _ _
  · exact f.words_inner.conventional _ (Pattern.root_mem_roots f.inner single)

end Form

end GrammarInference
