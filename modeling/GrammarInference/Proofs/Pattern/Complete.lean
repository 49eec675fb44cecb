/-
GrammarInference/Proofs/Pattern/Complete.lean

The fragment of a pattern stands on its own.

Design.  Whatever the form in which a pattern is tried, its fragment defines all that it mentions, and its roots
(`Form.complete`).  For the library this is computed.  Narrowing changes the characters, and then gives every name
a number, which is a renaming to fresh names.  White space in front adds a run of white space and one definition
for each root, in which only the run and the root are mentioned.
-/
import GrammarInference.Proofs.Grammar.Complete
import GrammarInference.Proofs.Pattern.Forms

namespace GrammarInference

open Grammar (Complete CompleteOver)

variable {p : Pattern} {chars : SortedSet Char} {id : Nat} {n m c : String} {l : List Char} {g : Grammar}

/-- The fragment is complete and defines the roots. -/
structure Pattern.Complete (p : Pattern) : Prop where
  /-- The fragment leaves nothing undefined. -/
  grammar : p.grammar.Complete
  /-- The roots are defined. -/
  roots : ∀ n ∈ p.roots, p.grammar.contains n = true

/-! ### Runs -/

theorem nodup_charRules (hl : l.Nodup) : (charRules l).Nodup := by
  refine hl.map fun a b hab => ?_
  have htext : String.singleton a = String.singleton b := by simpa using hab
  have hlist := congrArg String.toList htext
  rw [String.toList_singleton, String.toList_singleton] at hlist
  exact List.head_eq_of_cons_eq hlist

theorem nodup_runRules (s c : String) : (runRules s c).Nodup := by
  simp [runRules]

theorem nodup_spacedRules (id : Nat) (n : String) : (Pattern.spacedRules id n).Nodup := by
  simp [Pattern.spacedRules]

/-- The characters of a run mention nothing. -/
theorem CompleteOver.insert_charRules {K : Set String} (h : CompleteOver K g) (hl : l.Nodup) :
    CompleteOver K (g.insert c (charRules l)) :=
  h.insert (nodup_charRules hl) fun _ hr _ hm => absurd hm (not_mem_charRules hr)

/-! ### The library -/

/-- Is no alternative of `n` listed twice?  Characters in ascending order are not compared with each other. -/
def Grammar.listsOnce (g : Grammar) (n : String) : Bool :=
  (decide (g.alternatives n = charRules (g.letters n)) && decide (((g.letters n).map Char.toNat).IsChain (· < ·))) ||
    decide (g.alternatives n).Nodup

theorem nodup_of_listsOnce (h : g.listsOnce n = true) : (g.alternatives n).Nodup := by
  rw [Grammar.listsOnce, Bool.or_eq_true, Bool.and_eq_true, decide_eq_true_eq, decide_eq_true_eq,
    decide_eq_true_eq] at h
  rcases h with ⟨hrules, hascending⟩ | h
  · rw [hrules]
    exact nodup_charRules (List.Nodup.of_map Char.toNat (hascending.pairwise.imp Nat.ne_of_lt))
  · exact h

theorem listsOnce_of_mem_library : ∀ p ∈ patternLibrary, ∀ n ∈ p.grammar.keys, p.grammar.listsOnce n = true := by
  decide +kernel

theorem allNames_contains_of_mem_library : ∀ p ∈ patternLibrary,
    p.grammar.allNames p.grammar.contains = true ∧ ∀ n ∈ p.roots, p.grammar.contains n = true := by
  decide +kernel

theorem complete_of_mem_library (hp : p ∈ patternLibrary) : p.Complete := by
  obtain ⟨hnames, hroots⟩ := allNames_contains_of_mem_library p hp
  refine ⟨⟨fun n m hm => .inr ((within_of_allNames hnames).mentioned n m hm), fun n => ?_⟩, hroots⟩
  by_cases hn : p.grammar.contains n = true
  · exact nodup_of_listsOnce (listsOnce_of_mem_library p hp n (OrderedMap.contains_iff_mem_keys.mp hn))
  · rw [Grammar.alternatives, Grammar.get?_eq_none_iff.mpr (Bool.eq_false_iff.mpr hn)]
    exact List.nodup_nil

/-! ### Narrowing -/

theorem complete_narrowed (hp : p ∈ patternLibrary) (hrun : p.isRun = true) (hchars : chars.toList ≠ []) (id : Nat) :
    (p.narrowed chars id).Complete := by
  obtain ⟨c, hc⟩ := Option.isSome_iff_exists.mp hrun
  obtain ⟨-, hword, hcharacters⟩ := narrowed_isRun hp hc chars id
  have hbasic : ∀ n ∈ (restricted p c chars).keys, isBasicName n = true := isBasicName_of_mem_restricted hp hc
  have hrestricted : (restricted p c chars).Complete :=
    CompleteOver.insert_charRules (complete_of_mem_library hp).grammar chars.nodup_toList
  constructor
  · rw [grammar_narrowed hc]
    refine hrestricted.foldl_rename (restricted p c chars).nodup_keys ?_ fun n hn m hm =>
      narrowedName_inj (isBasicName_iff.mp (hbasic n hn)).1 (isBasicName_iff.mp (hbasic m hm)).1
    intro n hn
    -- a numbered name is none of the library
    apply Bool.eq_false_iff.mpr
    intro hold
    have hnumbered := isNumbered_narrowedName (isBasicName_iff.mp (hbasic n hn)).1 id
    rw [(isBasicName_iff.mp (hbasic _ (OrderedMap.contains_iff_mem_keys.mp hold))).2.2.1] at hnumbered
    cases hnumbered
  · have hroots : (p.narrowed chars id).roots = [Pattern.narrowedName id p.stringName, Pattern.narrowedName id c] := by
      simp only [Pattern.roots, Pattern.narrowed, hc]
      rfl
    intro n hn
    rw [hroots] at hn
    rcases List.mem_pair.mp hn with rfl | rfl
    · have hlast : [.nonterminal (Pattern.narrowedName id c)] ∈
          (p.narrowed chars id).grammar.alternatives (Pattern.narrowedName id p.stringName) := by
        rw [hword]
        exact List.mem_cons_of_mem _ (List.mem_singleton_self _)
      exact Grammar.contains_of_mem_alternatives hlast
    · obtain ⟨a, rest, ha⟩ := List.exists_cons_of_ne_nil hchars
      have hfirst : [.terminal (String.singleton a)] ∈
          (p.narrowed chars id).grammar.alternatives (Pattern.narrowedName id c) := by
        rw [hcharacters, ha]
        exact List.mem_cons_self
      exact Grammar.contains_of_mem_alternatives hfirst

/-! ### White space in front -/

namespace Pattern

theorem complete_spaceGrammar (hl : l.Nodup) (id : Nat) : (spaceGrammar l id).Complete := by
  -- the run mentions its characters before they are defined
  have hrun : CompleteOver {spaceCharName id} ((∅ : Grammar).insert (spaceRunName id)
      (runRules (spaceRunName id) (spaceCharName id))) := by
    refine (Grammar.completeOver_empty _).insert (nodup_runRules _ _) fun r hr m hm => ?_
    rcases List.mem_pair.mp hr with rfl | rfl
    · simp only [List.mem_pair, Symbol.nonterminal.injEq] at hm
      exact hm.imp_right fun h => .inl h.symm
    · simp only [List.mem_singleton, Symbol.nonterminal.injEq] at hm
      exact .inl hm
  refine CompleteOver.complete (CompleteOver.insert_charRules hrun hl) fun n hn => ?_
  exact Grammar.contains_insert.mpr (.inl (Eq.symm hn))

theorem contains_withSpaced_iff {roots : List String} : (withSpaced id roots g).contains n = true ↔
    (∃ m ∈ roots, spacedName id m = n) ∨ g.contains n = true := by
  induction roots generalizing g with
  | nil => simp [withSpaced]
  | cons k roots ih =>
    have hstep : withSpaced id (k :: roots) g = withSpaced id roots (g.insert (spacedName id k) (spacedRules id k)) :=
      rfl
    rw [hstep, ih, Grammar.contains_insert, List.exists_mem_cons_iff, or_left_comm, or_assoc]

/-- The definitions behind white space mention their root and the run of white space. -/
theorem complete_withSpaced {roots : List String} (hg : g.Complete) (hroots : ∀ n ∈ roots, g.contains n = true)
    (hspace : g.contains (spaceRunName id) = true) : (withSpaced id roots g).Complete := by
  induction roots generalizing g with
  | nil => exact hg
  | cons k roots ih =>
    obtain ⟨hk, hroots⟩ := List.forall_mem_cons.mp hroots
    have hkept : ∀ n, g.contains n = true → (g.insert (spacedName id k) (spacedRules id k)).contains n = true :=
      fun n hn => Grammar.contains_insert.mpr (.inr hn)
    refine ih (hg.insert (nodup_spacedRules id k) fun r hr m hm => ?_) (fun n hn => hkept n (hroots n hn))
      (hkept _ hspace)
    refine .inr (.inr ?_)
    rcases List.mem_pair.mp hr with rfl | rfl
    · simp only [List.mem_singleton, Symbol.nonterminal.injEq] at hm
      exact hm ▸ hk
    · simp only [List.mem_pair, Symbol.nonterminal.injEq] at hm
      rcases hm with rfl | rfl
      · exact hspace
      · exact hk

theorem roots_withLeadingSpace (p : Pattern) (chars : SortedSet Char) (id : Nat) :
    (p.withLeadingSpace chars id).roots = p.roots.map (spacedName id) := by
  rw [roots, roots, withLeadingSpace]
  rcases p.charName? with - | c <;> rfl

theorem Complete.withLeadingSpace (hp : p.Complete) (chars : SortedSet Char) (id : Nat) :
    (p.withLeadingSpace chars id).Complete := by
  have hspace := complete_spaceGrammar chars.nodup_toList id
  have hrun : (p.grammar.overlay (spaceGrammar chars.toList id)).contains (spaceRunName id) = true :=
    Grammar.contains_overlay_iff.mpr (.inr (contains_spaceGrammar_iff.mpr (.inr rfl)))
  have hroots : ∀ n ∈ p.roots, (p.grammar.overlay (spaceGrammar chars.toList id)).contains n = true := fun n hn =>
    Grammar.contains_overlay_iff.mpr (.inl (hp.roots n hn))
  constructor
  · rw [grammar_withLeadingSpace]
    exact complete_withSpaced (hp.grammar.overlay hspace) hroots hrun
  · rw [grammar_withLeadingSpace, roots_withLeadingSpace]
    intro n hn
    exact contains_withSpaced_iff.mpr (.inl (List.mem_map.mp hn))

end Pattern

/-! ### Forms -/

/-- The fragment of every form is complete. -/
theorem Form.complete (f : Form) : f.pattern.Complete := by
  have hinner : f.inner.Complete := by
    rw [Form.inner]
    split
    · rename_i e he
      obtain ⟨hrun, hchars⟩ := f.narrowable e he
      exact complete_narrowed f.mem hrun (Form.toList_ne_nil hchars) e.2
    · exact complete_of_mem_library f.mem
  rw [Form.pattern]
  split
  · rename_i e _
    exact hinner.withLeadingSpace e.1 e.2
  · exact hinner

end GrammarInference
