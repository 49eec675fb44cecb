/-
GrammarInference/Proofs/Generalization/Installed.lean

What the generalization of one token installs.

Design.  Each function that can change the state is followed once: the state it leaves extends the one it found, and
every definition of a pattern that it gives is made on the way (`MadeAll`).  The search goes through such steps, and
what it finds was made somewhere along it, so it was made on the whole way.  In the end a fragment holds the token
itself and definitions that were made between the state before the token and the state after it (`Installs`).
-/
import GrammarInference.Proofs.Generalization.Created

namespace GrammarInference

open Pattern (spacedName spacedRules withSpaced)

namespace Generalizer

variable {gen gen₀ gen' : Generalizer} {g : Grammar} {n : String} {rs : List Rule} {p : Pattern}
  {samples : SortedSet String} {alphabet : SortedSet Char} {spaced : Bool} {stripped : Stripped}

/-! ### White space -/

/-- Every definition of the fragment is made on the way from one state to the other. -/
def MadeAll (gen gen' : Generalizer) (g : Grammar) : Prop := ∀ n rs, g.get? n = some rs → ∃ k, Made gen gen' n rs k

theorem MadeAll.mono {gen₁ : Generalizer} (h : MadeAll gen gen' g) (hold : gen₀.Extends gen)
    (hnew : gen'.Extends gen₁) : MadeAll gen₀ gen₁ g := by
  intro n rs hget
  obtain ⟨k, hk⟩ := h n rs hget
  exact ⟨k, hk.mono hold hnew⟩

/-- A new set of white space gets the next number, and the others keep theirs. -/
theorem extends_spaceId (gen : Generalizer) (chars : SortedSet Char) : gen.Extends (gen.spaceId chars).2 :=
  ⟨Nat.le_refl _, Nat.le_refl _, fun _ h => ⟨OrderedSet.mem_insert.mpr (.inl h), OrderedSet.indexOf_insert_of_mem h⟩⟩

theorem eq_of_get?_withSpaced {roots : List String} {id : Nat} (h : (withSpaced id roots g).get? n = some rs) :
    (∃ m ∈ roots, n = spacedName id m ∧ rs = spacedRules id m) ∨ g.get? n = some rs := by
  induction roots generalizing g with
  | nil => exact .inr h
  | cons m roots ih =>
    rcases ih h with ⟨m', hm', heq⟩ | hget
    · exact .inl ⟨m', List.mem_cons_of_mem m hm', heq⟩
    · rw [OrderedMap.get?_insert] at hget
      split at hget
      · rename_i hn
        exact .inl ⟨m, List.mem_cons_self, hn.symm, (Option.some.inj hget).symm⟩
      · exact .inr hget

/-- White space in front adds its run and a definition for each root. -/
theorem MadeAll.withLeadingSpace (h : MadeAll gen₀ gen p.grammar) (hroots : ∀ m ∈ p.roots, IsRoot m)
    (chars : SortedSet Char) :
    MadeAll gen₀ (gen.spaceId chars).2 (p.withLeadingSpace chars (gen.spaceId chars).1).grammar := by
  intro n rs hget
  rw [Pattern.grammar_withLeadingSpace] at hget
  rcases eq_of_get?_withSpaced hget with ⟨m, hm, hn, hrs⟩ | hget
  · exact ⟨_, .spaced (Nat.succ_pos _) (hroots m hm) hn hrs⟩
  · rw [OrderedMap.get?_overlay] at hget
    rcases Option.or_eq_some_iff.mp hget with hspace | ⟨-, hinner⟩
    · exact ⟨_, .space (OrderedSet.mem_insert.mpr (.inr rfl)) hspace⟩
    · exact h.mono (.refl _) (gen.extends_spaceId chars) n rs hinner

/-! ### The search -/

theorem narrow_made (gen : Generalizer) (hp : p ∈ patternLibrary) (alphabet : SortedSet Char) :
    gen.Extends (gen.narrow p alphabet).2 ∧ MadeAll gen (gen.narrow p alphabet).2 (gen.narrow p alphabet).1.grammar ∧
      ((gen.narrow p alphabet).1.whitespace = false → ∀ m ∈ (gen.narrow p alphabet).1.roots, IsRoot m) := by
  rw [narrow]
  split
  · rename_i h
    simp only [Bool.and_eq_true] at h
    have hrun : p.isRun = true := h.1.1.1
    refine ⟨⟨Nat.le_succ _, Nat.le_refl _, fun _ h => ⟨h, rfl⟩⟩, fun n rs hget => ?_, fun hspace m hm => ?_⟩
    · exact ⟨_, .narrowed hp hrun (Nat.lt_succ_self _) (Nat.le_refl _) hget⟩
    · rw [Pattern.roots_narrowed] at hm
      obtain ⟨m', hm', rfl⟩ := List.mem_map.mp hm
      exact .narrowed hp hspace hrun (Nat.succ_pos _) hm'
  · exact ⟨.refl gen, fun n rs hget => ⟨_, .library hp hget⟩, fun hspace m hm => .library hp hspace hm⟩

theorem forms_made (h : MadeAll gen₀ gen p.grammar) (hroots : p.whitespace = false → ∀ m ∈ p.roots, IsRoot m)
    (spaced : Bool) (stripped : Stripped) : gen.Extends (gen.forms p spaced stripped).2 ∧
      ∀ q ∈ (gen.forms p spaced stripped).1, MadeAll gen₀ (gen.forms p spaced stripped).2 q.grammar := by
  rw [forms]
  split
  · rename_i hspaced
    rw [Bool.and_eq_true, Bool.not_eq_true'] at hspaced
    have hnext := gen.extends_spaceId stripped.spaceAlphabet
    refine ⟨hnext, fun q hq => ?_⟩
    rcases List.mem_pair.mp hq with rfl | rfl
    · exact h.mono (.refl _) hnext
    · exact h.withLeadingSpace (hroots hspaced.1) stripped.spaceAlphabet
  · refine ⟨.refl gen, fun q hq => ?_⟩
    rwa [List.mem_singleton.mp hq]

theorem mem_of_firstCovering {l : List Pattern} (h : gen.firstCovering samples l = .ok (some p)) : p ∈ l := by
  induction l with
  | nil => cases h
  | cons q l ih =>
    rw [firstCovering] at h
    split at h
    · cases h
    · cases h
      exact List.mem_cons_self
    · exact List.mem_cons_of_mem q (ih h)

/-- What the search finds is made on the way. -/
theorem search_made {l : List Pattern} (hl : ∀ p ∈ l, p ∈ patternLibrary) {found : Option Pattern}
    (h : gen.search samples alphabet spaced stripped l = (.ok found, gen')) :
    gen.Extends gen' ∧ ∀ p ∈ found, MadeAll gen gen' p.grammar := by
  induction l generalizing gen with
  | nil =>
    cases h
    exact ⟨.refl _, nofun⟩
  | cons p l ih =>
    obtain ⟨hp, hl⟩ := List.forall_mem_cons.mp hl
    obtain ⟨hnarrow, hmade, hroots⟩ := gen.narrow_made hp alphabet
    obtain ⟨hforms, hall⟩ := forms_made hmade hroots spaced stripped
    have hnext := hnarrow.trans hforms
    rw [search] at h
    dsimp only at h
    split at h
    · cases h
    · rename_i q hfirst
      cases h
      refine ⟨hnext, fun q' hq' => ?_⟩
      cases hq'
      exact hall q (mem_of_firstCovering hfirst)
    · obtain ⟨hlater, hrest⟩ := ih hl h
      exact ⟨hnext.trans hlater, fun q hq => (hrest q hq).mono hnext (.refl _)⟩

/-! ### Tokens -/

/-- What is installed for a token: its own definition, and definitions that are made between the state before it and the
state after it. -/
structure Installs (gen gen' : Generalizer) (n : String) (fragment : Grammar) : Prop where
  /-- The state goes on. -/
  later : gen.Extends gen'
  /-- The token is defined. -/
  token : fragment.contains n = true
  /-- All other definitions are made on the way. -/
  made : ∀ m rs, fragment.get? m = some rs → m = n ∨ ∃ k, Made gen gen' m rs k

/-- A token that stands for a name of a fragment. -/
theorem MadeAll.installs (h : MadeAll gen gen' g) (hlater : gen.Extends gen') (n : String) (rs : List Rule) :
    Installs gen gen' n (g.insert n rs) where
  later := hlater
  token := Grammar.contains_insert.mpr (.inl rfl)
  made := fun m rs' hget => by
    rw [OrderedMap.get?_insert] at hget
    split at hget
    · rename_i hn
      exact .inl hn.symm
    · exact .inr (h m rs' hget)

theorem madeAll_empty (gen gen' : Generalizer) : MadeAll gen gen' ∅ := nofun

theorem spacedLiterals_installs (gen : Generalizer) (n : String) (stripped : Stripped) :
    Installs gen (gen.spacedLiterals n stripped).2 n (gen.spacedLiterals n stripped).1.2 := by
  let counted : Generalizer := { gen with literalCount := gen.literalCount + 1 }
  have hcounted : gen.Extends counted := ⟨Nat.le_refl _, Nat.le_succ _, fun _ h => ⟨h, rfl⟩⟩
  have hmade : MadeAll gen counted (literalPattern (gen.literalCount + 1) stripped.rest).grammar := by
    intro m rs hget
    have hone := OrderedMap.get?_eq_some_iff.mp hget
    obtain ⟨rfl, rfl⟩ := Prod.mk.inj (List.mem_singleton.mp hone)
    exact ⟨_, .literal (Nat.lt_succ_self _) (Nat.le_refl _) rfl rfl⟩
  have hroots : ∀ m ∈ (literalPattern (gen.literalCount + 1) stripped.rest).roots, IsRoot m := by
    intro m hm
    obtain rfl := List.mem_singleton.mp hm
    exact .literal (Nat.succ_pos _)
  exact (hmade.withLeadingSpace hroots stripped.spaceAlphabet).installs
    (hcounted.trans (counted.extends_spaceId stripped.spaceAlphabet)) n _

/-- Whatever becomes of a token, its fragment is installed on the way to the next state. -/
theorem generalizeToken_installs {rules : List Rule} {decision : Generalization} {fragment : Grammar}
    (h : gen.generalizeToken n rules samples alphabet = (.ok (decision, fragment), gen')) :
    Installs gen gen' n fragment := by
  rw [generalizeToken] at h
  dsimp only at h
  split at h
  · cases h
    exact gen.spacedLiterals_installs n _
  · split at h
    · cases h
      exact (madeAll_empty gen gen).installs (.refl gen) n rules
    · split at h
      · cases h
      · rename_i p _ hsearch
        cases h
        obtain ⟨hlater, hmade⟩ := search_made (fun p hp => hp) hsearch
        exact (hmade p rfl).installs hlater n _
      · rename_i hsearch
        cases h
        exact (madeAll_empty gen gen').installs (search_made (fun p hp => hp) hsearch).1 n _

end Generalizer

end GrammarInference
