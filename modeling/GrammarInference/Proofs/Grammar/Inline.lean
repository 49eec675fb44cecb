/-
GrammarInference/Proofs/Grammar/Inline.lean

Inlining loses nothing.

Design.  All references are replaced at once, so after the pass a symbol has to derive its words in two ways: as
it is, where a pattern root still mentions it, and as the body that took its place.  The induction on
derivations shows both together.
-/
import GrammarInference.Grammar.Tidy
import GrammarInference.Proofs.Grammar.Dedup
import GrammarInference.Proofs.Grammar.Growth

namespace GrammarInference

namespace Grammar

variable {g : Grammar} {n : String} {r : Rule}

/-- What takes the place of a symbol. -/
def inlineSymbol (bodies : List (String × Rule)) : Symbol → Rule
  | .terminal t => [.terminal t]
  | .nonterminal n => (OrderedMap.find n bodies).getD [.nonterminal n]

theorem inlineInto_eq (bodies : List (String × Rule)) (r : Rule) :
    inlineInto bodies r = r.flatMap (inlineSymbol bodies) := by
  refine congrArg (fun f => List.flatMap f r) ?_
  funext x
  cases x <;> rfl

theorem eq_singleton_of_inlineBody? {rs : List Rule} (h : inlineBody? n rs = some r) : rs = [r] := by
  rcases rs with - | ⟨r', - | ⟨r'', rs⟩⟩
  · cases h
  · rw [inlineBody?] at h
    split at h
    · cases h
    · cases h
      rfl
  · cases h

/-- A body that is inlined is the only alternative of its nonterminal. -/
theorem alternatives_of_find_inlineBodies (h : OrderedMap.find n g.inlineBodies = some r) :
    g.alternatives n = [r] := by
  obtain ⟨⟨n', rs⟩, he, hsome⟩ := List.mem_filterMap.mp (OrderedMap.mem_of_find_eq_some h)
  obtain ⟨r', hr', heq⟩ := Option.map_eq_some_iff.mp hsome
  cases heq
  rw [alternatives_of_mem_entries he]
  exact eq_singleton_of_inlineBody? hr'

/-- All references outside of pattern roots are replaced. -/
def inlineAt (bodies : List (String × Rule)) (g : Grammar) : Grammar :=
  g.mapValues fun n rs => if isPatternRoot n then rs else distinct (rs.map (inlineInto bodies))

theorem alternatives_inlineAt (bodies : List (String × Rule)) (g : Grammar) (n : String) :
    (inlineAt bodies g).alternatives n =
      if isPatternRoot n then g.alternatives n else distinct ((g.alternatives n).map (inlineInto bodies)) := by
  rw [alternatives, inlineAt, OrderedMap.get?_mapValues, alternatives]
  cases g.get? n with
  | none =>
    rw [Option.map_none, Option.getD_none, List.map_nil, distinct]
    split <;> rfl
  | some rs => rfl

theorem inlineAt_includedIn (g : Grammar) : IncludedIn g (inlineAt g.inlineBodies g) := by
  intro r w hd
  -- a symbol may end up in a pattern root, where it stays, or elsewhere, where it is inlined
  refine Pieces.derives (fun x u hx => hx.1) (hd.pieces (P := fun x u =>
    Derives (inlineAt g.inlineBodies g) [x] u ∧
      Derives (inlineAt g.inlineBodies g) (inlineSymbol g.inlineBodies x) u) ?_ ?_)
  · intro t
    have ht := derives_terminal_iff (g := inlineAt g.inlineBodies g) (t := t).mpr rfl
    exact ⟨ht, ht⟩
  · intro n body u hb hu
    have hplain : Derives (inlineAt g.inlineBodies g) body u := hu.derives fun x v hx => hx.1
    have hn : InLanguage (inlineAt g.inlineBodies g) n u := by
      rw [InLanguage, alternatives_inlineAt]
      split
      · exact ⟨body, hb, hplain⟩
      · refine ⟨_, mem_distinct.mpr (List.mem_map_of_mem hb), ?_⟩
        rw [inlineInto_eq]
        exact hu.derives_flatMap fun x v hx => hx.2
    refine ⟨derives_singleton_iff.mpr hn, ?_⟩
    rw [inlineSymbol]
    rcases hfind : OrderedMap.find n g.inlineBodies with - | r
    · exact derives_singleton_iff.mpr hn
    · -- the body that takes the place of `n` is the alternative that was used
      rw [alternatives_of_find_inlineBodies hfind] at hb
      rw [← List.mem_singleton.mp hb]
      exact hplain

/-- One pass of inlining loses nothing. -/
theorem inlineSingles_includedIn (g : Grammar) : IncludedIn g (inlineSingles g).1 := by
  rw [inlineSingles]
  split
  · exact .refl g
  · exact inlineAt_includedIn g

/-- What one pass of inlining keeps, all passes keep. -/
theorem inlineAll_induction {P : Grammar → Prop} (hinline : ∀ g, P g → P (inlineSingles g).1) {bound : Nat}
    {g g' : Grammar} {changed : Bool} (hg : P g) (h : inlineAll bound g = some (g', changed)) : P g' := by
  induction bound generalizing g g' changed with
  | zero => cases h
  | succ bound ih =>
    have hpass := hinline g hg
    rw [inlineAll] at h
    rcases hone : inlineSingles g with ⟨g₁, - | -⟩
    · simp only [hone] at h
      cases h
      rwa [hone] at hpass
    · simp only [hone] at h
      obtain ⟨⟨g₂, c⟩, hrest, heq⟩ := Option.map_eq_some_iff.mp h
      cases heq
      rw [hone] at hpass
      exact ih hpass hrest

end Grammar

end GrammarInference
