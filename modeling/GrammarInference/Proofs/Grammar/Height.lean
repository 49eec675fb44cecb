/-
GrammarInference/Proofs/Grammar/Height.lean

Derivations of bounded height.

Design.  `DerivesWithin g k r w` is derivation with at most `k` nonterminals on any path.  Every derivation is
within some height, and a word of a nonterminal has a least one, which is where arguments that shorten a
derivation start.
-/
import GrammarInference.Grammar.Language

namespace GrammarInference

namespace Grammar

/-- `DerivesWithin g k r w`: the symbols `r` derive `w`, with at most `k` nonterminals on any path. -/
inductive DerivesWithin (g : Grammar) : Nat → Rule → List Char → Prop
  | nil {k} : DerivesWithin g k [] []
  | terminal {k t r w} : DerivesWithin g k r w → DerivesWithin g k (.terminal t :: r) (t.toList ++ w)
  | nonterminal {k n body r u w} : body ∈ g.alternatives n → DerivesWithin g k body u →
      DerivesWithin g (k + 1) r w → DerivesWithin g (k + 1) (.nonterminal n :: r) (u ++ w)

/-- `InLanguageWithin g k n w`: an alternative of `n` derives `w`, with at most `k` nonterminals on any path. -/
def InLanguageWithin (g : Grammar) (k : Nat) (n : String) (w : List Char) : Prop :=
  ∃ body ∈ g.alternatives n, DerivesWithin g k body w

variable {g : Grammar}

theorem DerivesWithin.mono {k l : Nat} {r : Rule} {w : List Char} (h : DerivesWithin g k r w) (hkl : k ≤ l) :
    DerivesWithin g l r w := by
  induction h generalizing l with
  | nil => exact .nil
  | terminal _ ih => exact .terminal (ih hkl)
  | nonterminal hb _ _ ihBody ih =>
    obtain ⟨l, rfl⟩ : ∃ m, l = m + 1 := ⟨l - 1, by omega⟩
    exact .nonterminal hb (ihBody (Nat.le_of_succ_le_succ hkl)) (ih hkl)

theorem DerivesWithin.derives {k : Nat} {r : Rule} {w : List Char} (h : DerivesWithin g k r w) :
    Derives g r w := by
  induction h with
  | nil => exact .nil
  | terminal _ ih => exact .terminal ih
  | nonterminal hb _ _ ihBody ih => exact .nonterminal hb ihBody ih

/-- Every derivation has a height. -/
theorem Derives.exists_within {r : Rule} {w : List Char} (h : Derives g r w) : ∃ k, DerivesWithin g k r w := by
  induction h with
  | nil => exact ⟨0, .nil⟩
  | terminal _ ih =>
    obtain ⟨k, hk⟩ := ih
    exact ⟨k, .terminal hk⟩
  | nonterminal hb _ _ ihBody ih =>
    obtain ⟨k, hk⟩ := ihBody
    obtain ⟨l, hl⟩ := ih
    have hbody := hk.mono (Nat.le_max_left k l)
    have hrest := hl.mono (Nat.le_succ_of_le (Nat.le_max_right k l))
    exact ⟨max k l + 1, .nonterminal hb hbody hrest⟩

/-- A word that is derived within a height is derived within a least one. -/
theorem InLanguageWithin.exists_least {k : Nat} {n : String} {w : List Char} (h : InLanguageWithin g k n w) :
    ∃ m ≤ k, InLanguageWithin g m n w ∧ ∀ l, l < m → ¬ InLanguageWithin g l n w := by
  induction k using Nat.strongRecOn with
  | ind k ih =>
    by_cases hless : ∃ l, l < k ∧ InLanguageWithin g l n w
    · obtain ⟨l, hlk, hl⟩ := hless
      obtain ⟨m, hml, hm, hmin⟩ := ih l hlk hl
      exact ⟨m, Nat.le_trans hml (Nat.le_of_lt hlk), hm, hmin⟩
    · exact ⟨k, Nat.le_refl k, h, fun l hl hw => hless ⟨l, hl, hw⟩⟩

end Grammar

end GrammarInference
