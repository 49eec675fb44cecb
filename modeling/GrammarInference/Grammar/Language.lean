/-
GrammarInference/Grammar/Language.lean

The strings that a grammar derives.

Design.  `Derives g r w` says that the symbols `r` derive the characters `w`: a terminal derives its own text
and a nonterminal what one of its alternatives derives.  An undefined nonterminal derives nothing.
-/
import GrammarInference.Grammar.Basic

namespace GrammarInference

namespace Grammar

/-- `Derives g r w`: the symbols `r` derive exactly the characters `w`. -/
inductive Derives (g : Grammar) : Rule → List Char → Prop
  | nil : Derives g [] []
  | terminal {t r w} : Derives g r w → Derives g (.terminal t :: r) (t.toList ++ w)
  | nonterminal {n body r u w} : body ∈ g.alternatives n → Derives g body u → Derives g r w →
      Derives g (.nonterminal n :: r) (u ++ w)

/-- `InLanguage g n w`: the nonterminal `n` derives exactly the characters `w`. -/
def InLanguage (g : Grammar) (n : String) (w : List Char) : Prop :=
  ∃ body ∈ g.alternatives n, Derives g body w

variable {g : Grammar}

theorem Derives.append {r s : Rule} {u w : List Char} (hr : Derives g r u) (hs : Derives g s w) :
    Derives g (r ++ s) (u ++ w) := by
  induction hr with
  | nil => exact hs
  | terminal _ ih => rw [List.cons_append, List.append_assoc]; exact .terminal ih
  | nonterminal hb hd _ _ ih => rw [List.cons_append, List.append_assoc]; exact .nonterminal hb hd ih

theorem derives_singleton_iff {n : String} {w : List Char} :
    Derives g [.nonterminal n] w ↔ InLanguage g n w := by
  constructor
  · intro h
    cases h with
    | nonterminal hb hd hn => cases hn; rw [List.append_nil]; exact ⟨_, hb, hd⟩
  · rintro ⟨body, hb, hd⟩
    have h := Derives.nonterminal hb hd .nil
    rwa [List.append_nil] at h

end Grammar

end GrammarInference
