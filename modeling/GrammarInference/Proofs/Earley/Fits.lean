/-
GrammarInference/Proofs/Earley/Fits.lean

Derivations that repeat no question.

Design.  A derivation over a part of the input asks, at each of its nonterminals, whether that nonterminal
derives a part of that part.  `Fits g input A r a b` is a derivation of the segment from `a` to `b` in which no
such question stands in `A` and none comes up again below itself.  Whatever is derived is derived in this way
(`fits_of_derives`): at each nonterminal take an alternative that derives the segment within the least height;
then the least heights decrease along every path, and no question can come up twice.
-/
import GrammarInference.Earley.Extraction
import GrammarInference.Proofs.Earley.Segment
import GrammarInference.Proofs.Grammar.Derivation
import GrammarInference.Proofs.Grammar.Height

namespace GrammarInference

namespace Earley

/-- `Fits g input A r a b`: the symbols `r` derive the input from `a` to `b`, where no question on the way stands
in `A` or above itself. -/
inductive Fits (g : Grammar) (input : Array Char) : List Span → Rule → Nat → Nat → Prop
  | nil {A a} : Fits g input A [] a a
  | terminal {A t r a b} : segment input a (a + t.toList.length) = t.toList →
      Fits g input A r (a + t.toList.length) b → Fits g input A (.terminal t :: r) a b
  | nonterminal {A n body r a m b} : (⟨a, m, n⟩ : Span) ∉ A → body ∈ g.alternatives n →
      Fits g input (⟨a, m, n⟩ :: A) body a m → Fits g input A r m b → Fits g input A (.nonterminal n :: r) a b

variable {g : Grammar} {input : Array Char}

theorem Fits.le {A : List Span} {r : Rule} {a b : Nat} (h : Fits g input A r a b) : a ≤ b := by
  induction h with
  | nil => exact Nat.le_refl _
  | terminal _ _ ih => exact Nat.le_trans (Nat.le_add_right _ _) ih
  | nonterminal _ _ _ _ ihBody ih => exact Nat.le_trans ihBody ih

theorem Fits.derives {A : List Span} {r : Rule} {a b : Nat} (h : Fits g input A r a b) :
    Grammar.Derives g r (segment input a b) := by
  induction h with
  | nil =>
    rw [segment_self]
    exact .nil
  | terminal htext hr ih =>
    rw [← segment_append (Nat.le_add_right _ _) hr.le, htext]
    exact .terminal ih
  | nonterminal _ hb hbody hr ihBody ih =>
    rw [← segment_append hbody.le hr.le]
    exact .nonterminal hb ihBody ih

/-- A derivation that is lower than any for the questions in `A` can be made one that repeats no question. -/
theorem fits_of_derivesWithin {k : Nat} {r : Rule} {w : List Char} (hd : Grammar.DerivesWithin g k r w)
    {A : List Span} {a b : Nat}
    (hA : ∀ q ∈ A, ∀ l, l < k → ¬ Grammar.InLanguageWithin g l q.name (segment input q.first q.last))
    (hab : a ≤ b) (hb : b ≤ input.size) (hseg : segment input a b = w) : Fits g input A r a b := by
  -- the outer induction is on the height, the inner one on the derivation
  induction k using Nat.strongRecOn generalizing r w A a b with
  | ind k ihHeight =>
    induction hd generalizing a with
    | nil =>
      have hlen : b - a = 0 := by rw [← length_segment hb, hseg, List.length_nil]
      obtain rfl : a = b := by omega
      exact .nil
    | @terminal k t r w hr ih =>
      obtain ⟨hle, htext, hrest⟩ := (segment_eq_append_iff hab hb).mp hseg
      exact .terminal htext (ih ihHeight hA hle hrest)
    | @nonterminal k n body r u v hbody hd hr _ ih =>
      obtain ⟨hle, hu, hrest⟩ := (segment_eq_append_iff hab hb).mp hseg
      obtain ⟨m, hmk, ⟨least, hleast, hdl⟩, hmin⟩ :=
        Grammar.InLanguageWithin.exists_least (⟨body, hbody, hd⟩ : Grammar.InLanguageWithin g k n u)
      have hmlt : m < k + 1 := Nat.lt_succ_of_le hmk
      have hnot : (⟨a, a + u.length, n⟩ : Span) ∉ A := fun hq => by
        refine hA _ hq m hmlt ?_
        show Grammar.InLanguageWithin g m n (segment input a (a + u.length))
        rw [hu]
        exact ⟨least, hleast, hdl⟩
      have hA' : ∀ q ∈ (⟨a, a + u.length, n⟩ : Span) :: A, ∀ l, l < m →
          ¬ Grammar.InLanguageWithin g l q.name (segment input q.first q.last) := by
        intro q hq l hl
        rcases List.mem_cons.mp hq with rfl | hq
        · show ¬ Grammar.InLanguageWithin g l n (segment input a (a + u.length))
          rw [hu]
          exact hmin l hl
        · exact hA q hq l (Nat.lt_trans hl hmlt)
      have hfit := ihHeight m hmlt hdl hA' (Nat.le_add_right a u.length) (Nat.le_trans hle hb) hu
      exact .nonterminal hnot hleast hfit (ih ihHeight hA hle hrest)

/-- Whatever is derived is derived without repeating a question. -/
theorem fits_of_derives {r : Rule} {a b : Nat} (hab : a ≤ b) (hb : b ≤ input.size)
    (hd : Grammar.Derives g r (segment input a b)) : Fits g input [] r a b := by
  obtain ⟨k, hk⟩ := hd.exists_within
  exact fits_of_derivesWithin hk (fun q hq => absurd hq List.not_mem_nil) hab hb rfl

end Earley

end GrammarInference
