/-
GrammarInference/Proofs/Refinement/Names.lean

Fresh names tell what they are names for.

Design.  A name for a refined nonterminal is made of the nonterminal without its brackets, a mark, and a number.
The mark may occur in the nonterminal as well, but a number has no underscore, so the last mark is the one that
was put there, and name and number can be read back.  The brackets were dropped, so this holds of nonterminals
that have them, and a fresh name has them again.  A name that is given out is not defined in the grammar: there
are more numbers to try than definitions.
-/
import GrammarInference.Proofs.Grammar.Growth
import GrammarInference.Refinement.Refiner
import GrammarInference.Text.Natural

namespace GrammarInference

variable {n m : String}

/-! ### Brackets -/

theorem eq_of_bracketed?_eq_some {l inner : List Char} (h : bracketed? l = some inner) :
    l = '<' :: (inner ++ ['>']) := by
  rw [bracketed?.eq_def] at h
  split at h
  · rename_i c rest
    split at h
    · rename_i hcond
      obtain ⟨hlast, hrest⟩ := hcond
      cases h
      rw [List.getLast?_cons_of_ne_nil hrest] at hlast
      rw [List.cons_append, List.dropLast_append_getLast? '>' hlast]
    · cases h
  · cases h

theorem bracketed?_eq_some {inner : List Char} (h : inner ≠ []) :
    bracketed? ('<' :: (inner ++ ['>'])) = some inner := by
  cases inner with
  | nil => exact absurd rfl h
  | cons c rest =>
    have hlast : (c :: (rest ++ ['>'])).getLast? = some '>' := by
      rw [← List.cons_append, List.getLast?_concat]
    rw [List.cons_append, bracketed?, if_pos ⟨hlast, by simp⟩, List.dropLast_concat]

theorem isNonterminalName_of_toList {l : List Char} (h : n.toList = '<' :: (l ++ ['>'])) (hl : l ≠ []) :
    isNonterminalName n = true := by
  rw [isNonterminalName, h, bracketed?_eq_some hl]
  rfl

theorem toList_of_isNonterminalName (h : isNonterminalName n = true) :
    n.toList = '<' :: ((bareName n).toList ++ ['>']) := by
  rw [isNonterminalName, Option.isSome_iff_exists] at h
  obtain ⟨inner, hinner⟩ := h
  rw [bareName, hinner, String.toList_ofList]
  exact eq_of_bracketed?_eq_some hinner

/-- Names in brackets are told apart by what is between them. -/
theorem eq_of_bareName_eq (hn : isNonterminalName n = true) (hm : isNonterminalName m = true)
    (h : (bareName n).toList = (bareName m).toList) : n = m := by
  rw [← String.toList_inj, toList_of_isNonterminalName hn, toList_of_isNonterminalName hm, h]

/-! ### Numbered names -/

theorem underscore_not_mem_toString (k : Nat) : '_' ∉ (toString k).toList := not_mem_toString (by decide) k

namespace Refiner

variable {σ : Type} {g : Grammar} {k j : Nat}

theorem toList_refinedName (n : String) (k : Nat) : (refinedName n k).toList =
    '<' :: (((bareName n).toList ++ "_refined".toList) ++ '_' :: (toString k).toList ++ ['>']) := by
  simp [refinedName, String.toList_append]

theorem isNonterminalName_refinedName (n : String) (k : Nat) : isNonterminalName (refinedName n k) = true :=
  isNonterminalName_of_toList (toList_refinedName n k) (by simp)

theorem eq_of_refinedName_eq (h : refinedName n k = refinedName m j) :
    (bareName n).toList = (bareName m).toList ∧ k = j := by
  rw [← String.toList_inj, toList_refinedName, toList_refinedName, List.cons_inj_right,
    List.append_cancel_right_eq] at h
  obtain ⟨hname, hnumber⟩ :=
    eq_of_append_cons_eq (underscore_not_mem_toString k) (underscore_not_mem_toString j) h
  rw [List.append_cancel_right_eq] at hname
  exact ⟨hname, eq_of_toString_eq (String.toList_inj.mp hnumber)⟩

/-- A fresh name tells the nonterminal that it is for, and its number. -/
theorem refinedName_inj (hn : isNonterminalName n = true) (hm : isNonterminalName m = true)
    (h : refinedName n k = refinedName m j) : n = m ∧ k = j := by
  obtain ⟨hname, hnumber⟩ := eq_of_refinedName_eq h
  exact ⟨eq_of_bareName_eq hn hm hname, hnumber⟩

theorem refinedName_injective (n : String) : Function.Injective (refinedName n) :=
  fun _ _ h => (eq_of_refinedName_eq h).2

/-- The first free number is free if one of those that are tried is. -/
theorem contains_firstFree {tries i : Nat} (hi : i < tries) (hfree : g.contains (refinedName n (k + i)) = false) :
    g.contains (refinedName n (firstFree g n tries k)) = false := by
  induction tries generalizing k i with
  | zero => exact absurd hi (Nat.not_lt_zero i)
  | succ tries ih =>
    rw [firstFree]
    by_cases hk : g.contains (refinedName n k) = true
    · rw [if_pos hk]
      cases i with
      | zero =>
        rw [Nat.add_zero, hk] at hfree
        cases hfree
      | succ i =>
        apply ih (Nat.lt_of_succ_lt_succ hi)
        rwa [Nat.add_assoc, Nat.add_comm 1 i]
    · rw [if_neg hk, ← Bool.not_eq_true]
      exact hk

/-- A name that is given out is not defined. -/
theorem contains_freshName (r : Refiner σ) (g : Grammar) (n : String) : g.contains (r.freshName g n).1 = false := by
  have hinj : Function.Injective fun i => refinedName n ((r.names.get? n).getD 0 + i) :=
    fun i j h => Nat.add_left_cancel (refinedName_injective n h)
  obtain ⟨i, hi, hfree⟩ := g.exists_not_contains hinj
  exact contains_firstFree hi hfree

end Refiner

end GrammarInference
