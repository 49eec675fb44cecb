/-
GrammarInference/Text/Natural.lean

Natural numbers written in text.
-/
import GrammarInference.Text.CodePoint

namespace GrammarInference

/-- The value of a digit. -/
def digitValue (c : Char) : Nat := c.toNat - 48

/-- The natural number of a list of digits. -/
def naturalOfDigits (l : List Char) : Nat := l.foldl (fun n c => n * 10 + digitValue c) 0

/-- Removes white space from both ends. -/
def trimSpace (l : List Char) : List Char :=
  ((l.dropWhile isSpace).reverse.dropWhile isSpace).reverse

/-- Drops one plus sign at the front. -/
def dropPlus : List Char → List Char
  | '+' :: rest => rest
  | l => l

/-- A natural number of 64 bits: an optional plus sign, then at least one digit. -/
def parseWord? (l : List Char) : Option UInt64 :=
  let n := naturalOfDigits (dropPlus l)
  if (dropPlus l).isEmpty || !(dropPlus l).all isAsciiDigit then none
  else if n < UInt64.size then some (UInt64.ofNat n)
  else none

/-- A number can be read back from its digits. -/
theorem eq_of_toString_eq {i j : Nat} (h : toString i = toString j) : i = j := by
  have hread : ∀ k : Nat, Nat.ofDigitChars 10 (toString k).toList 0 = k := by
    intro k
    rw [Nat.toString_eq_repr, Nat.toList_repr]
    exact Nat.ofDigitChars_ten_toDigits
  rw [← hread i, ← hread j, h]

theorem isDigit_of_mem_toString {k : Nat} {c : Char} (h : c ∈ (toString k).toList) : c.isDigit = true := by
  rw [Nat.toString_eq_repr, Nat.toList_repr] at h
  exact Nat.isDigit_of_mem_toDigits (by decide) (by decide) h

theorem toList_toString_ne_nil (k : Nat) : (toString k).toList ≠ [] := by
  rw [Nat.toString_eq_repr, Nat.toList_repr]
  exact Nat.toDigits_ne_nil

theorem not_mem_toString {c : Char} (hc : c.isDigit = false) (k : Nat) : c ∉ (toString k).toList := by
  intro h
  rw [isDigit_of_mem_toString h] at hc
  cases hc

/-- What stands behind the last occurrence of a character, and before it, can be read back. -/
theorem eq_of_append_cons_eq {α : Type} {a : α} {u u' v v' : List α} (hv : a ∉ v) (hv' : a ∉ v')
    (h : u ++ a :: v = u' ++ a :: v') : u = u' ∧ v = v' := by
  -- if the first parts differ, then the last part of one side holds the character of the other side
  rcases List.append_eq_append_iff.mp h with ⟨s, rfl, hs⟩ | ⟨s, rfl, hs⟩
  · cases s with
    | nil =>
      rw [List.nil_append, List.cons_inj_right] at hs
      exact ⟨(List.append_nil u).symm, hs⟩
    | cons b s =>
      rw [List.cons_append, List.cons.injEq] at hs
      exact absurd (hs.2 ▸ List.mem_append_right s List.mem_cons_self) hv
  · cases s with
    | nil =>
      rw [List.nil_append, List.cons_inj_right] at hs
      exact ⟨List.append_nil u', hs.symm⟩
    | cons b s =>
      rw [List.cons_append, List.cons.injEq] at hs
      exact absurd (hs.2 ▸ List.mem_append_right s List.mem_cons_self) hv'

end GrammarInference
