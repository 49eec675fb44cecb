/-
GrammarInference/Collection/Distinct.lean

Keeping the first occurrence of every element of a list.
-/

namespace GrammarInference

variable {α : Type} [DecidableEq α]

/-- The elements of a list in the order of their first occurrences, each one once. -/
def distinct : List α → List α
  | [] => []
  | a :: rest => a :: (distinct rest).filter fun b => decide (b ≠ a)

@[simp] theorem mem_distinct {l : List α} {a : α} : a ∈ distinct l ↔ a ∈ l := by
  induction l with
  | nil => simp [distinct]
  | cons b rest ih =>
    by_cases h : a = b
    · simp [distinct, h]
    · simp [distinct, h, ih]

theorem nodup_distinct (l : List α) : (distinct l).Nodup := by
  induction l with
  | nil => simp [distinct]
  | cons b rest ih =>
    rw [distinct, List.nodup_cons]
    exact ⟨by simp, ih.sublist List.filter_sublist⟩

theorem distinct_eq_self {l : List α} (h : l.Nodup) : distinct l = l := by
  induction l with
  | nil => rfl
  | cons b rest ih =>
    rw [List.nodup_cons] at h
    rw [distinct, ih h.2, List.filter_eq_self.2]
    intro a ha
    simp only [ne_eq, decide_not, Bool.not_eq_eq_eq_not, Bool.not_true, decide_eq_false_iff_not]
    rintro rfl
    exact h.1 ha

theorem distinct_filter (p : α → Bool) (l : List α) : distinct (l.filter p) = (distinct l).filter p := by
  induction l with
  | nil => rfl
  | cons a l ih =>
    rw [distinct, List.filter_cons, List.filter_cons]
    by_cases ha : p a = true
    · rw [if_pos ha, if_pos ha, distinct, ih, List.filter_filter, List.filter_filter]
      exact congrArg (a :: ·) (List.filter_congr fun b _ => Bool.and_comm _ _)
    · -- the element that is dropped is not among the others that pass
      rw [if_neg ha, if_neg ha, ih, List.filter_filter]
      refine List.filter_congr fun b _ => ?_
      by_cases hb : b = a
      · rw [hb, Bool.eq_false_iff.mpr ha]
        rfl
      · rw [decide_eq_true hb, Bool.and_true]

/-- Of a list behind another one the elements count that are not in the first. -/
theorem distinct_append (l l' : List α) :
    distinct (l ++ l') = distinct l ++ distinct (l'.filter fun b => !decide (b ∈ l)) := by
  induction l with
  | nil =>
    rw [List.filter_eq_self.mpr fun b _ => by simp]
    rfl
  | cons a l ih =>
    rw [List.cons_append, distinct, ih, List.filter_append, distinct, List.cons_append]
    congr 2
    rw [← distinct_filter, List.filter_filter]
    congr 1
    refine List.filter_congr fun b _ => ?_
    simp

end GrammarInference
