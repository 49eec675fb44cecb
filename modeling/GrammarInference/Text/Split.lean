/-
GrammarInference/Text/Split.lean

Looking for one list inside another, and cutting lists at a separator.
-/

namespace GrammarInference

variable {α : Type} [DecidableEq α]

/-- Does `w` occur somewhere inside the list? -/
def occursIn (w : List α) : List α → Bool
  | [] => w.isEmpty
  | a :: rest => w.isPrefixOf (a :: rest) || occursIn w rest

/-- The parts before and after the first `sep`, if there is one. -/
def splitFirst? (sep : α) : List α → Option (List α × List α)
  | [] => none
  | a :: rest =>
    if a = sep then some ([], rest)
    else (splitFirst? sep rest).map fun p => (a :: p.1, p.2)

/-- The parts before and after the last `sep`, if there is one. -/
def splitLast? (sep : α) : List α → Option (List α × List α)
  | [] => none
  | a :: rest =>
    match splitLast? sep rest with
    | some p => some (a :: p.1, p.2)
    | none => if a = sep then some ([], rest) else none

theorem splitFirst?_eq_some {sep : α} {l u v : List α} (h : splitFirst? sep l = some (u, v)) :
    l = u ++ sep :: v ∧ sep ∉ u := by
  induction l generalizing u with
  | nil => simp [splitFirst?] at h
  | cons a rest ih =>
    by_cases ha : a = sep
    · simp only [splitFirst?, ha, if_true, Option.some.injEq, Prod.mk.injEq] at h
      obtain ⟨rfl, rfl⟩ := h
      simp [ha]
    · simp only [splitFirst?, ha, if_false, Option.map_eq_some_iff, Prod.mk.injEq] at h
      obtain ⟨⟨u', v'⟩, hp, rfl, rfl⟩ := h
      obtain ⟨rfl, hn⟩ := ih hp
      have hs : ¬ sep = a := fun e => ha e.symm
      exact ⟨rfl, by simp [hn, hs]⟩

theorem splitLast?_eq_none {sep : α} {l : List α} : splitLast? sep l = none ↔ sep ∉ l := by
  induction l with
  | nil => simp [splitLast?]
  | cons a rest ih =>
    rw [splitLast?]
    cases h : splitLast? sep rest with
    | some p =>
      have hm : sep ∈ rest := Decidable.byContradiction fun hn => by simp [ih.2 hn] at h
      simp [hm]
    | none =>
      have hn := ih.1 h
      by_cases ha : a = sep
      · simp [ha]
      · have hs : ¬ sep = a := fun e => ha e.symm
        simp [ha, hn, hs]

theorem splitLast?_eq_some {sep : α} {l u v : List α} (h : splitLast? sep l = some (u, v)) :
    l = u ++ sep :: v ∧ sep ∉ v := by
  induction l generalizing u with
  | nil => simp [splitLast?] at h
  | cons a rest ih =>
    rw [splitLast?] at h
    cases hr : splitLast? sep rest with
    | some p =>
      rw [hr] at h
      simp only [Option.some.injEq, Prod.mk.injEq] at h
      obtain ⟨rfl, rfl⟩ := h
      obtain ⟨he, hn⟩ := ih hr
      exact ⟨by rw [List.cons_append, ← he], hn⟩
    | none =>
      rw [hr] at h
      by_cases ha : a = sep
      · simp only [ha, if_true, Option.some.injEq, Prod.mk.injEq] at h
        obtain ⟨rfl, rfl⟩ := h
        exact ⟨by simp [ha], splitLast?_eq_none.1 hr⟩
      · simp [ha] at h

end GrammarInference
