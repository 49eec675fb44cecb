/-
GrammarInference/Proofs/Execution/Label.lean

Labels of different kinds are different.

Design.  Functions and headers have arbitrary names, so a label cannot be taken apart from its front.  But every
label ends in a number and a bracket, and the character before the number, its `mark`, tells the kind: an at
sign for calls, and a letter for loops, iterations and buckets.  The names of the parts of a loop have no number
at their end.  So the mark alone keeps all these names apart, whatever the function is called.
-/
import GrammarInference.Execution.Label
import GrammarInference.Generalization.Generalizer
import GrammarInference.Mining.Extraction
import Mathlib.Data.List.TakeDrop

namespace GrammarInference

/-! ### Marks -/

/-- The last character of a name that is no digit, its closing bracket apart. -/
def mark (n : String) : Option Char := ((n.toList.reverse.drop 1).dropWhile isDecimalDigit).head?

theorem isDecimalDigit_of_isDigit {c : Char} (h : c.isDigit = true) : isDecimalDigit c = true := by
  have hlt : c.toNat < 0x80 := by
    simp only [Char.isDigit, Bool.and_eq_true, decide_eq_true_eq] at h
    have hle : c.val.toNat ≤ 57 := UInt32.le_iff_toNat_le.mp h.2
    exact Nat.lt_of_le_of_lt hle (by decide)
  rw [isDecimalDigit, if_pos hlt]
  exact h

theorem isDecimalDigit_of_mem_toString {k : Nat} {c : Char} (h : c ∈ (toString k).toList) :
    isDecimalDigit c = true :=
  isDecimalDigit_of_isDigit (isDigit_of_mem_toString h)

theorem mark_eq {n : String} {u : List Char} {c : Char} {k : Nat}
    (h : n.toList = u ++ c :: ((toString k).toList ++ ['>'])) (hc : isDecimalDigit c = false) :
    mark n = some c := by
  have hrev : n.toList.reverse.drop 1 = (toString k).toList.reverse ++ c :: u.reverse := by
    rw [h]
    simp
  have hdigits : ∀ a ∈ (toString k).toList.reverse, isDecimalDigit a = true := fun a ha =>
    isDecimalDigit_of_mem_toString (List.mem_reverse.mp ha)
  rw [mark, hrev, List.dropWhile_append_of_pos hdigits, List.dropWhile_cons_of_neg (by rw [hc]; decide)]
  rfl

/-- A name that ends in a letter has that letter as its mark. -/
theorem mark_eq_of_letter {n : String} {u : List Char} {c : Char} (h : n.toList = u ++ [c, '>'])
    (hc : isDecimalDigit c = false) : mark n = some c := by
  have hrev : n.toList.reverse.drop 1 = c :: u.reverse := by
    rw [h]
    simp
  rw [mark, hrev, List.dropWhile_cons_of_neg (by rw [hc]; decide)]
  rfl

/-- The mark of a kind of node. -/
def NodeKind.mark : NodeKind → Char
  | .call => '@'
  | .loop => 'L'
  | .iteration => 'I'
  | .bucket _ => 'T'

theorem mark_label (e : PathElement) : mark e.label = some e.kind.mark := by
  cases e with
  | call f c =>
    refine mark_eq (u := '<' :: f.toList) (k := c) ?_ (by rfl)
    simp [PathElement.label, PathElement.callText, PathElement.kind, NodeKind.mark]
  | loop f c i =>
    refine mark_eq (u := '<' :: (PathElement.callText f c).toList ++ ['_']) (k := i) ?_ (by rfl)
    simp [PathElement.label, PathElement.loopText, PathElement.kind, NodeKind.mark]
  | iteration f c i n =>
    refine mark_eq (u := '<' :: (PathElement.loopText f c i).toList ++ [':']) (k := n) ?_ (by rfl)
    simp [PathElement.label, PathElement.kind, NodeKind.mark]

theorem PathElement.exists_toList_label (e : PathElement) : ∃ u, e.label.toList = u ++ ['>'] := by
  cases e <;> exact ⟨_, by simp only [label, String.toList_append]; rfl⟩

/-- The label of the bucket with the given number. -/
def bucketLabel (k : Nat) : String := "<__T" ++ toString k ++ ">"

theorem mark_bucketLabel (k : Nat) : mark (bucketLabel k) = some 'T' := by
  refine mark_eq (u := ['<', '_', '_']) (k := k) ?_ (by decide)
  simp [bucketLabel]

theorem mark_continueName (n : String) : mark (continueName n) = some 't' := by
  refine mark_eq_of_letter (u := (withoutLast n).toList ++ ['_', 'c', 'o', 'n']) ?_ (by decide)
  simp [continueName]

theorem mark_exitName (n : String) : mark (exitName n) = some 't' := by
  refine mark_eq_of_letter (u := (withoutLast n).toList ++ ['_', 'e', 'x', 'i']) ?_ (by decide)
  simp [exitName]

theorem mark_startName : mark startName = some 't' := by decide

theorem toList_continueName (n : String) : (continueName n).toList = n.toList.dropLast ++ "_cont>".toList := by
  rw [continueName, withoutLast, String.toList_append, String.toList_ofList]

theorem toList_exitName (n : String) : (exitName n).toList = n.toList.dropLast ++ "_exit>".toList := by
  rw [exitName, withoutLast, String.toList_append, String.toList_ofList]

theorem continueName_ne_exitName (n m : String) : continueName n ≠ exitName m := by
  intro h
  rw [← String.toList_inj, toList_continueName, toList_exitName] at h
  exact absurd (List.append_inj_right' h (by decide)) (by decide)

theorem continueName_ne_startName (n : String) : continueName n ≠ startName := by
  intro h
  rw [← String.toList_inj, toList_continueName, show startName.toList = ['<'] ++ "start>".toList by rfl] at h
  exact absurd (List.append_inj_right' h (by decide)) (by decide)

theorem exitName_ne_startName (n : String) : exitName n ≠ startName := by
  intro h
  rw [← String.toList_inj, toList_exitName, show startName.toList = ['<'] ++ "start>".toList by rfl] at h
  exact absurd (List.append_inj_right' h (by decide)) (by decide)

/-- A name in brackets can be read back from the continue part of its loop. -/
theorem continueName_inj {n m : String} (hn : ∃ u, n.toList = u ++ ['>']) (hm : ∃ u, m.toList = u ++ ['>'])
    (h : continueName n = continueName m) : n = m := by
  obtain ⟨u, hu⟩ := hn
  obtain ⟨v, hv⟩ := hm
  rw [← String.toList_inj, toList_continueName, toList_continueName, hu, hv, List.dropLast_concat,
    List.dropLast_concat, List.append_cancel_right_eq] at h
  rw [← String.toList_inj, hu, hv, h]

/-- Whatever passes for the label of a loop ends in a bracket. -/
theorem exists_toList_of_isLoopLabel {n : String} (h : isLoopLabel n = true) : ∃ u, n.toList = u ++ ['>'] := by
  rw [isLoopLabel] at h
  split at h
  · rename_i rest hrest
    exact ⟨rest.reverse, by rw [← List.reverse_reverse n.toList, hrest, List.reverse_cons]⟩
  · cases h

/-- Whatever passes for the label of a loop has the mark of one. -/
theorem mark_of_isLoopLabel {n : String} (h : isLoopLabel n = true) : mark n = some 'L' := by
  rw [isLoopLabel] at h
  split at h
  · rename_i rest hrest
    rw [mark, hrest]
    split at h
    · rename_i rest' hdigits
      rw [splitDigits?] at hdigits
      split at hdigits
      · cases hdigits
      · rename_i hspan
        have hdrop := congrArg Prod.snd hspan
        rw [List.span_eq_takeWhile_dropWhile] at hdrop
        cases hdigits
        show (rest.dropWhile isDecimalDigit).head? = some 'L'
        rw [show rest.dropWhile isDecimalDigit = _ from hdrop]
        rfl
    · cases h
  · cases h

theorem kind_eq_of_label_eq {e e' : PathElement} (h : e.label = e'.label) : e.kind = e'.kind := by
  have hmark : e.kind.mark = e'.kind.mark := by
    rw [← Option.some_inj, ← mark_label, ← mark_label, h]
  revert hmark
  cases e <;> cases e' <;> simp [PathElement.kind, NodeKind.mark]

theorem bucketLabel_ne_label (k : Nat) (e : PathElement) : bucketLabel k ≠ e.label := by
  intro h
  have hmark : some 'T' = some e.kind.mark := by rw [← mark_bucketLabel k, ← mark_label, h]
  revert hmark
  cases e <;> simp [PathElement.kind, NodeKind.mark]

/-! ### Observed functions -/

/-- The function was observed: its name does not begin like that of an external one. -/
def IsObserved (callee : String) : Prop := "__external_".toList.isPrefixOf callee.toList = false

instance (callee : String) : Decidable (IsObserved callee) :=
  inferInstanceAs (Decidable (_ = false))

/-- The function that a step belongs to. -/
def PathElement.callee : PathElement → String
  | .call f _ => f
  | .loop f _ _ => f
  | .iteration f _ _ _ => f

/-- The name begins with an observed function and an at sign. -/
def IsOfObserved (n : String) : Prop :=
  ∃ f rest, IsObserved f ∧ n.toList = '<' :: (f.toList ++ '@' :: rest)

/-- A word without the separator begins the text only if it begins the part before the separator. -/
theorem isPrefixOf_of_append {p u v : List Char} {c : Char} (hc : c ∉ p) (h : p.isPrefixOf (u ++ c :: v) = true) :
    p.isPrefixOf u = true := by
  induction u generalizing p with
  | nil =>
    cases p with
    | nil => rfl
    | cons a p =>
      rw [List.nil_append, List.isPrefixOf_cons_cons, Bool.and_eq_true, beq_iff_eq] at h
      exact absurd (h.1 ▸ List.mem_cons_self) hc
  | cons b u ih =>
    cases p with
    | nil => rfl
    | cons a p =>
      rw [List.cons_append, List.isPrefixOf_cons_cons, Bool.and_eq_true] at h
      rw [List.isPrefixOf_cons_cons, Bool.and_eq_true]
      exact ⟨h.1, ih (fun hm => hc (List.mem_cons_of_mem a hm)) h.2⟩

theorem IsOfObserved.isExternal_eq {n : String} (h : IsOfObserved n) : isExternal n = false := by
  obtain ⟨f, rest, hf, hn⟩ := h
  rw [isExternal, hn]
  by_contra hext
  rw [Bool.not_eq_false] at hext
  have hpre : "__external_".toList.isPrefixOf (f.toList ++ '@' :: rest) = true := hext
  have htrue := isPrefixOf_of_append (by decide) hpre
  rw [IsObserved, htrue] at hf
  cases hf

theorem isOfObserved_label {e : PathElement} (h : IsObserved e.callee) : IsOfObserved e.label := by
  cases e with
  | call f c => exact ⟨f, _, h, by simp [PathElement.label, PathElement.callText]; rfl⟩
  | loop f c i =>
    exact ⟨f, _, h, by simp [PathElement.label, PathElement.loopText, PathElement.callText]; rfl⟩
  | iteration f c i n =>
    exact ⟨f, _, h, by simp [PathElement.label, PathElement.loopText, PathElement.callText]; rfl⟩

/-- The parts of a loop belong to its function. -/
theorem isOfObserved_part {f : String} (hf : IsObserved f) (c i : Nat) (ending : String) :
    IsOfObserved (withoutLast (PathElement.loop f c i).label ++ ending) := by
  refine ⟨f, (toString c).toList ++ '_' :: 'L' :: (toString i).toList ++ ending.toList, hf, ?_⟩
  have hlabel : (PathElement.loop f c i).label.toList =
      ('<' :: (f.toList ++ '@' :: ((toString c).toList ++ '_' :: 'L' :: (toString i).toList))) ++ ['>'] := by
    simp [PathElement.label, PathElement.loopText, PathElement.callText]
  rw [withoutLast, String.toList_append, String.toList_ofList, hlabel, List.dropLast_concat]
  simp

end GrammarInference
