/-
GrammarInference/Proofs/Pattern/Words.lean

Expressions that match the same words.

Design.  Two expressions are compared by their branches: the alternatives that are left when groups, options,
repetitions and classes are taken apart, each of them a sequence of parts that are spelled alike.  A class
becomes one branch for each of its characters, so that it can be compared with the alternatives of a
nonterminal.  Expressions with equal branches match the same words, and branches can be computed.
-/
import GrammarInference.Pattern.Library
import Mathlib.Data.List.Basic

namespace GrammarInference

/-! ### Characters -/

theorem toNat_ofNat {n : Nat} (h : n.isValidChar) : (Char.ofNat n).toNat = n := by
  rw [Char.ofNat, dif_pos h]
  rfl

/-- Below the code points that stand for no character, a range holds what lies between its ends. -/
theorem mem_charRange_iff {lo hi : Nat} {c : Char} (h : hi < 55296) :
    c ∈ charRange lo hi ↔ lo ≤ c.toNat ∧ c.toNat ≤ hi := by
  rw [charRange, List.mem_map]
  constructor
  · rintro ⟨i, hi', rfl⟩
    rw [List.mem_range] at hi'
    have hvalid : (lo + i).isValidChar := .inl (by omega)
    rw [toNat_ofNat hvalid]
    omega
  · rintro ⟨hlo, hhi⟩
    refine ⟨c.toNat - lo, List.mem_range.mpr (by omega), ?_⟩
    rw [Nat.add_sub_cancel' hlo, Char.ofNat_toNat]

namespace Regex

variable {a b r : Regex} {l : List Regex} {chars : List Char} {w : List Char}

/-! ### Repetitions and classes -/

theorem matches_star_iff : Matches (star a) w ↔ w = [] ∨ Matches (plus a) w := by
  constructor
  · intro h
    cases h with
    | starNil => exact .inl rfl
    | starCons hu hv => exact .inr (.plus hu hv)
  · rintro (rfl | h)
    · exact .starNil
    · cases h with
      | plus hu hv => exact .starCons hu hv

theorem matches_star_mono (h : ∀ u, Matches a u → Matches b u) (hw : Matches (star a) w) :
    Matches (star b) w := by
  generalize hr : star a = r at hw
  induction hw with
  | starNil => exact .starNil
  | starCons hu _ _ ih =>
    cases hr
    exact .starCons (h _ hu) (ih rfl)
  | nothing | char | any | oneOf | seq | altLeft | altRight | plus | optNil | opt | group => cases hr

theorem matches_star_congr (h : ∀ u, Matches a u ↔ Matches b u) : Matches (star a) w ↔ Matches (star b) w :=
  ⟨matches_star_mono fun u => (h u).mp, matches_star_mono fun u => (h u).mpr⟩

theorem matches_seq_congr {a' b' : Regex} (ha : ∀ u, Matches a u ↔ Matches a' u)
    (hb : ∀ u, Matches b u ↔ Matches b' u) : Matches (seq a b) w ↔ Matches (seq a' b') w := by
  simp only [matches_seq_iff, ha, hb]

theorem matches_plus_congr (h : ∀ u, Matches a u ↔ Matches b u) : Matches (plus a) w ↔ Matches (plus b) w := by
  simp only [matches_plus_iff, h, fun u => matches_star_congr (w := u) h]

theorem matches_charClass_iff : Matches (charClass chars) w ↔ ∃ c ∈ chars, w = [c] := by
  rw [charClass, matches_oneOf_iff]
  simp only [List.any_map, List.any_eq_true, Function.comp_apply, ClassItem.one, ClassItem.holds,
    Bool.and_eq_true, decide_eq_true_eq]
  constructor
  · rintro ⟨c, rfl, d, hd, hlo, hhi⟩
    obtain rfl : d = c := Char.toNat_inj.mp (Nat.le_antisymm hlo hhi)
    exact ⟨d, hd, rfl⟩
  · rintro ⟨c, hc, rfl⟩
    exact ⟨c, rfl, c, hc, Nat.le_refl _, Nat.le_refl _⟩

/-- A class that is repeated matches the words over its characters. -/
theorem matches_star_charClass_iff : Matches (star (charClass chars)) w ↔ ∀ c ∈ w, c ∈ chars := by
  induction w with
  | nil => exact iff_of_true .starNil (List.forall_mem_nil _)
  | cons c w ih =>
    rw [matches_star_cons_iff, List.forall_mem_cons, ← ih]
    constructor
    · rintro ⟨u, v, rfl, hu, hv⟩
      obtain ⟨d, hd, heq⟩ := matches_charClass_iff.mp hu
      obtain ⟨rfl, rfl⟩ := List.cons.inj heq
      exact ⟨hd, hv⟩
    · rintro ⟨hc, hw⟩
      exact ⟨[], w, rfl, matches_charClass_iff.mpr ⟨c, hc, rfl⟩, hw⟩

theorem matches_plus_charClass_iff :
    Matches (plus (charClass chars)) w ↔ w ≠ [] ∧ ∀ c ∈ w, c ∈ chars := by
  rw [← matches_star_charClass_iff]
  constructor
  · intro h
    refine ⟨?_, matches_star_iff.mpr (.inr h)⟩
    rintro rfl
    rw [matches_nil_iff] at h
    cases h
  · rintro ⟨hne, h⟩
    exact (matches_star_iff.mp h).resolve_left hne

/-! ### Branches -/

/-- One of several expressions. -/
def choice : List Regex → Regex
  | [] => oneOf []
  | [a] => a
  | a :: rest => alt a (choice rest)

/-- One expression after another, as a sequence of single parts if the first one is. -/
def join : Regex → Regex → Regex
  | nothing, b => b
  | seq a a', b => seq a (join a' b)
  | a, nothing => a
  | a, b => seq a b

end Regex

/-- The characters of a range one by one, if all of them are characters. -/
def ClassItem.branches (i : ClassItem) : List Regex :=
  if i.hi.toNat < 55296 then (charRange i.lo.toNat i.hi.toNat).map fun c => .char c false else [.oneOf [i]]

namespace Regex

/-- The alternatives that an expression comes to. -/
def branches : Regex → List Regex
  | nothing => [nothing]
  | char c _ => [char c false]
  | any => [any]
  | oneOf items => items.flatMap ClassItem.branches
  | seq a b => [join (choice a.branches) (choice b.branches)]
  | alt a b => a.branches ++ b.branches
  | star a => [nothing, plus (choice a.branches)]
  | plus a => [plus (choice a.branches)]
  | opt a => nothing :: a.branches
  | group a _ => a.branches

theorem matches_choice_iff : Matches (choice l) w ↔ ∃ a ∈ l, Matches a w := by
  induction l with
  | nil => simp [choice, matches_oneOf_iff]
  | cons a l ih =>
    cases l with
    | nil => simp [choice]
    | cons b l => rw [choice, matches_alt_iff, ih, List.exists_mem_cons_iff] <;> simp

theorem matches_nothing_iff : Matches nothing w ↔ w = [] := by
  constructor
  · intro h
    cases h
    rfl
  · rintro rfl
    exact .nothing

theorem matches_nothing_seq_iff : Matches (seq nothing b) w ↔ Matches b w := by
  rw [matches_seq_iff]
  constructor
  · rintro ⟨u, v, rfl, hu, hv⟩
    obtain rfl := matches_nothing_iff.mp hu
    exact hv
  · intro hw
    exact ⟨[], w, rfl, .nothing, hw⟩

theorem matches_seq_nothing_iff : Matches (seq a nothing) w ↔ Matches a w := by
  simp [matches_seq_iff, matches_nothing_iff]

theorem matches_seq_assoc_iff {c : Regex} : Matches (seq (seq a b) c) w ↔ Matches (seq a (seq b c)) w := by
  simp only [matches_seq_iff]
  constructor
  · rintro ⟨-, v, rfl, ⟨u, u', rfl, ha, hb⟩, hc⟩
    exact ⟨u, u' ++ v, List.append_assoc _ _ _, ha, u', v, rfl, hb, hc⟩
  · rintro ⟨u, -, rfl, ha, u', v, rfl, hb, hc⟩
    exact ⟨u ++ u', v, (List.append_assoc _ _ _).symm, ⟨u, u', rfl, ha, hb⟩, hc⟩

theorem matches_join_iff : Matches (join a b) w ↔ Matches (seq a b) w := by
  induction a generalizing w with
  | nothing => rw [join, matches_nothing_seq_iff]
  | seq a a' _ ih => rw [join, matches_seq_assoc_iff, matches_seq_congr (fun _ => Iff.rfl) fun _ => ih]
  | char | any | oneOf | alt | star | plus | opt | group =>
    cases b with
    | nothing => rw [join, matches_seq_nothing_iff] <;> exact nofun
    | char | any | oneOf | seq | alt | star | plus | opt | group => rw [join] <;> exact nofun

theorem exists_mem_branches_iff {i : ClassItem} :
    (∃ a ∈ i.branches, Matches a w) ↔ ∃ c, w = [c] ∧ i.holds c = true := by
  rw [ClassItem.branches]
  split
  · rename_i h
    simp only [List.mem_map, ClassItem.holds, Bool.and_eq_true, decide_eq_true_eq, ← mem_charRange_iff h]
    constructor
    · rintro ⟨-, ⟨c, hc, rfl⟩, hw⟩
      exact ⟨c, matches_char_iff.mp hw, hc⟩
    · rintro ⟨c, rfl, hc⟩
      exact ⟨_, ⟨c, hc, rfl⟩, .char⟩
  · simp [matches_oneOf_iff]

/-- An expression matches what one of its branches matches. -/
theorem matches_choice_branches_iff (r : Regex) : Matches (choice r.branches) w ↔ Matches r w := by
  induction r generalizing w with
  | nothing | any => rfl
  | char c e => rw [branches, choice, matches_char_iff, matches_char_iff]
  | oneOf items =>
    rw [branches, matches_choice_iff, matches_oneOf_iff]
    simp only [List.mem_flatMap, List.any_eq_true]
    constructor
    · rintro ⟨a, ⟨i, hi, ha⟩, hw⟩
      obtain ⟨c, rfl, hc⟩ := exists_mem_branches_iff.mp ⟨a, ha, hw⟩
      exact ⟨c, rfl, i, hi, hc⟩
    · rintro ⟨c, rfl, i, hi, hc⟩
      obtain ⟨a, ha, hw⟩ := exists_mem_branches_iff.mpr ⟨c, rfl, hc⟩
      exact ⟨a, ⟨i, hi, ha⟩, hw⟩
  | seq a b iha ihb => rw [branches, choice, matches_join_iff, matches_seq_congr (fun _ => iha) fun _ => ihb]
  | alt a b iha ihb =>
    rw [branches, matches_choice_iff, matches_alt_iff, ← iha, ← ihb, matches_choice_iff, matches_choice_iff]
    simp only [List.mem_append, or_and_right, exists_or]
  | star a ih =>
    rw [branches, choice, choice, matches_alt_iff, matches_nothing_iff, matches_star_iff,
      matches_plus_congr fun _ => ih]
    exact nofun
  | plus a ih => rw [branches, choice, matches_plus_congr fun _ => ih]
  | opt a ih =>
    rw [branches, matches_choice_iff, List.exists_mem_cons_iff, ← matches_choice_iff, ih, matches_nothing_iff,
      matches_opt_iff]
  | group a e ih => rw [branches, ih, matches_group_iff]

/-- Expressions with the same branches match the same words. -/
theorem matches_iff_of_branches_eq (h : a.branches = b.branches) : Matches a w ↔ Matches b w := by
  rw [← matches_choice_branches_iff a, h, matches_choice_branches_iff]

end Regex

end GrammarInference
