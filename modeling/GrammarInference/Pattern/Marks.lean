/-
GrammarInference/Pattern/Marks.lean

The test whether a regular expression matches a word.

Design.  Every place of an expression at which a character is read carries a mark.  The mark is set if the
characters so far can have been read so that the last one was read there.  A character moves all marks at once:
a place is marked next if it can follow a marked one, or start the word, and reads the character.  So a word is
read in one pass, and a step takes time by the size of the expression, however many ways there are to match.

`accepts_iff_matches` says that this test answers for `Matches`.
-/
import GrammarInference.Pattern.Regex

namespace GrammarInference

namespace Regex

/-- A mark for every place of an expression that reads a character. -/
def Marks : Regex → Type
  | nothing => Unit
  | char _ _ | any | oneOf _ => Bool
  | seq a b | alt a b => Marks a × Marks b
  | star a | plus a | opt a | group a _ => Marks a

/-- No place is marked. -/
def noMarks : (r : Regex) → Marks r
  | nothing => ()
  | char _ _ | any | oneOf _ => false
  | seq a b | alt a b => (noMarks a, noMarks b)
  | star a | plus a | opt a | group a _ => noMarks a

/-- Can the expression end behind a marked place? -/
def isEnded : (r : Regex) → Marks r → Bool
  | nothing, _ => false
  | char _ _, x | any, x | oneOf _, x => x
  | seq a b, (x, y) => (isEnded a x && b.nullable) || isEnded b y
  | alt a b, (x, y) => isEnded a x || isEnded b y
  | star a, x | plus a, x | opt a, x | group a _, x => isEnded a x

/-- The marks after the character `c`; the expression can also start with `c` if `fresh` holds. -/
def advance (c : Char) : (r : Regex) → Bool → Marks r → Marks r
  | nothing, _, _ => ()
  | char d _, fresh, _ => fresh && decide (c = d)
  | any, fresh, _ => fresh
  | oneOf items, fresh, _ => fresh && items.any fun i => i.holds c
  | seq a b, fresh, (x, y) => (advance c a fresh x, advance c b ((fresh && a.nullable) || isEnded a x) y)
  | alt a b, fresh, (x, y) => (advance c a fresh x, advance c b fresh y)
  | star a, fresh, x | plus a, fresh, x => advance c a (fresh || isEnded a x) x
  | opt a, fresh, x | group a _, fresh, x => advance c a fresh x

/-- Can the rest of a word be read from the marks, or from the start if `fresh` holds? -/
def acceptsFrom (r : Regex) : Bool → Marks r → List Char → Bool
  | fresh, x, [] => (fresh && r.nullable) || r.isEnded x
  | fresh, x, c :: w => acceptsFrom r false (r.advance c fresh x) w

/-- Does the expression match the whole word? -/
def accepts (r : Regex) (w : List Char) : Bool := r.acceptsFrom true r.noMarks w

/-! ### The rest of a word -/

/-- `Rest r x w`: behind one of the marked places, the expression can go on with `w` and end. -/
def Rest : (r : Regex) → Marks r → List Char → Prop
  | nothing, _, _ => False
  | char _ _, x, w | any, x, w | oneOf _, x, w => x = true ∧ w = []
  | seq a b, (x, y), w => (∃ u v, w = u ++ v ∧ Rest a x u ∧ Matches b v) ∨ Rest b y w
  | alt a b, (x, y), w => Rest a x w ∨ Rest b y w
  | star a, x, w | plus a, x, w => ∃ u v, w = u ++ v ∧ Rest a x u ∧ Matches (star a) v
  | opt a, x, w | group a _, x, w => Rest a x w

theorem not_rest_noMarks (r : Regex) (w : List Char) : ¬ Rest r r.noMarks w := by
  induction r generalizing w with
  | nothing => exact id
  | char | any => exact nofun
  | oneOf => exact nofun
  | seq a b iha ihb => simp [Rest, noMarks, iha, ihb]
  | alt a b iha ihb => simp [Rest, noMarks, iha, ihb]
  | star a ih | plus a ih => simp [Rest, noMarks, ih]
  | opt a ih => exact ih w
  | group a e ih => exact ih w

theorem rest_nil_iff (r : Regex) (x : Marks r) : Rest r x [] ↔ r.isEnded x = true := by
  induction r with
  | nothing => exact ⟨nofun, nofun⟩
  | char | any => exact and_iff_left rfl
  | oneOf => exact and_iff_left rfl
  | seq a b iha ihb =>
    obtain ⟨x, y⟩ := x
    simp only [Rest, isEnded, exists_append_eq_nil, iha, ihb, matches_nil_iff, Bool.or_eq_true, Bool.and_eq_true]
  | alt a b iha ihb =>
    obtain ⟨x, y⟩ := x
    simp [Rest, isEnded, iha, ihb]
  | star a ih | plus a ih =>
    change Marks a at x
    simp only [Rest, isEnded, exists_append_eq_nil, ih]
    exact and_iff_left .starNil
  | opt a ih => exact ih x
  | group a e ih => exact ih x

/-- What can be read of a sequence behind its first character. -/
theorem exists_append_eq_cons {P Q : List Char → Prop} {c : Char} {w : List Char} :
    (∃ u v, c :: w = u ++ v ∧ P u ∧ Q v) ↔ (P [] ∧ Q (c :: w)) ∨ ∃ u v, w = u ++ v ∧ P (c :: u) ∧ Q v := by
  constructor
  · rintro ⟨u, v, e, hp, hq⟩
    cases u with
    | nil => exact .inl ⟨hp, e ▸ hq⟩
    | cons d u => cases e; exact .inr ⟨u, v, rfl, hp, hq⟩
  · rintro (⟨hp, hq⟩ | ⟨u, v, rfl, hp, hq⟩)
    · exact ⟨[], _, rfl, hp, hq⟩
    · exact ⟨c :: u, v, rfl, hp, hq⟩

theorem exists_append_or {P P' Q : List Char → Prop} {w : List Char} :
    (∃ u v, w = u ++ v ∧ (P u ∨ P' u) ∧ Q v) ↔
      (∃ u v, w = u ++ v ∧ P u ∧ Q v) ∨ ∃ u v, w = u ++ v ∧ P' u ∧ Q v := by
  grind

theorem exists_append_and {p : Prop} {P Q : List Char → Prop} {w : List Char} :
    (∃ u v, w = u ++ v ∧ (p ∧ P u) ∧ Q v) ↔ p ∧ ∃ u v, w = u ++ v ∧ P u ∧ Q v := by
  grind

/-- A character moves the marks: the rest behind it is what was left before it, or of a fresh start. -/
theorem rest_advance (c : Char) (r : Regex) (fresh : Bool) (x : Marks r) (w : List Char) :
    Rest r (r.advance c fresh x) w ↔ (fresh = true ∧ Matches r (c :: w)) ∨ Rest r x (c :: w) := by
  induction r generalizing fresh w with
  | nothing => simp [Rest, not_matches_nothing_cons]
  | char d e =>
    change (fresh && decide (c = d)) = true ∧ w = [] ↔ _ ∨ (_ ∧ c :: w = [])
    simp [matches_char_iff, and_assoc]
  | any =>
    change fresh = true ∧ w = [] ↔ _ ∨ (_ ∧ c :: w = [])
    simp [matches_any_iff]
  | oneOf items =>
    change (fresh && items.any fun i => i.holds c) = true ∧ w = [] ↔ _ ∨ (_ ∧ c :: w = [])
    simp only [matches_oneOf_iff, List.cons.injEq, reduceCtorEq]
    grind
  | seq a b iha ihb =>
    obtain ⟨x, y⟩ := x
    simp only [Rest, advance, iha, ihb, matches_seq_iff, exists_append_eq_cons, exists_append_or, exists_append_and,
      matches_nil_iff, rest_nil_iff, Bool.or_eq_true, Bool.and_eq_true]
    grind
  | alt a b iha ihb =>
    obtain ⟨x, y⟩ := x
    simp only [Rest, advance, iha, ihb, matches_alt_iff]
    grind
  | star a ih =>
    change Marks a at x
    simp only [Rest, advance, ih, matches_star_cons_iff, exists_append_eq_cons, exists_append_or, exists_append_and,
      rest_nil_iff, Bool.or_eq_true]
    grind
  | plus a ih =>
    change Marks a at x
    simp only [Rest, advance, ih, matches_star_cons_iff, matches_plus_iff, exists_append_eq_cons, exists_append_or,
      exists_append_and, rest_nil_iff, matches_nil_iff, Bool.or_eq_true]
    grind
  | opt a ih =>
    change Rest a (a.advance c fresh x) w ↔ _ ∨ Rest a x (c :: w)
    simp only [matches_opt_iff, reduceCtorEq, false_or]
    exact ih fresh x w
  | group a e ih =>
    change Rest a (a.advance c fresh x) w ↔ _ ∨ Rest a x (c :: w)
    simp only [matches_group_iff]
    exact ih fresh x w

theorem acceptsFrom_iff (r : Regex) (fresh : Bool) (x : Marks r) (w : List Char) :
    r.acceptsFrom fresh x w = true ↔ (fresh = true ∧ Matches r w) ∨ Rest r x w := by
  induction w generalizing fresh x with
  | nil => simp [acceptsFrom, matches_nil_iff, rest_nil_iff]
  | cons c w ih => simp [acceptsFrom, ih, rest_advance]

/-- The test answers for `Matches`. -/
theorem accepts_iff_matches (r : Regex) (w : List Char) : r.accepts w = true ↔ Matches r w := by
  simp [accepts, acceptsFrom_iff, not_rest_noMarks]

end Regex

end GrammarInference
