/-
GrammarInference/Pattern/Regex.lean

Regular expressions over characters: their text and the words they match.

Design.  The tree of an expression also records how it is spelled, so that its text can be given back:
groups are nodes of the tree, and a character class says how each of its ends is spelled.  An expression whose
text is nested too deeply is of no use.  `Matches` gives the words of an expression.
-/
import GrammarInference.Text.Quoted

namespace GrammarInference

/-- How a character is spelled inside a class. -/
inductive Spelling where
  /-- As itself. -/
  | plain
  /-- A backslash and a letter: tab, newline, carriage return. -/
  | letter
  /-- A code point of two hexadecimal digits. -/
  | twoHex
  /-- A code point between braces. -/
  | code
  deriving DecidableEq, Repr

/-- The letter that stands for `c` after a backslash. -/
def escapeLetter (c : Char) : Char := if c = '\t' then 't' else if c = '\n' then 'n' else 'r'

/-- The text of one end of a range. -/
def Spelling.render (s : Spelling) (c : Char) : List Char :=
  match s with
  | .plain => [c]
  | .letter => [backslash, escapeLetter c]
  | .twoHex => backslash :: 'x' :: padZeros 2 (upperHexDigits c.toNat)
  | .code => backslash :: 'x' :: Char.ofNat 123 :: upperHexDigits c.toNat ++ [Char.ofNat 125]

/-- A range of characters in a class, with its spelling. -/
structure ClassItem where
  /-- The first character. -/
  lo : Char
  /-- The last character. -/
  hi : Char
  /-- How both are spelled. -/
  spelling : Spelling
  deriving DecidableEq, Repr

namespace ClassItem

/-- A single character. -/
def one (c : Char) (s : Spelling) : ClassItem := ⟨c, c, s⟩

/-- Does the range hold `c`? -/
def holds (i : ClassItem) (c : Char) : Bool := decide (i.lo.toNat ≤ c.toNat) && decide (c.toNat ≤ i.hi.toNat)

/-- The text of a range: both ends, or the only character. -/
def render (i : ClassItem) : List Char :=
  if i.lo = i.hi then i.spelling.render i.lo else i.spelling.render i.lo ++ '-' :: i.spelling.render i.hi

end ClassItem

/-- A regular expression. -/
inductive Regex where
  /-- The empty word. -/
  | nothing
  /-- One character, spelled as itself or after a backslash. -/
  | char (c : Char) (escaped : Bool)
  /-- Any one character. -/
  | any
  /-- One character of a class. -/
  | oneOf (items : List ClassItem)
  /-- One expression after another. -/
  | seq (a b : Regex)
  /-- Either of two expressions. -/
  | alt (a b : Regex)
  /-- Any number of times. -/
  | star (a : Regex)
  /-- At least once. -/
  | plus (a : Regex)
  /-- At most once. -/
  | opt (a : Regex)
  /-- A group; one that captures is spelled without a mark. -/
  | group (a : Regex) (captures : Bool)
  deriving DecidableEq, Repr

namespace Regex

/-! ### Text -/

/-- The text of an expression. -/
def render : Regex → List Char
  | nothing => []
  | char c escaped => if escaped then [backslash, c] else [c]
  | any => ['.']
  | oneOf items => '[' :: items.flatMap ClassItem.render ++ [']']
  | seq a b => a.render ++ b.render
  | alt a b => a.render ++ '|' :: b.render
  | star a => a.render ++ ['*']
  | plus a => a.render ++ ['+']
  | opt a => a.render ++ ['?']
  | group a captures => (if captures then ['('] else ['(', '?', ':']) ++ a.render ++ [')']

/-- Is the text an expression?  A class without characters is not closed by its bracket. -/
def wellFormed : Regex → Bool
  | nothing | char _ _ | any => true
  | oneOf items => !items.isEmpty
  | seq a b | alt a b => a.wellFormed && b.wellFormed
  | star a | plus a | opt a | group a _ => a.wellFormed

/-- Is this one expression after another? -/
def isSeq : Regex → Bool
  | seq _ _ => true
  | _ => false

/-- Is this a choice? -/
def isAlt : Regex → Bool
  | alt _ _ => true
  | _ => false

/-- How deeply the text is nested.  A repetition, a group and a class are a level each, and so are the items of
a class, the parts of a sequence and the alternatives of a choice where there are several. -/
def depth : Regex → Nat
  | nothing | char _ _ | any => 0
  | oneOf items => if items.length ≤ 1 then 1 else 2
  | seq a b => max (if a.isSeq then a.depth else a.depth + 1) (if b.isSeq then b.depth else b.depth + 1)
  | alt a b => max (if a.isAlt then a.depth else a.depth + 1) (if b.isAlt then b.depth else b.depth + 1)
  | star a | plus a | opt a | group a _ => a.depth + 1

/-- The depth that is allowed. -/
def depthLimit : Nat := 250

/-- Can the expression be used to match whole words?  It is then the group in a sequence with the two ends of
the word, which takes two more levels. -/
def isUsable (r : Regex) : Bool := r.wellFormed && decide (r.depth + 2 ≤ depthLimit)

/-! ### Words -/

/-- `Matches r w`: the expression `r` matches the whole word `w`. -/
inductive Matches : Regex → List Char → Prop
  | nothing : Matches nothing []
  | char {c e} : Matches (char c e) [c]
  | any {c} : Matches any [c]
  | oneOf {items c} (i : ClassItem) : i ∈ items → i.holds c = true → Matches (oneOf items) [c]
  | seq {a b u v} : Matches a u → Matches b v → Matches (seq a b) (u ++ v)
  | altLeft {a b w} : Matches a w → Matches (alt a b) w
  | altRight {a b w} : Matches b w → Matches (alt a b) w
  | starNil {a} : Matches (star a) []
  | starCons {a u v} : Matches a u → Matches (star a) v → Matches (star a) (u ++ v)
  | plus {a u v} : Matches a u → Matches (star a) v → Matches (plus a) (u ++ v)
  | optNil {a} : Matches (opt a) []
  | opt {a w} : Matches a w → Matches (opt a) w
  | group {a e w} : Matches a w → Matches (group a e) w

/-- Does the expression match the empty word? -/
def nullable : Regex → Bool
  | nothing | star _ | opt _ => true
  | char _ _ | any | oneOf _ => false
  | seq a b => a.nullable && b.nullable
  | alt a b => a.nullable || b.nullable
  | plus a | group a _ => a.nullable

theorem not_matches_nothing_cons {c : Char} {w : List Char} : ¬ Matches nothing (c :: w) := nofun

theorem matches_char_iff {c : Char} {e : Bool} {w : List Char} : Matches (char c e) w ↔ w = [c] :=
  ⟨fun h => by cases h; rfl, fun h => h ▸ .char⟩

theorem matches_any_iff {w : List Char} : Matches any w ↔ ∃ c, w = [c] :=
  ⟨fun h => by cases h; exact ⟨_, rfl⟩, fun ⟨_, h⟩ => h ▸ .any⟩

theorem matches_oneOf_iff {items : List ClassItem} {w : List Char} :
    Matches (oneOf items) w ↔ ∃ c, w = [c] ∧ (items.any fun i => i.holds c) = true := by
  constructor
  · intro h
    cases h with
    | oneOf i hi hc => exact ⟨_, rfl, List.any_eq_true.mpr ⟨i, hi, hc⟩⟩
  · rintro ⟨c, rfl, h⟩
    obtain ⟨i, hi, hc⟩ := List.any_eq_true.mp h
    exact .oneOf i hi hc

theorem matches_seq_iff {a b : Regex} {w : List Char} :
    Matches (seq a b) w ↔ ∃ u v, w = u ++ v ∧ Matches a u ∧ Matches b v :=
  ⟨fun h => by cases h with | seq ha hb => exact ⟨_, _, rfl, ha, hb⟩, fun ⟨_, _, e, ha, hb⟩ => e ▸ .seq ha hb⟩

theorem matches_plus_iff {a : Regex} {w : List Char} :
    Matches (plus a) w ↔ ∃ u v, w = u ++ v ∧ Matches a u ∧ Matches (star a) v :=
  ⟨fun h => by cases h with | plus ha hb => exact ⟨_, _, rfl, ha, hb⟩, fun ⟨_, _, e, ha, hb⟩ => e ▸ .plus ha hb⟩

theorem matches_alt_iff {a b : Regex} {w : List Char} : Matches (alt a b) w ↔ Matches a w ∨ Matches b w :=
  ⟨fun h => by cases h with
    | altLeft h => exact .inl h
    | altRight h => exact .inr h,
   fun h => h.elim .altLeft .altRight⟩

theorem matches_opt_iff {a : Regex} {w : List Char} : Matches (opt a) w ↔ w = [] ∨ Matches a w :=
  ⟨fun h => by cases h with
    | optNil => exact .inl rfl
    | opt h => exact .inr h,
   fun h => h.elim (fun e => e ▸ .optNil) .opt⟩

theorem matches_group_iff {a : Regex} {e : Bool} {w : List Char} : Matches (group a e) w ↔ Matches a w :=
  ⟨fun h => by cases h; assumption, .group⟩

/-- A repetition that reads something reads it in a first round that is not empty. -/
theorem matches_star_cons_iff {a : Regex} {c : Char} {w : List Char} :
    Matches (star a) (c :: w) ↔ ∃ u v, w = u ++ v ∧ Matches a (c :: u) ∧ Matches (star a) v := by
  constructor
  · intro h
    generalize hr : star a = r at h
    generalize hs : c :: w = s at h
    induction h with
    | starNil => cases hs
    | @starCons b u v ha hb _ ih =>
      cases hr
      cases u with
      | nil => exact ih rfl hs
      | cons d u => cases hs; exact ⟨u, v, rfl, ha, hb⟩
    | _ => cases hr
  · rintro ⟨u, v, rfl, ha, hb⟩
    exact .starCons ha hb

/-- There is one way to part the empty word. -/
theorem exists_append_eq_nil {P Q : List Char → Prop} : (∃ u v, [] = u ++ v ∧ P u ∧ Q v) ↔ P [] ∧ Q [] :=
  ⟨fun ⟨_, _, e, hp, hq⟩ => by obtain ⟨rfl, rfl⟩ := List.append_eq_nil_iff.mp e.symm; exact ⟨hp, hq⟩,
   fun ⟨hp, hq⟩ => ⟨[], [], rfl, hp, hq⟩⟩

theorem matches_nil_iff (r : Regex) : Matches r [] ↔ r.nullable = true := by
  induction r with
  | nothing => exact ⟨fun _ => rfl, fun _ => .nothing⟩
  | char | any => exact ⟨nofun, nofun⟩
  | oneOf => exact ⟨nofun, nofun⟩
  | seq a b iha ihb => simp only [matches_seq_iff, exists_append_eq_nil, nullable, iha, ihb, Bool.and_eq_true]
  | alt a b iha ihb => simp [matches_alt_iff, nullable, iha, ihb]
  | star a => exact ⟨fun _ => rfl, fun _ => .starNil⟩
  | plus a ih =>
    simp only [matches_plus_iff, exists_append_eq_nil, nullable, ih]
    exact and_iff_left .starNil
  | opt a => exact ⟨fun _ => rfl, fun _ => .optNil⟩
  | group a e ih => simp [matches_group_iff, nullable, ih]

end Regex

end GrammarInference
