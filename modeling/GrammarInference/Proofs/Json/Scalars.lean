/-
GrammarInference/Proofs/Json/Scalars.lean

Reading back strings and numbers.

Design.  A string is written character by character, and each character is read back as one piece, whatever
follows it (`Piece.Stands`); the pieces of a written string never hold half of a surrogate pair, so they join to
the string.  A string ends by itself, but a number does not: digits would be read on, so what follows it has to
start with something else (`Delimited`).

    readString?    (the characters of s, escaped ++ " ++ rest)  =  (s, rest)
    readMagnitude? (the text of a number ++ rest)               =  (the number, rest)
-/
import GrammarInference.Json.Printer
import GrammarInference.Json.Reader
import Mathlib.Data.List.TakeDrop
import Mathlib.Data.List.TakeWhile

namespace GrammarInference

namespace Json

/-! ### Strings -/

theorem readPieces?_plain {c : Char} (hquote : c ≠ quoteMark) (hbackslash : c ≠ backslash) (hcontrol : ¬c.toNat < 0x20)
    (rest : List Char) : readPieces? (c :: rest) = (readPieces? rest).map fun q => (.char c :: q.1, q.2) := by
  rw [readPieces?.eq_def]
  simp only [if_neg hquote, if_neg hbackslash, if_neg hcontrol]

theorem readPieces?_letter {e c : Char} (hu : e ≠ 'u') (he : escaped? e = some c) (rest : List Char) :
    readPieces? (backslash :: e :: rest) = (readPieces? rest).map fun q => (.char c :: q.1, q.2) := by
  have hquote : backslash ≠ quoteMark := by decide
  have hcontrol : ¬backslash.toNat < 0x20 := by decide
  rw [readPieces?.eq_def]
  simp only [if_neg hquote, if_neg hcontrol, if_pos]
  split
  · rename_i heq
    exact absurd (List.cons.inj heq).1 hu
  · rename_i heq
    cases heq
    simp only [he]
  · rename_i heq
    cases heq

theorem readPieces?_unit {a b c d : Char} {n : Nat} (h : hexUnit? a b c d = some n) (rest : List Char) :
    readPieces? (backslash :: 'u' :: a :: b :: c :: d :: rest) =
      (readPieces? rest).map fun q => (.unit n :: q.1, q.2) := by
  have hquote : backslash ≠ quoteMark := by decide
  have hcontrol : ¬backslash.toNat < 0x20 := by decide
  rw [readPieces?.eq_def]
  simp only [if_neg hquote, if_neg hcontrol, if_pos, h]

/-- The four digits of a control character. -/
theorem exists_padZeros : ∀ n < 32, ∃ a b c d, padZeros 4 (hexDigits n) = [a, b, c, d] ∧
    hexUnit? a b c d = some n := by
  have hdigits : ∀ n < 32, padZeros 4 (hexDigits n) =
      ['0', '0', Nat.digitChar (n / 16), Nat.digitChar (n % 16)] := by decide
  have hunit : ∀ n < 32, hexUnit? '0' '0' (Nat.digitChar (n / 16)) (Nat.digitChar (n % 16)) = some n := by decide
  intro n hn
  exact ⟨_, _, _, _, hdigits n hn, hunit n hn⟩

theorem joinPieces_unit {n : Nat} (h : n < 32) (ps : List Piece) :
    joinPieces (.unit n :: ps) = (joinPieces ps).map (Char.ofNat n :: ·) := by
  have hlow : ¬(0xDC00 ≤ n ∧ n < 0xE000) := by omega
  have hhigh : ¬(0xD800 ≤ n ∧ n < 0xDC00) := by omega
  rw [joinPieces.eq_def]
  simp only [if_neg hlow, if_neg hhigh]

/-- The piece is what reading `c` back gives, whatever comes behind it. -/
structure Piece.Stands (p : Piece) (c : Char) : Prop where
  /-- The piece is read at the front. -/
  read : ∀ rest, readPieces? (escapeChar c ++ rest) = (readPieces? rest).map fun q => (p :: q.1, q.2)
  /-- It stands for the character. -/
  join : ∀ ps, joinPieces (p :: ps) = (joinPieces ps).map (c :: ·)

theorem stands_letter {e c : Char} (hu : e ≠ 'u') (he : escaped? e = some c) (hc : escapeChar c = [backslash, e]) :
    (Piece.char c).Stands c where
  read := fun rest => by rw [hc]; exact readPieces?_letter hu he rest
  join := fun _ => rfl

theorem stands_unit {c : Char} (hn : c.toNat < 32)
    (hc : escapeChar c = backslash :: 'u' :: padZeros 4 (hexDigits c.toNat)) : (Piece.unit c.toNat).Stands c where
  read := by
    intro rest
    obtain ⟨x, y, z, w, hpad, hunit⟩ := exists_padZeros _ hn
    rw [hc, hpad]
    exact readPieces?_unit hunit rest
  join := fun ps => by rw [joinPieces_unit hn, Char.ofNat_toNat]

theorem stands_plain {c : Char} (hquote : c ≠ quoteMark) (hbackslash : c ≠ backslash) (hcontrol : ¬c.toNat < 0x20)
    (hc : escapeChar c = [c]) : (Piece.char c).Stands c where
  read := fun rest => by rw [hc]; exact readPieces?_plain hquote hbackslash hcontrol rest
  join := fun _ => rfl

/-- Every character can be read back. -/
theorem exists_stands (c : Char) : ∃ p : Piece, p.Stands c := by
  have hcode : ∀ n, c.toNat = n → c = Char.ofNat n := by
    rintro n rfl
    exact c.ofNat_toNat.symm
  have hletter : ∀ e d, c = d → e ≠ 'u' ∧ escaped? e = some d ∧ escapeChar d = [backslash, e] →
      ∃ p : Piece, p.Stands c := by
    rintro e d rfl ⟨hu, he, hd⟩
    exact ⟨_, stands_letter hu he hd⟩
  -- the cases in which characters are written
  by_cases hquote : c = quoteMark
  · exact hletter quoteMark quoteMark hquote (by decide)
  by_cases hbackslash : c = backslash
  · exact hletter backslash backslash hbackslash (by decide)
  by_cases hback : c.toNat = 8
  · exact hletter 'b' (Char.ofNat 8) (hcode 8 hback) (by decide)
  by_cases hfeed : c.toNat = 12
  · exact hletter 'f' (Char.ofNat 12) (hcode 12 hfeed) (by decide)
  by_cases hline : c = '\n'
  · exact hletter 'n' '\n' hline (by decide)
  by_cases hreturn : c = '\r'
  · exact hletter 'r' '\r' hreturn (by decide)
  by_cases htab : c = '\t'
  · exact hletter 't' '\t' htab (by decide)
  have hno : ¬(c = quoteMark ∨ c = backslash) := not_or.mpr ⟨hquote, hbackslash⟩
  by_cases hcontrol : c.toNat < 0x20
  · refine ⟨_, stands_unit hcontrol ?_⟩
    rw [escapeChar, if_neg hno, if_neg hback, if_neg hfeed, if_neg hline, if_neg hreturn, if_neg htab, if_pos hcontrol]
  · refine ⟨_, stands_plain hquote hbackslash hcontrol ?_⟩
    rw [escapeChar, if_neg hno, if_neg hback, if_neg hfeed, if_neg hline, if_neg hreturn, if_neg htab, if_neg hcontrol]

/-- What is written between quotes is read up to the closing one. -/
theorem exists_pieces (cs rest : List Char) : ∃ ps, joinPieces ps = some cs ∧
    readPieces? (cs.flatMap escapeChar ++ quoteMark :: rest) = some (ps, rest) := by
  induction cs with
  | nil =>
    refine ⟨[], rfl, ?_⟩
    rw [List.flatMap_nil, List.nil_append, readPieces?.eq_def]
    simp only [if_pos]
  | cons c cs ih =>
    obtain ⟨ps, hjoin, hread⟩ := ih
    obtain ⟨p, hp⟩ := exists_stands c
    refine ⟨p :: ps, by rw [hp.join, hjoin, Option.map_some], ?_⟩
    rw [List.flatMap_cons, List.append_assoc, hp.read, hread, Option.map_some]

/-- A string is read back. -/
theorem readString?_flatMap_escapeChar (s : String) (rest : List Char) :
    readString? (s.toList.flatMap escapeChar ++ quoteMark :: rest) = some (some s, rest) := by
  obtain ⟨ps, hjoin, hread⟩ := exists_pieces s.toList rest
  rw [readString?, hread, Option.map_some, hjoin, Option.map_some, String.ofList_toList]

/-! ### Numbers -/

/-- At least one digit, and nothing but digits. -/
def IsDigits (ds : List Char) : Prop := ds ≠ [] ∧ ∀ c ∈ ds, isAsciiDigit c = true

/-- The parts of a number as a text can show it. -/
structure Literal.WellFormed (l : Literal) : Prop where
  /-- There are digits before the point. -/
  whole : IsDigits l.whole
  /-- They start with a zero only if that is all. -/
  zero : l.whole.head? = some '0' → l.whole = ['0']
  /-- There are digits behind a point. -/
  fraction : ∀ ds ∈ l.fraction, IsDigits ds
  /-- There are digits in an exponent. -/
  exponent : ∀ e ∈ l.exponent, IsDigits e.2

/-- A number is over where this starts. -/
def Delimited (rest : List Char) : Prop :=
  ∀ c ∈ rest.head?, isAsciiDigit c = false ∧ c ≠ '.' ∧ c ≠ 'e' ∧ c ≠ 'E'

theorem delimited_nil : Delimited [] := fun c hc => by cases hc

theorem spanDigits_append {ds rest : List Char} (hds : ∀ c ∈ ds, isAsciiDigit c = true)
    (hrest : ∀ c ∈ rest.head?, isAsciiDigit c = false) : spanDigits (ds ++ rest) = (ds, rest) := by
  have hstop : rest.takeWhile isAsciiDigit = [] ∧ rest.dropWhile isAsciiDigit = rest := by
    cases rest with
    | nil => exact ⟨rfl, rfl⟩
    | cons c rest => simp [hrest c rfl]
  rw [spanDigits, List.span_eq_takeWhile_dropWhile, List.takeWhile_append_of_pos hds,
    List.dropWhile_append_of_pos hds, hstop.1, hstop.2, List.append_nil]

/-- The point and the digits behind it. -/
def fractionText : Option (List Char) → List Char
  | none => []
  | some ds => '.' :: ds

theorem Literal.text_eq (l : Literal) : l.text =
    (if l.negative then ['-'] else []) ++ (l.whole ++ (fractionText l.fraction ++ exponentText l.exponent)) := by
  rw [Literal.text, List.append_assoc, List.append_assoc]
  cases l.fraction <;> rfl

/-- An exponent without a sign starts with a digit. -/
theorem exponentSign_cons {d : Char} {ds : List Char} (hd : isAsciiDigit d = true) :
    exponentSign (d :: ds) = (false, d :: ds) := by
  have hplus : d ≠ '+' := by
    rintro rfl
    cases hd
  have hminus : d ≠ '-' := by
    rintro rfl
    cases hd
  simp [exponentSign, hplus, hminus]

section

variable {rest : List Char} (hrest : Delimited rest)

include hrest

theorem head?_exponentText (e : Option (Bool × List Char)) :
    ∀ c ∈ (exponentText e ++ rest).head?, isAsciiDigit c = false ∧ c ≠ '.' := by
  intro c hc
  cases e with
  | none =>
    obtain ⟨hdigit, hpoint, -⟩ := hrest c hc
    exact ⟨hdigit, hpoint⟩
  | some e =>
    cases hc
    decide

theorem head?_fractionText (f : Option (List Char)) (e : Option (Bool × List Char)) :
    ∀ c ∈ (fractionText f ++ (exponentText e ++ rest)).head?, isAsciiDigit c = false := by
  intro c hc
  cases f with
  | none => exact (head?_exponentText hrest e c hc).1
  | some ds =>
    cases hc
    decide

theorem readExponent?_exponentText {e : Option (Bool × List Char)} (he : ∀ x ∈ e, IsDigits x.2) :
    readExponent? (exponentText e ++ rest) = some (e, rest) := by
  rcases e with - | ⟨isNegative, ds⟩
  · cases rest with
    | nil => rfl
    | cons c rest =>
      obtain ⟨-, -, hno⟩ := hrest c rfl
      rw [exponentText, List.nil_append, readExponent?, if_neg (not_or.mpr hno)]
  · obtain ⟨hne, hds⟩ := he _ rfl
    obtain ⟨d, ds, rfl⟩ := List.exists_cons_of_ne_nil hne
    have hspan : spanDigits (d :: ds ++ rest) = (d :: ds, rest) :=
      spanDigits_append hds fun c hc => (hrest c hc).1
    have hsign : exponentSign ((if isNegative then ['-'] else []) ++ (d :: ds ++ rest)) =
        (isNegative, d :: ds ++ rest) := by
      cases isNegative with
      | true => rfl
      | false => exact exponentSign_cons (hds d List.mem_cons_self)
    have htext : exponentText (some (isNegative, d :: ds)) ++ rest =
        'e' :: ((if isNegative then ['-'] else []) ++ (d :: ds ++ rest)) := by
      rw [exponentText, List.cons_append, List.cons_append, List.append_assoc]
    rw [htext, readExponent?, if_pos (.inl rfl)]
    simp only [hsign, hspan]

theorem readFraction?_fractionText {f : Option (List Char)} (hf : ∀ ds ∈ f, IsDigits ds)
    (e : Option (Bool × List Char)) :
    readFraction? (fractionText f ++ (exponentText e ++ rest)) = some (f, exponentText e ++ rest) := by
  have hhead := head?_exponentText hrest e
  cases f with
  | none =>
    rw [fractionText, List.nil_append, readFraction?.eq_def]
    split
    · rename_i l heq
      rw [heq] at hhead
      exact absurd rfl (hhead '.' rfl).2
    · rfl
  | some ds =>
    obtain ⟨hne, hds⟩ := hf ds rfl
    obtain ⟨d, ds, rfl⟩ := List.exists_cons_of_ne_nil hne
    have hspan := spanDigits_append hds fun c hc => (hhead c hc).1
    rw [fractionText, List.cons_append, readFraction?]
    simp only [hspan]

theorem readWhole?_append {ds : List Char} (hds : IsDigits ds) (hzero : ds.head? = some '0' → ds = ['0'])
    (f : Option (List Char)) (e : Option (Bool × List Char)) :
    readWhole? (ds ++ (fractionText f ++ (exponentText e ++ rest))) =
      some (ds, fractionText f ++ (exponentText e ++ rest)) := by
  rw [readWhole?, spanDigits_append hds.2 (head?_fractionText hrest f e)]
  split
  · rename_i heq
    exact absurd (Prod.ext_iff.mp heq).1 hds.1
  · rename_i heq
    cases heq
    rfl
  · rename_i hlong heq
    cases heq
    exact absurd (List.cons.inj (hzero rfl)).2 hlong
  · rename_i heq
    cases heq
    rfl

/-- A number is read back behind its sign. -/
theorem readMagnitude?_text {l : Literal} (hl : l.WellFormed) :
    readMagnitude? l.negative (l.whole ++ (fractionText l.fraction ++ exponentText l.exponent) ++ rest) =
      some (.number l, rest) := by
  rw [List.append_assoc, List.append_assoc, readMagnitude?, readWhole?_append hrest hl.whole hl.zero]
  simp only [Option.bind_eq_bind, Option.bind_some, readFraction?_fractionText hrest hl.fraction,
    readExponent?_exponentText hrest hl.exponent]
  rfl

end

end Json

end GrammarInference
