/-
GrammarInference/Json/Reader.lean

Reading a JSON text.

Design.  Each function takes the characters that are left and gives what it read with the rest.  The text is
strict: no comments, no byte order mark, no control characters inside strings, no leading zeros, and nothing
but white space after the value.  Strings are read in pieces, a character or a 16-bit unit of an escape, and
the pieces are joined afterwards.  Values nest no deeper than the text is long, which bounds the recursion.
-/
import GrammarInference.Json.Value
import GrammarInference.Text.Quoted

namespace GrammarInference

namespace Json

/-! ### White space and numbers -/

/-- Is `c` white space between tokens? -/
def isBlank (c : Char) : Bool := c = ' ' || c = '\t' || c = '\n' || c = '\r'

/-- Skips white space. -/
def skipBlanks (l : List Char) : List Char := l.dropWhile isBlank

/-- The digits at the front, and the rest. -/
def spanDigits (l : List Char) : List Char × List Char := l.span isAsciiDigit

/-- The digits before the point: a zero alone, or no leading zero. -/
def readWhole? (l : List Char) : Option (List Char × List Char) :=
  match spanDigits l with
  | ([], _) => none
  | (['0'], rest) => some (['0'], rest)
  | ('0' :: _, _) => none
  | (ds, rest) => some (ds, rest)

/-- An optional point with digits behind it. -/
def readFraction? : List Char → Option (Option (List Char) × List Char)
  | '.' :: rest =>
    match spanDigits rest with
    | ([], _) => none
    | (ds, rest) => some (some ds, rest)
  | l => some (none, l)

/-- The sign of an exponent, and the rest. -/
def exponentSign : List Char → Bool × List Char
  | '+' :: rest => (false, rest)
  | '-' :: rest => (true, rest)
  | l => (false, l)

/-- An optional exponent. -/
def readExponent? : List Char → Option (Option (Bool × List Char) × List Char)
  | c :: rest =>
    if c = 'e' ∨ c = 'E' then
      let (isNegative, rest) := exponentSign rest
      match spanDigits rest with
      | ([], _) => none
      | (ds, rest) => some (some (isNegative, ds), rest)
    else some (none, c :: rest)
  | [] => some (none, [])

/-- A number behind its sign. -/
def readMagnitude? (negative : Bool) (l : List Char) : Option (Json × List Char) := do
  let (whole, l) ← readWhole? l
  let (fraction, l) ← readFraction? l
  let (exponent, l) ← readExponent? l
  return (.number ⟨negative, whole, fraction, exponent⟩, l)

/-! ### Strings -/

/-- A piece of a string. -/
inductive Piece where
  /-- A character. -/
  | char (c : Char)
  /-- A 16-bit unit, from an escape. -/
  | unit (n : Nat)

/-- The value of a hexadecimal digit. -/
def hexValue? (c : Char) : Option Nat :=
  if isAsciiDigit c then some (c.toNat - 48)
  else if 'a' ≤ c ∧ c ≤ 'f' then some (c.toNat - 87)
  else if 'A' ≤ c ∧ c ≤ 'F' then some (c.toNat - 55)
  else none

/-- The unit of four hexadecimal digits. -/
def hexUnit? (a b c d : Char) : Option Nat := do
  let a ← hexValue? a
  let b ← hexValue? b
  let c ← hexValue? c
  let d ← hexValue? d
  return ((a * 16 + b) * 16 + c) * 16 + d

/-- The character that a one-letter escape stands for. -/
def escaped? (c : Char) : Option Char :=
  if c = quoteMark then some quoteMark
  else if c = backslash then some backslash
  else if c = '/' then some '/'
  else if c = 'b' then some (Char.ofNat 8)
  else if c = 'f' then some (Char.ofNat 12)
  else if c = 'n' then some '\n'
  else if c = 'r' then some '\r'
  else if c = 't' then some '\t'
  else none

/-- What stands between the quotes, and the rest behind the closing one. -/
def readPieces? : List Char → Option (List Piece × List Char)
  | [] => none
  | c :: rest =>
    if c = quoteMark then some ([], rest)
    else if c.toNat < 0x20 then none
    else if c = backslash then
      match rest with
      | 'u' :: h₁ :: h₂ :: h₃ :: h₄ :: rest =>
        match hexUnit? h₁ h₂ h₃ h₄ with
        | none => none
        | some n => (readPieces? rest).map fun p => (.unit n :: p.1, p.2)
      | e :: rest =>
        match escaped? e with
        | none => none
        | some d => (readPieces? rest).map fun p => (.char d :: p.1, p.2)
      | [] => none
    else (readPieces? rest).map fun p => (.char c :: p.1, p.2)

/-- Joins the pieces of a string, surrogate pairs into one character; none if half of a pair stands alone. -/
def joinPieces : List Piece → Option (List Char)
  | [] => some []
  | .char c :: rest => (joinPieces rest).map (c :: ·)
  | .unit n :: rest =>
    if 0xDC00 ≤ n ∧ n < 0xE000 then none
    else if 0xD800 ≤ n ∧ n < 0xDC00 then
      match rest with
      | .unit m :: rest =>
        if 0xDC00 ≤ m ∧ m < 0xE000 then
          (joinPieces rest).map (Char.ofNat (0x10000 + (n - 0xD800) * 0x400 + (m - 0xDC00)) :: ·)
        else none
      | _ => none
    else (joinPieces rest).map (Char.ofNat n :: ·)

/-- A string behind its opening quote. -/
def readString? (l : List Char) : Option (Option String × List Char) :=
  (readPieces? l).map fun p => ((joinPieces p.1).map String.ofList, p.2)

/-! ### Values -/

/-- The rest behind a given word. -/
def readWord? (word : List Char) (v : Json) (l : List Char) : Option (Json × List Char) :=
  (word.isPrefixOf? l).map fun rest => (v, rest)

mutual

/-- A value at the front. -/
def readValue? : Nat → List Char → Option (Json × List Char)
  | 0, _ => none
  | fuel + 1, l =>
    match skipBlanks l with
    | [] => none
    | c :: rest =>
      if c = quoteMark then (readString? rest).map fun p => (.string p.1, p.2)
      else if c = '[' then
        match skipBlanks rest with
        | ']' :: rest => some (.array [], rest)
        | rest => (readItems? fuel rest).map fun p => (.array p.1, p.2)
      else if c = Char.ofNat 123 then
        match skipBlanks rest with
        | [] => none
        | d :: rest' =>
          if d = Char.ofNat 125 then some (.object [], rest')
          else (readMembers? fuel (d :: rest')).map fun p => (.object p.1, p.2)
      else if c = '-' then readMagnitude? true rest
      else if isAsciiDigit c then readMagnitude? false (c :: rest)
      else if c = 'n' then readWord? "null".toList .null (c :: rest)
      else if c = 't' then readWord? "true".toList (.boolean true) (c :: rest)
      else if c = 'f' then readWord? "false".toList (.boolean false) (c :: rest)
      else none

/-- The values of an array, from one of them on. -/
def readItems? : Nat → List Char → Option (List Json × List Char)
  | 0, _ => none
  | fuel + 1, l =>
    match readValue? fuel l with
    | none => none
    | some (v, rest) =>
      match skipBlanks rest with
      | ',' :: rest => (readItems? fuel rest).map fun p => (v :: p.1, p.2)
      | ']' :: rest => some ([v], rest)
      | _ => none

/-- The members of an object, from one of them on. -/
def readMembers? : Nat → List Char → Option (List (Option String × Json) × List Char)
  | 0, _ => none
  | fuel + 1, l =>
    match skipBlanks l with
    | [] => none
    | c :: rest =>
      if c ≠ quoteMark then none
      else
        match readString? rest with
        | none => none
        | some (key, rest) =>
          match skipBlanks rest with
          | ':' :: rest =>
            match readValue? fuel rest with
            | none => none
            | some (v, rest) =>
              match skipBlanks rest with
              | [] => none
              | d :: rest =>
                if d = ',' then (readMembers? fuel rest).map fun p => ((key, v) :: p.1, p.2)
                else if d = Char.ofNat 125 then some ([(key, v)], rest)
                else none
          | _ => none

end

/-- The value of a whole text. -/
def read? (text : String) : Option Json :=
  let l := text.toList
  match readValue? (l.length + 1) l with
  | none => none
  | some (v, rest) => if (skipBlanks rest).isEmpty then some v else none

end Json

end GrammarInference
