/-
GrammarInference/Json/Printer.lean

Writing a JSON value over several lines.

Design.  Members and items stand on lines of their own, two blanks deeper than what holds them; empty arrays
and objects are written without a line break.  In strings the quote, the backslash and control characters are
escaped, by a letter where there is one, and every other character is written as it is.
-/
import GrammarInference.Json.Value
import GrammarInference.Text.Quoted

namespace GrammarInference

namespace Json

/-- How a character is written in a string. -/
def escapeChar (c : Char) : List Char :=
  if c = quoteMark ∨ c = backslash then [backslash, c]
  else if c.toNat = 8 then [backslash, 'b']
  else if c.toNat = 12 then [backslash, 'f']
  else if c = '\n' then [backslash, 'n']
  else if c = '\r' then [backslash, 'r']
  else if c = '\t' then [backslash, 't']
  else if c.toNat < 0x20 then backslash :: 'u' :: padZeros 4 (hexDigits c.toNat)
  else [c]

/-- A text between quotes. -/
def stringText (s : String) : List Char :=
  quoteMark :: s.toList.flatMap escapeChar ++ [quoteMark]

/-- The exponent of a number as it is written. -/
def exponentText : Option (Bool × List Char) → List Char
  | none => []
  | some (isNegative, ds) => 'e' :: (if isNegative then ['-'] else []) ++ ds

/-- A number as it is written. -/
def Literal.text (l : Literal) : List Char :=
  (if l.negative then ['-'] else []) ++ l.whole ++
    (match l.fraction with
      | none => []
      | some ds => '.' :: ds) ++ exponentText l.exponent

/-- A new line at the given depth. -/
def newLine (depth : Nat) : List Char := '\n' :: List.replicate (2 * depth) ' '

mutual

/-- The text of a value whose lines are at the given depth. -/
def prettyAt : Nat → Json → List Char
  | _, .null => "null".toList
  | _, .boolean b => (if b then "true" else "false").toList
  | _, .number l => l.text
  | _, .string s => stringText (s.getD "")
  | _, .array [] => ['[', ']']
  | depth, .array (v :: rest) =>
    '[' :: newLine (depth + 1) ++ prettyAt (depth + 1) v ++ prettyItems (depth + 1) rest ++
      newLine depth ++ [']']
  | _, .object [] => [Char.ofNat 123, Char.ofNat 125]
  | depth, .object ((k, v) :: rest) =>
    Char.ofNat 123 :: newLine (depth + 1) ++ stringText (k.getD "") ++ [':', ' '] ++
      prettyAt (depth + 1) v ++ prettyMembers (depth + 1) rest ++ newLine depth ++ [Char.ofNat 125]

/-- The items of an array behind the first one. -/
def prettyItems : Nat → List Json → List Char
  | _, [] => []
  | depth, v :: rest => ',' :: newLine depth ++ prettyAt depth v ++ prettyItems depth rest

/-- The members of an object behind the first one. -/
def prettyMembers : Nat → List (Option String × Json) → List Char
  | _, [] => []
  | depth, (k, v) :: rest =>
    ',' :: newLine depth ++ stringText (k.getD "") ++ [':', ' '] ++ prettyAt depth v ++
      prettyMembers depth rest

end

/-- The text of a value over several lines. -/
def pretty (v : Json) : String := String.ofList (prettyAt 0 v)

end Json

end GrammarInference
