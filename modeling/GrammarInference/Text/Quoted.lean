/-
GrammarInference/Text/Quoted.lean

Strings between double quotes, with everything that would not show escaped.

Design.  The double quote, the backslash and the four characters with an escape of their own (NUL, tab,
carriage return and newline) are written with a backslash; any other character that does not show, or that
would attach to the quote before it, is written by its code point.
-/
import GrammarInference.Text.CodePoint

namespace GrammarInference

/-! ### Numbers in text -/

/-- The digit characters of `n` in lowercase hexadecimal, without leading zeros. -/
def hexDigits (n : Nat) : List Char := Nat.toDigits 16 n

/-- The digit characters of `n` in uppercase hexadecimal, without leading zeros. -/
def upperHexDigits (n : Nat) : List Char := (Nat.toDigits 16 n).map Char.toUpper

/-- Puts zeros in front until the text has at least `width` characters. -/
def padZeros (width : Nat) (digits : List Char) : List Char :=
  List.replicate (width - digits.length) '0' ++ digits

/-! ### Quoting -/

/-- The double quote. -/
def quoteMark : Char := Char.ofNat 34

/-- The backslash. -/
def backslash : Char := Char.ofNat 92

/-- How one character is written between the quotes. -/
def escapeQuoted (c : Char) : List Char :=
  if c = quoteMark ∨ c = backslash then [backslash, c]
  else if c.toNat = 0 then [backslash, '0']
  else if c = '\t' then [backslash, 't']
  else if c = '\r' then [backslash, 'r']
  else if c = '\n' then [backslash, 'n']
  else if isGraphemeExtend c || !isPrintable c then
    backslash :: 'u' :: Char.ofNat 123 :: hexDigits c.toNat ++ [Char.ofNat 125]
  else [c]

/-- The string between double quotes. -/
def quoted (s : String) : String :=
  String.ofList (quoteMark :: s.toList.flatMap escapeQuoted ++ [quoteMark])

/-- A list of strings between square brackets, each one quoted. -/
def quotedList (l : List String) : String :=
  "[" ++ ", ".intercalate (l.map quoted) ++ "]"

end GrammarInference
