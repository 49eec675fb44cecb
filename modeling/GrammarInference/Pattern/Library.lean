/-
GrammarInference/Pattern/Library.lean

The patterns that are tried on the samples of a token, most specific first.

Design.  Character classes are spelled out for ASCII, so that an expression matches what its fragment derives;
the last pattern takes any word.  The roots of the library have reserved names: a nonterminal is a pattern root
if its name is one of them, possibly numbered by narrowing or wrapped for white space.
-/
import GrammarInference.Pattern.Basic
import GrammarInference.Text.Split

namespace GrammarInference

/-! ### Characters -/

/-- The characters from `lo` to `hi`. -/
def charRange (lo hi : Nat) : List Char := (List.range (hi + 1 - lo)).map fun i => Char.ofNat (lo + i)

/-- The digits. -/
def digitChars : List Char := charRange 48 57

/-- The lowercase letters. -/
def lowerChars : List Char := charRange 97 122

/-- The uppercase letters. -/
def upperChars : List Char := charRange 65 90

/-- White space: space, tab, newline, vertical tab, form feed, carriage return. -/
def spaceChars : List Char := [' ', '\t', '\n', Char.ofNat 11, Char.ofNat 12, '\r']

/-- Is `c` white space or a control character from 1 to 31, or 127? -/
def isSpaceOrControl (c : Char) : Bool :=
  spaceChars.contains c || (decide (1 ≤ c.toNat) && decide (c.toNat ≤ 31)) || decide (c.toNat = 127)

/-- The apostrophe. -/
def apostrophe : Char := Char.ofNat 39

/-! ### Expressions -/

namespace Regex

/-- A range of characters that are spelled as themselves. -/
def plainRange (lo hi : Char) : ClassItem := ⟨lo, hi, .plain⟩

/-- Single characters that are spelled as themselves. -/
def plainClass (chars : List Char) : Regex := .oneOf (chars.map fun c => .one c .plain)

/-- A character that stands for itself. -/
def lit (c : Char) : Regex := .char c false

/-- One digit. -/
def digit : Regex := .oneOf [plainRange '0' '9']

/-- At least one digit. -/
def digits : Regex := .plus digit

/-- One hexadecimal digit. -/
def hexDigit : Regex := .oneOf [plainRange '0' '9', plainRange 'a' 'f', plainRange 'A' 'F']

/-- A letter in either case. -/
def eitherCase (lower upper : Char) : Regex := plainClass [lower, upper]

/-- An optional sign. -/
def sign : Regex := .opt (plainClass ['-', '+'])

/-- The point between the digits of a number. -/
def point : Regex := .char '.' true

/-- An optional exponent. -/
def exponent : Regex := .opt (.group (.seq (eitherCase 'e' 'E') (.seq sign digits)) true)

/-- Digits with an optional part behind the point, or only that part. -/
def mantissa : Regex :=
  .group (.alt (.seq digits (.opt (.group (.seq point (.star digit)) true))) (.seq point digits)) true

/-- A sequence of expressions. -/
def sequence : List Regex → Regex
  | [] => .nothing
  | [a] => a
  | a :: rest => .seq a (sequence rest)

/-- The expression of numbers with a point. -/
def pointedNumber : Regex :=
  .seq sign (.group (.seq digits (.seq (.group (.seq point (.star digit)) true) exponent)) true)

/-- The expression of numbers. -/
def number : Regex := .seq sign (.group (.seq mantissa exponent) true)

/-- The expression of numbers, infinities and the value that is no number, with one more character allowed. -/
def extendedNumber : Regex :=
  let nan := sequence [eitherCase 'n' 'N', eitherCase 'a' 'A', eitherCase 'n' 'N']
  let inf := [eitherCase 'i' 'I', eitherCase 'n' 'N', eitherCase 'f' 'F']
  let inity := [eitherCase 'i' 'I', eitherCase 'n' 'N', eitherCase 'i' 'I', eitherCase 't' 'T',
    eitherCase 'y' 'Y']
  sequence
    [sign,
     .group (.alt (.group (.seq mantissa exponent) true)
       (.alt nan (.alt (sequence inf) (sequence (inf ++ inity))))) true,
     .opt .any]

/-- The items of the white-space class. -/
def spaceItems : List ClassItem :=
  [.one ' ' .plain, .one '\t' .letter, .one '\n' .letter, .one (Char.ofNat 11) .twoHex,
   .one (Char.ofNat 12) .twoHex, .one '\r' .letter]

/-- The items of the class of white space and control characters. -/
def controlItems : List ClassItem :=
  spaceItems ++ [⟨Char.ofNat 0, Char.ofNat 31, .twoHex⟩, .one (Char.ofNat 127) .twoHex]

end Regex

/-! ### Fragments -/

/-- The fragment of digits. -/
def digitsGrammar : Grammar :=
  (Grammar.ofTexts [("<digits>", [["<digit>", "<digits>"], ["<digit>"]])]).insert "<digit>"
    (charRules digitChars)

/-- The fragment of numbers. -/
def numberGrammar : Grammar :=
  (Grammar.ofTexts
    [("<float_simple_1>", [["<opt_sign>", "<number>"]]),
     ("<float_simple_2>", [["<opt_sign>", "<number_simple>"]]),
     ("<float>", [["<opt_sign>", "<number>"], ["<opt_sign>", "<nan>"], ["<opt_sign>", "<inf>"]]),
     ("<opt_sign>", [[""], ["+"], ["-"]]),
     ("<number_simple>", [["<main_simple>", "<opt_exponent>"]]),
     ("<main_simple>", [["<digits>"], ["<digits>", ".", "<digits>"]]),
     ("<number>", [["<main>", "<opt_exponent>"]]),
     ("<main>", [["<digits>"], [".", "<digits>"], ["<digits>", ".", "<digits>"]]),
     ("<opt_exponent>", [[""], ["<eE>", "<opt_sign>", "<digits>"]]),
     ("<eE>", [["e"], ["E"]]),
     ("<nan>", [["<nN>", "<aA>", "<nN>"]]),
     ("<inf>",
      [["<iI>", "<nN>", "<fF>"],
       ["<iI>", "<nN>", "<fF>", "<iI>", "<nN>", "<iI>", "<tT>", "<yY>"]]),
     ("<nN>", [["n"], ["N"]]),
     ("<aA>", [["a"], ["A"]]),
     ("<iI>", [["i"], ["I"]]),
     ("<fF>", [["f"], ["F"]]),
     ("<tT>", [["t"], ["T"]]),
     ("<yY>", [["y"], ["Y"]])]).overlay digitsGrammar

/-- The fragment of hexadecimal numbers. -/
def hexGrammar : Grammar :=
  (Grammar.ofTexts
    [("<hex_0x>", [["0x", "<hexdigits>"]]),
     ("<hexdigits>", [["<hexdigit>", "<hexdigits>"], ["<hexdigit>"]])]).insert "<hexdigit>"
    (charRules (digitChars ++ charRange 97 102 ++ charRange 65 70))

/-- The characters from 1 to 255 apart from one. -/
def bytesExcept (c : Char) : List Char := (charRange 1 255).filter fun d => decide (d ≠ c)

/-- The fragment of quoted strings. -/
def quotedGrammar : Grammar :=
  let single := String.singleton apostrophe
  let double := String.singleton quoteMark
  ((((Grammar.ofTexts
    [("<quoted_string>", [["<single_quoted_string>"], ["<double_quoted_string>"]]),
     ("<single_quoted_string>", [[single, "<opt_quote_str_single>", single]]),
     ("<opt_quote_str_single>", [[""], ["<quote_str_single>"]]),
     ("<double_quoted_string>", [[double, "<opt_quote_str_double>", double]]),
     ("<opt_quote_str_double>", [[""], ["<quote_str_double>"]])]).insert
    "<quote_str_single>" (runRules "<quote_str_single>" "<quote_char_single>")).insert
    "<quote_char_single>" (charRules (bytesExcept apostrophe))).insert
    "<quote_str_double>" (runRules "<quote_str_double>" "<quote_char_double>")).insert
    "<quote_char_double>" (charRules (bytesExcept quoteMark))

/-! ### The library -/

/-- A run pattern over `chars` with roots of the given names. -/
def Pattern.run (regex : Regex) (stringName charName : String) (chars : List Char) (whitespace : Bool) :
    Pattern :=
  { regex := .plus regex
    stringName := stringName
    charName? := some charName
    grammar := .ofList [(stringName, runRules stringName charName), (charName, charRules chars)]
    whitespace := whitespace }

/-- A pattern without a single-character nonterminal. -/
def Pattern.fragment (regex : Regex) (stringName : String) (grammar : Grammar) : Pattern :=
  { regex := regex, stringName := stringName, charName? := none, grammar := grammar, whitespace := false }

/-- All patterns, most specific first. -/
def patternLibrary : List Pattern :=
  [{ Pattern.run .digit "<digits>" "<digit>" digitChars false with grammar := digitsGrammar },
   .run (.oneOf [Regex.plainRange 'a' 'z']) "<lower_ascii_str>" "<lower_ascii_char>" lowerChars false,
   .run (.oneOf [Regex.plainRange 'A' 'Z']) "<upper_ascii_str>" "<upper_ascii_char>" upperChars false,
   .run (.oneOf [Regex.plainRange 'a' 'z', Regex.plainRange 'A' 'Z']) "<ascii_str>" "<ascii_char>"
     (lowerChars ++ upperChars) false,
   .run (.oneOf Regex.spaceItems) "<ws_str>" "<ws_char>" spaceChars true,
   .run (.oneOf Regex.controlItems) "<ws_control_str>" "<ws_control_char>"
     (charRange 1 32 ++ [Char.ofNat 127]) true,
   .fragment .pointedNumber "<float_simple_2>" numberGrammar,
   .fragment .number "<float_simple_1>" numberGrammar,
   .fragment .extendedNumber "<float>" numberGrammar,
   .fragment (Regex.sequence [.lit '0', .lit 'x', .plus .hexDigit]) "<hex_0x>" hexGrammar,
   { Pattern.run .hexDigit "<hexdigits>" "<hexdigit>" [] false with grammar := hexGrammar },
   .fragment (Regex.sequence [.lit apostrophe, .star .any, .lit apostrophe])
     "<single_quoted_string>" quotedGrammar,
   .fragment (Regex.sequence [.lit quoteMark, .star .any, .lit quoteMark])
     "<double_quoted_string>" quotedGrammar,
   .fragment (Regex.sequence
     [Regex.plainClass [apostrophe, quoteMark], .star .any, Regex.plainClass [apostrophe, quoteMark]])
     "<quoted_string>" quotedGrammar,
   .run (.oneOf [Regex.plainRange ' ' '~']) "<printable_str>" "<printable_char>" (charRange 32 126) false,
   .run .any "<any_str>" "<any_char>" (charRange 1 255) false]

/-! ### Reserved names -/

/-- The bare names of the roots, of strings and of single characters. -/
def rootNames : List (List Char) :=
  patternLibrary.flatMap fun p =>
    (p.stringName :: p.charName?.toList).map fun n => (bareName n).toList

/-- Are all these characters digits? -/
def allDigits (l : List Char) : Bool := l.all isAsciiDigit

/-- Removes the mark of a root behind white space. -/
def withoutSpacedMark (name : List Char) : List Char :=
  match "pre_ws".toList.isPrefixOf? name with
  | none => name
  | some rest =>
    match splitFirst? '_' rest with
    | some (id, inner) => if allDigits id then inner else name
    | none => name

/-- Is this the name of a numbered run of white space or of its characters? -/
def isSpaceRunName (name : List Char) : Bool :=
  match "ws".toList.isPrefixOf? name with
  | none => false
  | some rest =>
    match splitFirst? '_' rest with
    | some (id, kind) =>
      !id.isEmpty && allDigits id && (decide (kind = "str".toList) || decide (kind = "char".toList))
    | none => false

/-- Does `n` name the root of a lexical pattern, possibly narrowed or behind white space? -/
def isPatternRoot (n : String) : Bool :=
  let name := withoutSpacedMark (bareName n).toList
  isSpaceRunName name || rootNames.contains name ||
    match splitLast? '_' name with
    | some (base, suffix) => !suffix.isEmpty && allDigits suffix && rootNames.contains base
    | none => false

end GrammarInference
