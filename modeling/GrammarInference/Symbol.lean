/-
GrammarInference/Symbol.lean

Symbols of a grammar and the naming convention for nonterminals.

Design.  On disk a symbol is a plain string, and a string of the form `<name>`, with at least one character
between the brackets, names a nonterminal; every other string is a literal terminal.  In memory the two kinds
are told apart by a constructor, so a terminal may look like a nonterminal.  The empty terminal stands for the
empty word.
-/
import GrammarInference.Text.Quoted

namespace GrammarInference

/-! ### Names -/

/-- The characters strictly between the brackets of `<name>`, if the text has that form. -/
def bracketed? : List Char → Option (List Char)
  | '<' :: c :: rest => if (c :: rest).getLast? = some '>' ∧ rest ≠ [] then some (c :: rest.dropLast) else none
  | _ => none

/-- Does the text follow the convention for names of nonterminals? -/
def isNonterminalName (s : String) : Bool := (bracketed? s.toList).isSome

/-- Strips the brackets of a nonterminal name; any other text is left as it is. -/
def bareName (s : String) : String :=
  match bracketed? s.toList with
  | some inner => String.ofList inner
  | none => s

/-- The name without its last character, to which an ending is added. -/
def withoutLast (s : String) : String := String.ofList s.toList.dropLast

/-! ### Symbols -/

/-- A symbol on the right-hand side of a rule. -/
inductive Symbol where
  /-- A literal text. -/
  | terminal (text : String)
  /-- A reference to the definition of a nonterminal. -/
  | nonterminal (name : String)
  deriving DecidableEq, Repr

instance : Inhabited Symbol := ⟨.terminal ""⟩

/-- One alternative of a nonterminal. -/
abbrev Rule := List Symbol

namespace Symbol

/-- Reads a symbol from its text on disk, by the naming convention. -/
def ofText (s : String) : Symbol := if isNonterminalName s then .nonterminal s else .terminal s

/-- The text of a symbol on disk. -/
def text : Symbol → String
  | .terminal s => s
  | .nonterminal s => s

/-- The empty terminal. -/
def epsilon : Symbol := .terminal ""

/-- Is this the empty terminal? -/
def isEpsilon (s : Symbol) : Bool := decide (s = epsilon)

/-- Is this a terminal? -/
def isTerminal : Symbol → Bool
  | .terminal _ => true
  | .nonterminal _ => false

/-- The name, if this is a nonterminal. -/
def name? : Symbol → Option String
  | .terminal _ => none
  | .nonterminal n => some n

/-- How a symbol is shown: names as they are, terminals in quotes. -/
def display : Symbol → String
  | .terminal s => quoted s
  | .nonterminal n => n

/-- Replaces a reference to `old` by a reference to `new`. -/
def replaceName (old new : String) : Symbol → Symbol
  | .terminal s => .terminal s
  | .nonterminal n => if n = old then .nonterminal new else .nonterminal n

@[simp] theorem text_ofText (s : String) : (ofText s).text = s := by
  unfold ofText; split <;> rfl

end Symbol

/-- The nonterminals that a rule mentions, from left to right. -/
def Rule.names (r : Rule) : List String := r.filterMap Symbol.name?

end GrammarInference
