/-
GrammarInference/Grammar/Json.lean

Grammars as JSON texts: an object from names to lists of alternatives, each alternative a list of symbols.

Design.  A symbol is written as its text and read by the naming convention, so a terminal that looks like a
nonterminal reads back as one.  A repeated name keeps its first place and its last definition.
-/
import GrammarInference.Error
import GrammarInference.Grammar.Basic
import GrammarInference.Json.Decode
import GrammarInference.Json.Printer
import GrammarInference.Json.Reader

namespace GrammarInference

namespace Grammar

/-- A symbol from its text. -/
def symbolOfJson? (v : Json) : Option Symbol := v.toText?.map Symbol.ofText

/-- A grammar from a JSON value. -/
def ofJson? (v : Json) : Option Grammar :=
  (v.toMembers? (Json.toList? (Json.toList? symbolOfJson?))).map OrderedMap.ofList

/-- Reads a grammar from a text. -/
def ofJsonText (text : String) : Except Error Grammar :=
  match (Json.read? text).bind ofJson? with
  | some g => .ok g
  | none => .error .malformedJson

/-- A rule as a JSON value. -/
def ruleToJson (r : Rule) : Json := .array (r.map fun s => .ofString s.text)

/-- A grammar as a JSON value. -/
def toJson (g : Grammar) : Json :=
  .object (g.entries.map fun e => (some e.1, .array (e.2.map ruleToJson)))

/-- Writes a grammar as a text. -/
def toJsonText (g : Grammar) : String := g.toJson.pretty

end Grammar

end GrammarInference
