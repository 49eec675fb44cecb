/-
GrammarInference/Pattern/Basic.lean

Lexical patterns: a regular expression together with a grammar fragment for the same words.

Design.  A run pattern repeats one character class; its fragment has a nonterminal for the single characters,
and it can be narrowed to a smaller alphabet.  Any pattern can be put behind optional white space.  Both
operations change the expression and the fragment together and give every new nonterminal a number, so that
the results for different tokens can stand in one grammar.
-/
import GrammarInference.Error
import GrammarInference.Grammar.Basic
import GrammarInference.Pattern.Marks

namespace GrammarInference

/-- A regular expression and a grammar fragment. -/
structure Pattern where
  /-- The expression, which has to match a whole word. -/
  regex : Regex
  /-- The root of the fragment. -/
  stringName : String
  /-- The nonterminal for single characters, in a run pattern. -/
  charName? : Option String
  /-- The fragment. -/
  grammar : Grammar
  /-- Patterns of white space are never put behind white space. -/
  whitespace : Bool

/-! ### Pieces of fragments -/

/-- A grammar written as texts, each symbol read by the naming convention. -/
def Grammar.ofTexts (l : List (String × List (List String))) : Grammar :=
  .ofList (l.map fun e => (e.1, e.2.map fun r => r.map Symbol.ofText))

/-- One alternative for each character. -/
def charRules (chars : List Char) : List Rule := chars.map fun c => [.terminal (String.singleton c)]

/-- The alternatives of a run: one more character, or the last one. -/
def runRules (stringName charName : String) : List Rule :=
  [[.nonterminal charName, .nonterminal stringName], [.nonterminal charName]]

/-- The class that holds exactly the given characters. -/
def charClass (chars : List Char) : Regex := .oneOf (chars.map fun c => .one c .code)

/-- The name of the run of white space number `id`. -/
def spaceRunName (id : Nat) : String := "<ws" ++ toString id ++ "_str>"

/-- The name of the single white-space character number `id`. -/
def spaceCharName (id : Nat) : String := "<ws" ++ toString id ++ "_char>"

/-- The fragment for runs of the given white space. -/
def spaceGrammar (chars : List Char) (id : Nat) : Grammar :=
  .ofList
    [(spaceRunName id, runRules (spaceRunName id) (spaceCharName id)), (spaceCharName id, charRules chars)]

namespace Pattern

/-- Is this one character class, repeated? -/
def isRun (p : Pattern) : Bool := p.charName?.isSome

/-- The characters of the single-character nonterminal. -/
def alphabet (p : Pattern) : SortedSet Char :=
  match p.charName? with
  | some n => .ofList ((p.grammar.alternatives n).flatMap fun r => r.flatMap fun s => s.text.toList)
  | none => ∅

/-- The test whether a word matches, if the expression can be used. -/
def matcher (p : Pattern) : Except Error (String → Bool) :=
  if p.regex.isUsable then .ok fun s => p.regex.accepts s.toList else .error .malformedRegex

/-! ### Narrowing -/

/-- The name of a nonterminal in the narrowed fragment number `id`. -/
def narrowedName (id : Nat) (n : String) : String := withoutLast n ++ "_" ++ toString id ++ ">"

/-- The run pattern restricted to the characters of `chars`, all its nonterminals numbered. -/
def narrowed (p : Pattern) (chars : SortedSet Char) (id : Nat) : Pattern :=
  let restricted :=
    match p.charName? with
    | some n => p.grammar.insert n (charRules chars.toList)
    | none => p.grammar
  { regex := .plus (charClass chars.toList)
    stringName := narrowedName id p.stringName
    charName? := p.charName?.map (narrowedName id)
    grammar := restricted.keys.foldl (fun g n => Grammar.rename g n (narrowedName id n)) restricted
    whitespace := p.whitespace }

/-! ### Leading white space -/

/-- The name of a root behind white space number `id`. -/
def spacedName (id : Nat) (n : String) : String := "<pre_ws" ++ toString id ++ "_" ++ bareName n ++ ">"

/-- The alternatives of a root behind optional white space. -/
def spacedRules (id : Nat) (n : String) : List Rule :=
  [[.nonterminal n], [.nonterminal (spaceRunName id), .nonterminal n]]

/-- The pattern behind optional white space drawn from `chars`. -/
def withLeadingSpace (p : Pattern) (chars : SortedSet Char) (id : Nat) : Pattern :=
  let merged := p.grammar.overlay (spaceGrammar chars.toList id)
  let wrap (g : Grammar) (n : String) : Grammar := g.insert (spacedName id n) (spacedRules id n)
  let grammar := wrap merged p.stringName
  { regex := .seq (.star (charClass chars.toList)) (.group p.regex false)
    stringName := spacedName id p.stringName
    charName? := p.charName?.map (spacedName id)
    grammar := match p.charName? with
      | some n => wrap grammar n
      | none => grammar
    whitespace := p.whitespace }

end Pattern

end GrammarInference
