/-
GrammarInference/Command.lean

What can be asked for on a command line, and the answers.

Design.  A command line is a command word with options, each of which has a value.  Grammars and settings in
options are JSON texts.  The main input of a command is one text: a grammar, or traces on lines of their own.
The program under study is given by a grammar of the inputs that it accepts.  An answer is the text to be
written and, if something went wrong, the reason; nothing here reads or writes.
-/
import GrammarInference.Drawing.Dot
import GrammarInference.Grammar.Listing
import GrammarInference.Mining.Tokens
import GrammarInference.Refinement.Refiner

namespace GrammarInference

/-! ### Settings -/

/-- The settings of all commands. -/
structure Settings where
  /-- The settings of mining. -/
  miner : MinerConfig := {}
  /-- The settings of refinement. -/
  refinement : RefinementConfig := {}

/-- The settings of all commands from a JSON value. -/
def Settings.ofJson? (v : Json) : Option Settings := do
  let [miner, refinement] ← v.toRecord? ["miner", "refinement"] | none
  return {
    miner := ← Json.orDefault MinerConfig.ofJson? {} miner
    refinement := ← Json.orDefault RefinementConfig.ofJson? {} refinement }

/-- The settings where no grammar is kept in a file: a command writes nothing but its answer. -/
def Settings.withoutFiles (s : Settings) : Settings :=
  { miner := { s.miner with snapshotDir := none }, refinement := { s.refinement with snapshotDir := none } }

/-! ### Command lines -/

/-- What is asked for. -/
inductive Command where
  /-- A grammar from traces; values of buckets stand for tokens if a grammar of tokens is given. -/
  | mine (tokens? : Option Grammar)
  /-- A grammar of tokens from the traces of a lexer. -/
  | mineTokens
  /-- A grammar narrowed to what a program accepts. -/
  | refine (accepted : Grammar)
  /-- The share of derived inputs that a program accepts. -/
  | precision (accepted : Grammar)
  /-- Random inputs. -/
  | generate (count depth seed : Nat)
  /-- A derivation tree of an input, as an outline. -/
  | parse (input : String)
  /-- A derivation tree of an input, as a drawing. -/
  | draw (input : String)
  /-- A grammar as a listing, and whether it is well formed. -/
  | check

/-- Why there is no answer, or not a whole one. -/
inductive Failure where
  /-- The command line is not understood. -/
  | usage
  /-- Something cannot be used. -/
  | unusable (e : Error)
  /-- The input is not derived. -/
  | notDerived
  /-- The time for a parse was spent. -/
  | timeout
  /-- No derived input was classified. -/
  | unclassified
  deriving DecidableEq, Repr

namespace Failure

/-- How command lines are written. -/
def usageText : String :=
  "usage: mine | mine-tokens | refine | precision | generate | parse INPUT | draw INPUT | check\n" ++
    "options: --config JSON --tokens GRAMMAR --accepts GRAMMAR --count N --depth N --seed N"

/-- The text for an error, also where the cause has no text of its own. -/
def errorText (e : Error) : String :=
  match e with
  | .unreadable => "cannot be read"
  | .unwritable => "cannot be written"
  | .malformedJson => "malformed JSON"
  | .malformedRegex => "invalid pattern"
  | e => e.message?.getD ""

/-- The text for a failure. -/
def text : Failure → String
  | usage => usageText
  | unusable e => errorText e
  | notDerived => "input is not in the language of the grammar"
  | timeout => "parsing timed out"
  | unclassified => "no generated input could be classified"

end Failure

namespace Command

/-- The names of options. -/
def optionNames : List String := ["--config", "--tokens", "--accepts", "--count", "--depth", "--seed"]

/-- The words of a command line, and its options with their values. -/
def splitOptions : List String → Option (List String × OrderedMap String String)
  | [] => some ([], ∅)
  | [word] => if word ∈ optionNames then none else some ([word], ∅)
  | word :: value :: rest =>
    if word ∈ optionNames then (splitOptions rest).map fun (words, options) => (words, options.insert word value)
    else (splitOptions (value :: rest)).map fun (words, options) => (word :: words, options)

/-- The grammar in an option, if there is one. -/
def grammarOption (options : OrderedMap String String) (name : String) : Except Failure (Option Grammar) :=
  match options.get? name with
  | none => .ok none
  | some text =>
    match Grammar.ofJsonText text with
    | .ok g => .ok (some g)
    | .error e => .error (.unusable e)

/-- The number in an option, or the given one. -/
def numberOption (options : OrderedMap String String) (name : String) (fallback : Nat) : Except Failure Nat :=
  match options.get? name with
  | none => .ok fallback
  | some text =>
    match parseWord? text.toList with
    | some n => .ok n.toNat
    | none => .error .usage

/-- The settings in an option, or the defaults. -/
def settingsOption (options : OrderedMap String String) : Except Failure Settings :=
  match options.get? "--config" with
  | none => .ok {}
  | some text =>
    match readConfig Settings.ofJson? text with
    | .ok s => .ok s.withoutFiles
    | .error e => .error (.unusable e)

/-- The grammar of the inputs that the program under study accepts. -/
def acceptedOption (options : OrderedMap String String) : Except Failure Grammar := do
  match ← grammarOption options "--accepts" with
  | some g => return g
  | none => throw .usage

/-- The command that words and options stand for. -/
def ofWords (options : OrderedMap String String) : List String → Except Failure Command
  | ["mine"] => do return .mine (← grammarOption options "--tokens")
  | ["mine-tokens"] => .ok .mineTokens
  | ["refine"] => do return .refine (← acceptedOption options)
  | ["precision"] => do return .precision (← acceptedOption options)
  | ["generate"] => do
    return .generate (← numberOption options "--count" 10) (← numberOption options "--depth" 10)
      (← numberOption options "--seed" 0)
  | ["parse", input] => .ok (.parse input)
  | ["draw", input] => .ok (.draw input)
  | ["check"] => .ok .check
  | _ => .error .usage

/-- The settings and the command of a command line. -/
def ofArguments (arguments : List String) : Except Failure (Settings × Command) :=
  match splitOptions arguments with
  | none => .error .usage
  | some (words, options) => do return (← settingsOption options, ← ofWords options words)

/-! ### Answers -/

/-- What is written, and what went wrong. -/
structure Answer where
  /-- The text. -/
  output : String
  /-- The failure, if there is one. -/
  failure? : Option Failure

namespace Answer

/-- An answer without failure. -/
def text (output : String) : Answer := ⟨output, none⟩

/-- A failure without a text. -/
def failed (f : Failure) : Answer := ⟨"", some f⟩

/-- The answer for a result. -/
def ofResult {α : Type} (r : Except Error α) (answer : α → Answer) : Answer :=
  match r with
  | .ok a => answer a
  | .error e => failed (.unusable e)

/-- A grammar as a JSON text. -/
def grammar (g : Grammar) : Answer := text (g.toJsonText ++ "\n")

end Answer

/-- The lines of a text that are not blank, as files without names. -/
def traceFiles (input : String) : List File :=
  ((input.splitOn "\n").filter fun l => !(trimSpace l.toList).isEmpty).map fun l => ("", l)

/-- The oracle of a program that accepts what a grammar derives. -/
def oracleOf (accepted : Grammar) : Oracle Unit :=
  let t := Earley.Table.ofGrammar accepted
  .ofFunction fun s => if Earley.recognize t s .never = .accepted then .accept else .reject

/-- A grammar from traces. -/
def answerMine (s : Settings) (tokens? : Option Grammar) (input : String) : Answer :=
  match (Miner.new s.miner tokens?).addFiles (traceFiles input) with
  | (.error e, _) => .failed (.unusable e)
  | (.ok (), m) => .ofResult (m.finish []).1 .grammar

/-- A grammar of tokens from the traces of a lexer. -/
def answerMineTokens (s : Settings) (input : String) : Answer :=
  .ofResult (GrammarInference.mineTokens [some (traceFiles input)] s.miner) .grammar

/-- A grammar narrowed to what a program accepts. -/
def answerRefine (s : Settings) (accepted g : Grammar) : Answer :=
  let r := Refiner.new (oracleOf accepted).cached ((), ∅) s.refinement false []
  .ofResult (r.refine g).1 fun report => .grammar report.grammar

/-- The share of derived inputs that a program accepts, with four places. -/
def answerPrecision (s : Settings) (accepted g : Grammar) : Answer :=
  .ofResult (GrammarInference.precision g (oracleOf accepted) s.refinement ()).1 fun p? =>
    match p? with
    | some p => .text (fixedText p 4 ++ "\n")
    | none => .failed .unclassified

/-- Random inputs, each on a line of its own, in quotes. -/
def answerGenerate (s : Settings) (count depth seed : Nat) (g : Grammar) : Answer :=
  .ofResult (Grammar.validate g) fun _ =>
    .ofResult (sampleStrings g count depth seed s.refinement.generationTimeout) fun inputs =>
      .text (String.join (inputs.map fun i => quoted i ++ "\n"))

/-- A derivation tree of an input, shown in one of several ways. -/
def answerParse (s : Settings) (input : String) (g : Grammar) (render : Arena → NodeId → String) : Answer :=
  match Earley.parse (.ofGrammar g) ∅ input (.after s.refinement.parseTimeout) with
  | (.tree root, arena) => .text (render arena root)
  | (.noParse, _) => .failed .notDerived
  | (.timeout, _) => .failed .timeout

/-- A grammar as a listing, and whether it is well formed. -/
def answerCheck (g : Grammar) : Answer :=
  match Grammar.validate g with
  | .ok () => .text (Grammar.listing g ++ "ok: " ++ toString g.size ++ " nonterminals\n")
  | .error e => ⟨Grammar.listing g, some (.unusable e)⟩

/-- The answer to a command with its main input. -/
def answer (s : Settings) (c : Command) (input : String) : Answer :=
  let withGrammar (f : Grammar → Answer) : Answer := .ofResult (Grammar.ofJsonText input) f
  match c with
  | .mine tokens? => answerMine s tokens? input
  | .mineTokens => answerMineTokens s input
  | .refine accepted => withGrammar (answerRefine s accepted)
  | .precision accepted => withGrammar (answerPrecision s accepted)
  | .generate count depth seed => withGrammar (answerGenerate s count depth seed)
  | .parse text => withGrammar fun g => answerParse s text g fun a root => (a.treeAt root).outline
  | .draw text => withGrammar fun g => answerParse s text g (Dot.ofParseTree {})
  | .check => withGrammar answerCheck

end Command

end GrammarInference
