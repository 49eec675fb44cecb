/-
GrammarInference/Error.lean

What can make a trace, a grammar or a file unusable.

Design.  Each constructor is one cause.  Causes that are found by a reader, a file system or the compiler of
regular expressions carry no text of their own.  Parse timeouts, failing programs and an early end of
refinement are ordinary outcomes and no errors.
-/
import GrammarInference.Text.Quoted

namespace GrammarInference

/-- The causes of failure. -/
inductive Error where
  /-- A file or directory cannot be read. -/
  | unreadable
  /-- A file cannot be written. -/
  | unwritable
  /-- A text is no JSON of the expected shape. -/
  | malformedJson
  /-- A trace has no position. -/
  | emptyTrace
  /-- A position below the last one has no record. -/
  | traceGap (position : Nat)
  /-- A key of a trace is no input position, or one that another key denotes too. -/
  | badPosition (key : String)
  /-- A position was recorded without a solution. -/
  | emptySolutions (position : Nat)
  /-- A position has not as many read orders as contexts. -/
  | mismatchedContexts (position orders contexts : Nat)
  /-- The first position of the input was never read. -/
  | unreadFirstPosition
  /-- The reads could not be put into order within the bound on repair rounds. -/
  | unorderableTrace (rounds : Nat)
  /-- A solution is no byte. -/
  | solutionOutOfRange (value : Nat)
  /-- Two traces start with different calls. -/
  | startMismatch (expected found : String)
  /-- The start symbol has no definition. -/
  | missingStart
  /-- Undefined nonterminals can be reached from the start symbol. -/
  | danglingNonterminals (names : List String)
  /-- A nonterminal lists an alternative twice. -/
  | duplicateAlternative (name : String)
  /-- A nonterminal to be expanded has no definition. -/
  | undefinedNonterminal (name : String)
  /-- A nonterminal derives no finite string. -/
  | unproductive (name : String)
  /-- A token trace does not name its token. -/
  | missingTokenId
  /-- A token of a trace has no definition in the token grammar. -/
  | unknownToken (name : String)
  /-- The regular expression of a pattern is not well formed or nested too deeply. -/
  | malformedRegex
  /-- A deadline expired. -/
  | interrupted
  /-- Tidying did not come to an end within its bound. -/
  | unsettledTidying
  deriving DecidableEq, Repr

namespace Error

/-- The text shown for an error; none where the cause has no text of its own. -/
def message? : Error → Option String
  | .unreadable => none
  | .unwritable => none
  | .malformedJson => none
  | .malformedRegex => none
  | .emptyTrace => some "trace is empty"
  | .traceGap p => some ("trace positions are not contiguous: position " ++ toString p ++ " is missing")
  | .badPosition k => some ("trace key " ++ quoted k ++ " is not a distinct input position")
  | .emptySolutions p => some ("position " ++ toString p ++ " has an empty solution set")
  | .mismatchedContexts p o c =>
    some ("position " ++ toString p ++ " has " ++ toString o ++ " read orders but " ++ toString c ++
      " execution contexts")
  | .unreadFirstPosition => some "first input position was never read"
  | .unorderableTrace n => some ("could not order trace within " ++ toString n ++ " repair rounds")
  | .solutionOutOfRange v => some ("solution value " ++ toString v ++ " does not fit into a byte")
  | .startMismatch e f =>
    some ("start symbol mismatch: grammar starts with " ++ e ++ ", trace starts with " ++ f)
  | .missingStart => some "grammar has no <start> nonterminal"
  | .danglingNonterminals ns => some ("undefined nonterminals reachable from <start>: " ++ quotedList ns)
  | .duplicateAlternative n => some ("nonterminal " ++ n ++ " has duplicate alternatives")
  | .undefinedNonterminal n => some ("nonterminal " ++ n ++ " is undefined")
  | .unproductive n => some ("nonterminal " ++ n ++ " derives no finite string")
  | .missingTokenId => some "token trace has no token_id"
  | .unknownToken n => some ("token " ++ n ++ " not found in the token grammar")
  | .interrupted => some "operation interrupted by deadline"
  | .unsettledTidying => some "tidying did not reach a fixed point"

end Error

end GrammarInference
