/-
GrammarInference/Mining/Extraction.lean

Grammars from execution trees.

Design.  The tree is walked level by level, and each node contributes to the nonterminal of its label: a call
one alternative, the labels of its children; a bucket one alternative for each of its values, or the empty one.
A loop `L` becomes two alternatives, its continue part followed by `L`, and its exit part; the body of its last
iteration is an alternative of the exit part and the bodies of all others are alternatives of the continue
part.  Iterations have no definition of their own.  After all traces, loops that were never continued keep only
their exit part.
-/
import GrammarInference.Error
import GrammarInference.Execution.Tree
import GrammarInference.Grammar.Basic
import GrammarInference.Text.Split

namespace GrammarInference

/-! ### Names of loops -/

/-- The continue part of a loop. -/
def continueName (n : String) : String := withoutLast n ++ "_cont>"

/-- The exit part of a loop. -/
def exitName (n : String) : String := withoutLast n ++ "_exit>"

/-- Splits decimal digits, of any script, off the end; there has to be one. -/
def splitDigits? (reversed : List Char) : Option (List Char) :=
  match reversed.span isDecimalDigit with
  | ([], _) => none
  | (_, rest) => some rest

/-- Is this the label of a loop: a name, a number behind an at sign and a number behind `_L`? -/
def isLoopLabel (n : String) : Bool :=
  match n.toList.reverse with
  | '>' :: rest =>
    match splitDigits? rest with
    | some ('L' :: '_' :: rest) =>
      match splitDigits? rest with
      | some ('@' :: rest) =>
        match rest.reverse with
        | '<' :: c :: name => !(c :: name).contains '\n'
        | _ => false
      | _ => false
    | _ => false
  | _ => false

/-! ### Values of buckets -/

/-- What the values of a bucket stand for. -/
inductive TerminalMode where
  /-- Bytes, each a terminal of one character. -/
  | bytes
  /-- Tokens, defined in the given grammar. -/
  | tokens (definitions : Grammar)

/-- A bucket with this many tokens means any token. -/
def unconstrainedTokenCount : Nat := 255

/-- The nonterminal of a token. -/
def tokenName (id : String) : String := "<TOK_" ++ id ++ ">"

/-- Is this the nonterminal of a token? -/
def isTokenName (n : String) : Bool := "<TOK_".toList.isPrefixOf n.toList

/-- A grammar with the error, if any, that stopped its construction. -/
abbrev Extracted := Grammar × Except Error Unit

/-- Adds one alternative for each byte. -/
def addBytes (n : String) (g : Grammar) : List Nat → Extracted
  | [] => (g, .ok ())
  | v :: rest =>
    if v < 256 then addBytes n (g.addAlternative n [.terminal (String.singleton (Char.ofNat v))]) rest
    else (g, .error (.solutionOutOfRange v))

/-- Adds one alternative for each token. -/
def addTokens (definitions : Grammar) (n : String) (g : Grammar) : List Nat → Extracted
  | [] => (g, .ok ())
  | v :: rest =>
    let token := tokenName (toString v)
    if definitions.contains token then
      addTokens definitions n (g.addAlternative n [.nonterminal token]) rest
    else (g, .error (.unknownToken token))

/-- Adds the alternatives of a bucket. -/
def addBucket (mode : TerminalMode) (g : Grammar) (n : String) (values : List Nat) : Extracted :=
  let g := g.ensure n
  if values.isEmpty then (Grammar.addAlternative g n [], .ok ())
  else
    match mode with
    | .bytes => addBytes n g values
    | .tokens definitions =>
      if unconstrainedTokenCount ≤ values.length then
        ((definitions.keys.filter isTokenName).foldl
          (fun g t => Grammar.addAlternative g n [.nonterminal t]) g, .ok ())
      else addTokens definitions n g values

/-! ### Nodes -/

/-- The labels of some trees, as a rule. -/
def labelRule (ts : List ExecutionTree) : Rule := ts.map fun t => .nonterminal t.label

/-- The definition of a loop. -/
def loopRules (n : String) : List Rule :=
  [[.nonterminal (continueName n), .nonterminal n], [.nonterminal (exitName n)]]

/-- Adds the definition of a loop and the bodies of its iterations. -/
def addLoop (g : Grammar) (n : String) (iterations : List ExecutionTree) : Grammar :=
  let g := (Grammar.ensure (Grammar.ensure (g.insert n (loopRules n)) (continueName n)) (exitName n))
  let add (g : Grammar) (target : String) (t : ExecutionTree) : Grammar :=
    g.addAlternative target (labelRule t.children)
  let g := iterations.dropLast.foldl (fun g t => add g (continueName n) t) g
  match iterations.getLast? with
  | some t => add g (exitName n) t
  | none => g

/-- Adds what one node contributes. -/
def addNode (mode : TerminalMode) (g : Grammar) : ExecutionTree → Extracted
  | .node n (.bucket values) _ => addBucket mode g n values
  | .node n .loop ts => (addLoop g n ts, .ok ())
  | .node n .call ts => (g.addAlternative n (labelRule ts), .ok ())
  | .node _ .iteration _ => (g, .ok ())

/-- Adds what the nodes contribute, up to the first error. -/
def addNodes (mode : TerminalMode) (g : Grammar) : List ExecutionTree → Extracted
  | [] => (g, .ok ())
  | t :: rest =>
    match addNode mode g t with
    | (g, .error e) => (g, .error e)
    | (g, .ok ()) => addNodes mode g rest

/-- The alternatives of the start symbol as an error shows them. -/
def displayAlternatives (rs : List Rule) : String :=
  " | ".intercalate (rs.map fun r => " ".intercalate (r.map Symbol.display))

/-- Adds the rules of a tree.  All trees have to start in the same call. -/
def extractInto (mode : TerminalMode) (g : Grammar) (root : ExecutionTree) : Extracted :=
  let startRules : List Rule := [[.nonterminal root.label]]
  match g.get? startName with
  | none => addNodes mode (g.insert startName startRules) root.levels
  | some existing =>
    if existing = startRules then addNodes mode g root.levels
    else (g, .error (.startMismatch (displayAlternatives existing) root.label))

/-! ### Loops that were never continued -/

/-- Lets a loop without continue alternatives be its exit part. -/
def fixLoop (g : Grammar) (n : String) : Grammar × Bool :=
  if g.get? (continueName n) = some [] then
    ((g.erase (continueName n)).insert n [[.nonterminal (exitName n)]], true)
  else (g, false)

/-- Mends all loops, and lists those that were never continued. -/
def fixLoops (g : Grammar) : Grammar × List String :=
  (g.keys.filter isLoopLabel).foldl (fun (g, collapsed) n =>
    match fixLoop g n with
    | (g, true) => (g, collapsed ++ [n])
    | (g, false) => (g, collapsed)) (g, [])

end GrammarInference
