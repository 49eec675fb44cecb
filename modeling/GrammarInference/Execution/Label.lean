/-
GrammarInference/Execution/Label.lean

Labels of call stacks and of sets of solutions, shared by all traces of a run.

Design.  Calls, loops and sets of solutions are numbered in the order in which they are first seen: calls and
loops for each function from zero on, sets of solutions from one on.  So the state is what was seen, in order,
and a number is a place in it.  How much of the call stack tells two calls of a function apart is a choice.
-/
import GrammarInference.Collection.OrderedSet
import GrammarInference.Collection.SortedSet
import GrammarInference.Config
import GrammarInference.Execution.Tree
import GrammarInference.Trace.Basic

namespace GrammarInference

/-- A step on the way from the outermost call to a read. -/
inductive PathElement where
  /-- A call, with its number. -/
  | call (callee : String) (context : Nat)
  /-- A loop of a call, with its number. -/
  | loop (callee : String) (context id : Nat)
  /-- One iteration of a loop. -/
  | iteration (callee : String) (context id count : Nat)
  deriving DecidableEq, Repr

namespace PathElement

/-- The text of a call, between the brackets of its label. -/
def callText (callee : String) (context : Nat) : String := callee ++ "@" ++ toString context

/-- The text of a loop, between the brackets of its label. -/
def loopText (callee : String) (context id : Nat) : String :=
  callText callee context ++ "_L" ++ toString id

/-- The label of a step. -/
def label : PathElement → String
  | .call f c => "<" ++ callText f c ++ ">"
  | .loop f c i => "<" ++ loopText f c i ++ ">"
  | .iteration f c i n => "<" ++ loopText f c i ++ ":I" ++ toString n ++ ">"

/-- What the node of a step stands for. -/
def kind : PathElement → NodeKind
  | .call _ _ => .call
  | .loop _ _ _ => .loop
  | .iteration _ _ _ _ => .iteration

end PathElement

/-- What was seen so far, oldest first. -/
structure LabelState where
  /-- Functions with the keys of their calls. -/
  contexts : OrderedSet (String × String)
  /-- Functions with the headers of their loops. -/
  loops : OrderedSet (String × String)
  /-- Sets of solutions. -/
  buckets : OrderedSet (List Nat)
  deriving DecidableEq

namespace LabelState

/-- Nothing was seen. -/
def empty : LabelState := ⟨∅, ∅, ∅⟩

instance : EmptyCollection LabelState := ⟨empty⟩

/-- The place of a key among those of its function. -/
def placeOf (f key : String) (seen : OrderedSet (String × String)) : Nat :=
  (seen.toList.filter fun e => decide (e.1 = f)).idxOf (f, key)

/-- The number of a call. -/
def contextId (s : LabelState) (callee key : String) : Nat × LabelState :=
  let contexts := s.contexts.insert (callee, key)
  (placeOf callee key contexts, { s with contexts := contexts })

/-- The number of a loop. -/
def loopId (s : LabelState) (callee header : String) : Nat × LabelState :=
  let loops := s.loops.insert (callee, header)
  (placeOf callee header loops, { s with loops := loops })

/-- The number of a set of solutions. -/
def bucketId (s : LabelState) (values : List Nat) : Nat × LabelState :=
  let buckets := s.buckets.insert values
  (buckets.indexOf values + 1, { s with buckets := buckets })

/-- What tells a call apart from others of its function, given the call sites from the outermost one on. -/
def contextKey (mode : ContextMode) (callsites : List String) : String :=
  match mode with
  | .none => ""
  | .caller => callsites.getLast?.getD ""
  | .callPath => ",".intercalate callsites
  | .window k => ",".intercalate (callsites.drop (callsites.length - k))

/-- The steps of the loops of a call. -/
def loopPath (s : LabelState) (callee : String) (context : Nat) :
    List LoopIteration → List PathElement × LabelState
  | [] => ([], s)
  | l :: rest =>
    let (id, s) := s.loopId callee l.header
    let (path, s) := loopPath s callee context rest
    (.loop callee context id :: .iteration callee context id l.count.toNat :: path, s)

/-- The steps of a call stack below the given call sites. -/
def pathBelow (mode : ContextMode) (s : LabelState) (callsites : List String) :
    CallStack → List PathElement × LabelState
  | [] => ([], s)
  | f :: rest =>
    let callsites := callsites ++ [f.callsite]
    let (context, s) := s.contextId f.callee (contextKey mode callsites)
    let (loops, s) := loopPath s f.callee context f.loops
    let (path, s) := pathBelow mode s callsites rest
    (.call f.callee context :: loops ++ path, s)

/-- The steps of a call stack. -/
def path (s : LabelState) (context : CallStack) (mode : ContextMode) : List PathElement × LabelState :=
  pathBelow mode s [] context

/-- The leaf for a set of solutions, where zero counts only if `keepNull` says so. -/
def bucket (s : LabelState) (solutions : List Nat) (keepNull : Bool) : ExecutionTree × LabelState :=
  let values := (SortedSet.ofList (solutions.filter fun v => keepNull || decide (v ≠ 0))).toList
  let (id, s) := s.bucketId values
  (.node ("<__T" ++ toString id ++ ">") (.bucket values) [], s)

end LabelState

end GrammarInference
