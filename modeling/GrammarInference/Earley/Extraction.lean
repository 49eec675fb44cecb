/-
GrammarInference/Earley/Extraction.lean

One derivation tree of an input that was recognized.

Design.  The complete items of a chart say which nonterminals span which parts of the input.  Two kinds of
question call each other: is there a tree for a nonterminal over a span, and do the parts of an alternative
from the `k`-th one on fit into a span?  The first tries the alternatives in the order of the chart.  The second
tries the ends of a nonterminal in increasing order and settles the parts behind it before the nonterminal
itself.  A question for a tree that comes up again inside itself is cut off, since a tree without such a
repetition exists too.  A dead end is remembered unless a cut happened while it was explored.  Nodes of trees
that are given up stay in the arena.  Every nested question for a tree asks for another nonterminal or another
span, which bounds the depth.
-/
import GrammarInference.Earley.Recognizer
import GrammarInference.Tree.Arena

namespace GrammarInference

namespace Earley

/-! ### Spans -/

/-- The question whether a nonterminal derives a part of the input. -/
structure Span where
  /-- The first position. -/
  first : Nat
  /-- The position behind the last one. -/
  last : Nat
  /-- The nonterminal. -/
  name : String
  deriving DecidableEq, Repr

/-- The question whether the parts of a production from `part` on fit into a part of the input. -/
structure Gap where
  /-- The first position. -/
  first : Nat
  /-- The position behind the last one. -/
  last : Nat
  /-- The place of the production. -/
  production : Nat
  /-- The number of its first part. -/
  part : Nat
  deriving DecidableEq, Repr

instance : Ord Gap :=
  ⟨fun a b => (compare a.first b.first).then ((compare a.last b.last).then
    ((compare a.production b.production).then (compare a.part b.part)))⟩

/-- For every position and nonterminal, the ends and productions of the complete items that begin there. -/
abbrev Spans := Array (Std.TreeMap String (Array (Nat × Nat)))

namespace Spans

/-- Adds the complete item for `n` that begins at `origin`. -/
def add (s : Spans) (origin : Nat) (n : String) (last production : Nat) : Spans :=
  s.modify origin fun m => m.alter n fun l => some ((l.getD #[]).push (last, production))

/-- Adds the complete ones among some items at position `last`. -/
def addItems (t : Table) (last : Nat) (s : Spans) (items : Array Item) : Spans :=
  items.foldl (fun s i =>
    if (t.part? i.production i.dot).isNone then s.add i.origin (t.lhs i.production) last i.production
    else s) s

/-- The spans of a chart. -/
def ofChart (t : Table) (c : Chart) : Spans :=
  c.toList.zipIdx.foldl (fun s (set, last) => addItems t last s set.items)
    (Array.replicate c.size ∅)

/-- The ends and productions of the spans of `n` that begin at `first`. -/
def completions (s : Spans) (n : String) (first : Nat) : List (Nat × Nat) :=
  match s[first]? with
  | some m => ((m.get? n).getD #[]).toList
  | none => []

/-- The productions that span a part of the input. -/
def productions (s : Spans) (q : Span) : List Nat :=
  ((s.completions q.name q.first).filter fun e => decide (e.1 = q.last)).map Prod.snd

/-- Drops elements that repeat the one before them. -/
def dropRepeats : List Nat → List Nat
  | [] => []
  | a :: rest =>
    match dropRepeats rest with
    | [] => [a]
    | b :: more => if a = b then b :: more else a :: b :: more

/-- The ends of the spans of `n` that begin at `first`, in increasing order: no later than `last`, or exactly
there. -/
def ends (s : Spans) (n : String) (first last : Nat) (exactly : Bool) : List Nat :=
  dropRepeats (((s.completions n first).map Prod.fst).filter fun e =>
    if exactly then decide (e = last) else decide (e ≤ last))

end Spans

/-! ### The search -/

/-- What changes during a search. -/
structure Search where
  /-- The nodes. -/
  arena : Arena
  /-- The questions for trees that are being answered, innermost first. -/
  active : List Span
  /-- The dead ends. -/
  failed : Std.TreeSet Gap
  /-- The number of questions that were cut off. -/
  cuts : Nat
  /-- The count of questions for fits. -/
  checkpoint : Checkpoint

/-- Adds a node. -/
def Search.alloc : Search → Symbol → List NodeId → NodeId × Search
  | ⟨arena, active, failed, cuts, checkpoint⟩, symbol, children =>
    let (id, arena) := arena.alloc symbol children
    (id, ⟨arena, active, failed, cuts, checkpoint⟩)

/-- The answer to a question. -/
inductive Answer (α : Type) where
  /-- There is one. -/
  | found (a : α)
  /-- There is none. -/
  | absent
  /-- The deadline passed. -/
  | interrupted

namespace Search

/-- The first answer that a list of choices gives. -/
def firstFound {α β : Type} (attempt : α → Search → Answer β × Search) :
    List α → Search → Answer β × Search
  | [], s => (.absent, s)
  | a :: rest, s =>
    match attempt a s with
    | (.absent, s) => firstFound attempt rest s
    | answer => answer

/-- Remembers a dead end, unless something was cut off since there were `cuts` cuts. -/
def fail (s : Search) (gap : Gap) (cuts : Nat) : Search :=
  if s.cuts = cuts then { s with failed := s.failed.insert gap } else s

/-- What is known about an input. -/
structure Context where
  /-- The prepared grammar. -/
  table : Table
  /-- The input. -/
  input : Array Char
  /-- The spans of its chart. -/
  spans : Spans

mutual

/-- A tree for a nonterminal over a part of the input. -/
def derive (ctx : Context) : Nat → Span → Search → Answer NodeId × Search
  | 0, _, s => (.absent, s)
  | fuel + 1, q, s =>
    if s.active.contains q then (.absent, { s with cuts := s.cuts + 1 })
    else
      let answer := firstFound (fun p s => fit ctx fuel ⟨q.first, q.last, p, 0⟩ s)
        (ctx.spans.productions q) { s with active := q :: s.active }
      match answer with
      | (.found children, s) =>
        let (id, s) := s.alloc (.nonterminal q.name) children
        (.found id, { s with active := s.active.erase q })
      | (.absent, s) => (.absent, { s with active := s.active.erase q })
      | (.interrupted, s) => (.interrupted, s)

/-- Nodes for the parts of a production, from one of them on, over a part of the input. -/
def fit (ctx : Context) : Nat → Gap → Search → Answer (List NodeId) × Search
  | 0, _, s => (.absent, s)
  | fuel + 1, gap, s =>
    let (stop, checkpoint) := s.checkpoint.tick
    let s := { s with checkpoint := checkpoint }
    if stop then (.interrupted, s)
    else
      match ctx.table.part? gap.production gap.part with
      | none => if gap.first = gap.last then (.found [], s) else (.absent, s)
      | some part =>
        if s.failed.contains gap then (.absent, s)
        else
          let cuts := s.cuts
          match part with
          | .text w =>
            if matchesAt ctx.input gap.first gap.last w then
              match fit ctx fuel ⟨gap.first + w.length, gap.last, gap.production, gap.part + 1⟩ s with
              | (.found rest, s) =>
                let (id, s) := s.alloc (.terminal (String.ofList w)) []
                (.found (id :: rest), s)
              | (.absent, s) => (.absent, s.fail gap cuts)
              | (.interrupted, s) => (.interrupted, s)
            else (.absent, s.fail gap cuts)
          | .name n =>
            let isLast := (ctx.table.part? gap.production (gap.part + 1)).isNone
            let answer := firstFound (fun e s =>
                match fit ctx fuel ⟨e, gap.last, gap.production, gap.part + 1⟩ s with
                | (.found rest, s) =>
                  match derive ctx fuel ⟨gap.first, e, n⟩ s with
                  | (.found id, s) => (.found (id :: rest), s)
                  | (.absent, s) => (.absent, s)
                  | (.interrupted, s) => (.interrupted, s)
                | (.absent, s) => (.absent, s)
                | (.interrupted, s) => (.interrupted, s))
              (ctx.spans.ends n gap.first gap.last isLast) s
            match answer with
            | (.absent, s) => (.absent, s.fail gap cuts)
            | answer => answer

end

/-- A bound on the depth of nested questions. -/
def depthBound (t : Table) (size : Nat) : Nat :=
  ((t.productions.size + 1) * ((size + 1) * (size + 1)) + 2) * (t.dots + 2)

/-- The questions for fits from one look at the deadline to the next. -/
def period : Nat := 1024

end Search

/-! ### Parsing -/

/-- The outcome of parsing. -/
inductive ParseOutcome where
  /-- The root of a tree. -/
  | tree (root : NodeId)
  /-- The input is not derived. -/
  | noParse
  /-- The deadline passed. -/
  | timeout
  deriving DecidableEq, Repr

/-- Parses an input from `start`, allocating the tree in the arena. -/
def parseFrom (t : Table) (arena : Arena) (start input : String) (deadline : Deadline) :
    ParseOutcome × Arena :=
  let chars := input.toList.toArray
  match Chart.build t chars start deadline with
  | none => (.timeout, arena)
  | some c =>
    if !c.accepts t start chars.size then (.noParse, arena)
    else
      let ctx : Search.Context := ⟨t, chars, .ofChart t c⟩
      let search : Search := ⟨arena, [], ∅, 0, .start deadline Search.period⟩
      match Search.derive ctx (Search.depthBound t chars.size) ⟨0, chars.size, start⟩ search with
      | (.found root, s) => (.tree root, s.arena)
      | (.absent, s) => (.noParse, s.arena)
      | (.interrupted, s) => (.timeout, s.arena)

/-- Parses an input from the start symbol. -/
def parse (t : Table) (arena : Arena) (input : String) (deadline : Deadline) : ParseOutcome × Arena :=
  parseFrom t arena startName input deadline

end Earley

end GrammarInference
