/-
GrammarInference/Earley/Recognizer.lean

Does a nonterminal derive an input?

Design.  There is a set of items for every position of the input.  An item is an alternative with a dot up to
which it was recognized, and the position where that began.  The items of a set are processed in the order in
which they were added.  An item whose dot stands before a nonterminal adds the alternatives of that nonterminal
and, if it is nullable, the item behind it at once; one before a text adds the item behind the text to the set
where the text ends; a complete one advances the items that wait for its nonterminal where it began.  The items
that wait are read from a list that may grow while it is read.  A set holds no more items than there are dots
and positions where they can begin, which bounds the work on it.
-/
import GrammarInference.Deadline
import GrammarInference.Earley.Table
import Std.Data.TreeSet

namespace GrammarInference

namespace Earley

/-- An alternative with a dot, and the position where it began. -/
structure Item where
  /-- The place of the alternative. -/
  production : Nat
  /-- The number of parts before the dot. -/
  dot : Nat
  /-- The position where the alternative began. -/
  origin : Nat
  deriving DecidableEq, Repr

namespace Item

instance : Ord Item :=
  ⟨fun a b => (compare a.production b.production).then ((compare a.dot b.dot).then (compare a.origin b.origin))⟩

/-- The item with its dot behind the next part. -/
def advance (i : Item) : Item := { i with dot := i.dot + 1 }

end Item

/-- The items at one position of the input. -/
structure ItemSet where
  /-- The items, in the order in which they were added. -/
  items : Array Item
  /-- The same items, for looking them up. -/
  seen : Std.TreeSet Item
  /-- The items whose dot stands before a nonterminal, by that nonterminal. -/
  waiting : Std.TreeMap String (Array Item)

namespace ItemSet

/-- No items. -/
def empty : ItemSet := ⟨#[], ∅, ∅⟩

/-- The items that wait for `n`. -/
def waitingFor (s : ItemSet) (n : String) : Array Item := (s.waiting.get? n).getD #[]

/-- Adds an item whose dot stands before `next`, unless it is there. -/
def add : ItemSet → Item → Option Part → ItemSet
  | ⟨items, seen, waiting⟩, i, next =>
    if seen.contains i then ⟨items, seen, waiting⟩
    else
      ⟨items.push i, seen.insert i,
        match next with
        | some (.name n) => waiting.alter n fun w => some ((w.getD #[]).push i)
        | _ => waiting⟩

end ItemSet

/-- The sets of items for all positions of an input. -/
abbrev Chart := Array ItemSet

namespace Chart

/-- The items at position `j`. -/
def itemsAt (chart : Chart) (j : Nat) : Array Item :=
  match chart[j]? with
  | some s => s.items
  | none => #[]

/-- The item number `i` at position `j`. -/
def item? (chart : Chart) (j i : Nat) : Option Item :=
  match chart[j]? with
  | some s => s.items[i]?
  | none => none

/-- The item number `k` among those that wait for `n` at position `j`. -/
def waiting? (chart : Chart) (j : Nat) (n : String) (k : Nat) : Option Item :=
  match chart[j]? with
  | some s => (s.waitingFor n)[k]?
  | none => none

/-- Adds an item at position `j`. -/
def add (t : Table) (c : Chart) (j : Nat) (i : Item) : Chart :=
  c.modify j fun s => s.add i (t.part? i.production i.dot)

/-- Adds the alternatives of `n` at position `j`. -/
def predict (t : Table) (c : Chart) (j : Nat) (n : String) : Chart :=
  (t.alternatives n).foldl (fun c p => c.add t j ⟨p, 0, j⟩) c

/-- Advances the items that wait for `n` at `origin`, from number `k` on; the results go to position `j`. -/
def complete (t : Table) (j origin : Nat) (n : String) : Nat → Nat → Chart → Chart
  | 0, _, c => c
  | fuel + 1, k, c =>
    match c.waiting? origin n k with
    | none => c
    | some i => complete t j origin n fuel (k + 1) (c.add t j i.advance)

/-- The number of items that a set at position `j` can hold. -/
def capacity (t : Table) (j : Nat) : Nat := t.dots * (j + 1)

/-- What an item at position `j` adds. -/
def process (t : Table) (input : Array Char) (c : Chart) (j : Nat) (i : Item) : Chart :=
  match t.part? i.production i.dot with
  | some (.name n) =>
    let c := c.predict t j n
    if t.nullable.contains n then c.add t j i.advance else c
  | some (.text w) =>
    if matchesAt input j input.size w then c.add t (j + w.length) i.advance else c
  | none => complete t j i.origin (t.lhs i.production) (capacity t i.origin) 0 c

/-- Processes the items at position `j` from number `i` on; none if the deadline passed. -/
def fillSet (t : Table) (input : Array Char) (j : Nat) :
    Nat → Nat → Chart → Checkpoint → Option (Chart × Checkpoint)
  | 0, _, c, checkpoint => some (c, checkpoint)
  | fuel + 1, i, c, checkpoint =>
    match c.item? j i with
    | none => some (c, checkpoint)
    | some item =>
      match checkpoint.tick with
      | (true, _) => none
      | (false, checkpoint) => fillSet t input j fuel (i + 1) (c.process t input j item) checkpoint

/-- Processes the sets at `left` positions from `j` on. -/
def fillSets (t : Table) (input : Array Char) : Nat → Nat → Chart → Checkpoint → Option Chart
  | 0, _, c, _ => some c
  | left + 1, j, c, checkpoint =>
    match fillSet t input j (capacity t j) 0 c checkpoint with
    | none => none
    | some (c, checkpoint) => fillSets t input left (j + 1) c checkpoint

/-- The items processed from one look at the deadline to the next. -/
def period : Nat := 1024

/-- The chart of an input for the nonterminal `start`; none if the deadline passed. -/
def build (t : Table) (input : Array Char) (start : String) (deadline : Deadline) : Option Chart :=
  let c : Chart := Array.replicate (input.size + 1) ItemSet.empty
  fillSets t input (input.size + 1) 0 (c.predict t 0 start) (.start deadline period)

/-- Does a complete alternative of `start` span the whole input? -/
def accepts (t : Table) (c : Chart) (start : String) (size : Nat) : Bool :=
  (c.itemsAt size).any fun i =>
    i.origin == 0 && t.lhs i.production == start && (t.part? i.production i.dot).isNone

end Chart

/-- The answer to the question whether an input is derived. -/
inductive Recognition where
  /-- It is. -/
  | accepted
  /-- It is not. -/
  | rejected
  /-- The deadline passed. -/
  | timeout
  deriving DecidableEq, Repr

/-- Does `start` derive the input? -/
def recognizeFrom (t : Table) (start input : String) (deadline : Deadline) : Recognition :=
  let chars := input.toList.toArray
  match Chart.build t chars start deadline with
  | none => .timeout
  | some c => if c.accepts t start chars.size then .accepted else .rejected

/-- Does the start symbol derive the input? -/
def recognize (t : Table) (input : String) (deadline : Deadline) : Recognition :=
  recognizeFrom t startName input deadline

end Earley

end GrammarInference
