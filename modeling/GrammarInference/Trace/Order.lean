/-
GrammarInference/Trace/Order.lean

Choosing one read for each position, with read orders that increase along the input.

Design.  A program may read a position several times, and later positions before earlier ones.  The choice
starts from the last read of every position.  A position without reads takes over the read of the position
before it, placed just behind that read.  While a longest increasing subsequence of the chosen orders misses
positions, the latest read of a missed position, the one with the smallest order, is given up.  A position that
was repaired in either way loses an innermost call of a function that was not observed, since that call did not
really perform the read.  At last an almost unconstrained read at the end of the input is dropped, and then a
null one.

The reads of a position that are still possible are kept newest first.  Each round gives up one read, so the
bound on the rounds bounds the recursion.
-/
import GrammarInference.Collection.SortedSet
import GrammarInference.Config
import GrammarInference.Text.Split
import GrammarInference.Trace.Basic
import GrammarInference.Trace.Increasing

namespace GrammarInference

/-- The place of a read among all reads: a recorded one has offset zero, and one that was taken over stands
just behind the read it came from. -/
structure ReadOrder where
  /-- The number of the recorded read. -/
  base : Nat
  /-- How often the read was taken over. -/
  offset : Nat
  deriving DecidableEq, Repr

namespace ReadOrder

instance : LT ReadOrder := ⟨fun a b => a.base < b.base ∨ (a.base = b.base ∧ a.offset < b.offset)⟩

instance : DecidableLT ReadOrder := fun a b =>
  inferInstanceAs (Decidable (a.base < b.base ∨ (a.base = b.base ∧ a.offset < b.offset)))

/-- The place just behind a read. -/
def next (o : ReadOrder) : ReadOrder := ⟨o.base, o.offset + 1⟩

end ReadOrder

/-- A read that a position may keep. -/
structure Candidate where
  /-- The place of the read. -/
  order : ReadOrder
  /-- The call stack at the read. -/
  context : CallStack
  deriving DecidableEq, Repr

/-- A position with the read that it keeps. -/
structure OrderedPosition where
  /-- The place of the read. -/
  order : ReadOrder
  /-- The call stack at the read. -/
  context : CallStack
  /-- The values that the position may take. -/
  solutions : List Nat
  deriving DecidableEq, Repr

/-- The positions of a trace, with increasing read orders. -/
structure OrderedTrace where
  /-- The positions that were kept. -/
  positions : List OrderedPosition
  /-- The positions that took over the read of the position before them. -/
  inherited : SortedSet Nat
  /-- The positions that gave up a read. -/
  popped : SortedSet Nat
  deriving DecidableEq

namespace OrderedTrace

/-- The number of positions that were repaired. -/
def fixedPositions (t : OrderedTrace) : Nat := (t.inherited.union t.popped).size

/-- Was a position repaired? -/
def wasFixed (t : OrderedTrace) : Bool := !t.inherited.isEmpty || !t.popped.isEmpty

end OrderedTrace

/-! ### Calls that were not observed -/

/-- Is the function unobserved, and no loop of its own? -/
def Frame.isUnobserved (f : Frame) : Bool :=
  "__external_".toList.isPrefixOf f.callee.toList && !occursIn "_L_0x".toList f.callee.toList

/-- Drops the innermost call if its function was not observed. -/
def pruneExternal (context : CallStack) : CallStack :=
  match context.getLast? with
  | some f => if f.isUnobserved then context.dropLast else context
  | none => context

/-! ### Repairing -/

/-- The reads that are left, newest first, and the repairs so far. -/
structure Repair where
  /-- The reads that each position may still keep. -/
  candidates : List (List Candidate)
  /-- The positions that took over a read. -/
  inherited : SortedSet Nat
  /-- The positions that gave up a read. -/
  popped : SortedSet Nat
  deriving DecidableEq

namespace Repair

/-- The reads of a record, newest first. -/
def candidatesOf (r : PositionRecord) : List Candidate :=
  (List.zipWith (fun o c => ⟨⟨o.toNat, 0⟩, c⟩) r.readOrders r.contexts).reverse

/-- All recorded reads. -/
def start (t : Trace) : Repair := ⟨t.positions.map candidatesOf, ∅, ∅⟩

/-- Lets every position from `p` on that has no read take over the one before it; also gives those positions.
There is none to take over if the first position has no read. -/
def inherit (previous : Option Candidate) (p : Nat) :
    List (List Candidate) → Option (List (List Candidate) × List Nat)
  | [] => some ([], [])
  | (c :: cs) :: rest => (inherit (some c) (p + 1) rest).map fun (l, ps) => ((c :: cs) :: l, ps)
  | [] :: rest =>
    match previous with
    | none => none
    | some c =>
      let taken : Candidate := ⟨c.order.next, c.context⟩
      (inherit (some taken) (p + 1) rest).map fun (l, ps) => ([taken] :: l, p :: ps)

/-- Lets positions without reads take over the ones before them. -/
def fill (s : Repair) : Option Repair :=
  (inherit none 0 s.candidates).map fun (l, ps) =>
    { s with candidates := l, inherited := ps.foldl SortedSet.insert s.inherited }

/-- The read orders that are chosen now. -/
def orders (s : Repair) : List ReadOrder := s.candidates.filterMap fun cs => cs.head?.map Candidate.order

/-- The first of the listed positions whose order is smallest. -/
def smallest : List (Nat × ReadOrder) → Option Nat
  | [] => none
  | e :: rest => some (rest.foldl (fun best e => if e.2 < best.2 then e else best) e).1

/-- The position that gives up a read: the one with the smallest order among those outside the subsequence,
where the first position must have another read; if there is none, among all later positions. -/
def odd (s : Repair) (inside : List Nat) : Option Nat :=
  let places := s.orders.zipIdx.map fun (o, p) => (p, o)
  let poppable (p : Nat) : Bool := decide (0 < p) || decide (1 < (s.candidates[p]?.getD []).length)
  match smallest (places.filter fun e => !inside.contains e.1 && poppable e.1) with
  | some p => some p
  | none => smallest (places.drop 1)

/-- Gives up the newest read of position `p`. -/
def pop (s : Repair) (p : Nat) : Repair :=
  { s with candidates := s.candidates.modify p List.tail, popped := s.popped.insert p }

/-- Repairs until the chosen orders increase, with at most `left` more rounds. -/
def run (s : Repair) (rounds : Nat) : Nat → Except Error Repair
  | 0 =>
    match s.fill with
    | none => .error (.unorderableTrace rounds)
    | some s =>
      if (longestIncreasing s.orders).length = s.candidates.length then .ok s
      else .error (.unorderableTrace (rounds + 1))
  | left + 1 =>
    match s.fill with
    | none => .error (.unorderableTrace rounds)
    | some s =>
      let inside := longestIncreasing s.orders
      if inside.length = s.candidates.length then .ok s
      else
        match s.odd inside with
        | none => .error (.unorderableTrace (rounds + 1))
        | some p => run (s.pop p) (rounds + 1) left

/-- The positions with the reads that they keep. -/
def chosen (s : Repair) (t : Trace) : List OrderedPosition :=
  (t.positions.zip s.candidates).zipIdx.filterMap fun ((r, cs), p) =>
    cs.head?.map fun c =>
      { order := c.order
        context := if p ∈ s.inherited.toList ∨ p ∈ s.popped.toList then pruneExternal c.context else c.context
        solutions := r.values }

end Repair

/-! ### The end of the input -/

/-- Drops the last element if it satisfies `p` and is not the only one. -/
def dropLastIf {α : Type} (p : α → Bool) (l : List α) : List α :=
  match l.getLast? with
  | some last => if 1 < l.length ∧ p last then l.dropLast else l
  | none => l

/-- Drops an almost unconstrained element at the end, then a null one; `solutions` gives the values of an
element. -/
def dropTrailing {α : Type} (config : OrderConfig) (solutions : α → List Nat) (l : List α) : List α :=
  if config.dropTrailingLookahead then
    dropLastIf (fun a => decide (solutions a = [0]))
      (dropLastIf (fun a => decide (config.unconstrainedSolutionCount < (solutions a).length)) l)
  else l

/-! ### Ordering -/

/-- The bound on the rounds of repair for a trace of `n` positions.  The product is not cut off at the largest machine
word, which no number of rounds comes near. -/
def OrderConfig.maxRounds (config : OrderConfig) (n : Nat) : Nat :=
  max 1 (config.maxRepairRoundsPerPosition * n)

/-- Does the first position of the input have a read? -/
def Trace.readsFirst (t : Trace) : Bool :=
  match t.positions.head? with
  | some r => !r.readOrders.isEmpty
  | none => false

/-- Puts a trace into order. -/
def orderTrace (t : Trace) (config : OrderConfig) : Except Error OrderedTrace :=
  if !t.readsFirst then .error .unreadFirstPosition
  else
    match (Repair.start t).run 0 (config.maxRounds t.size) with
    | .error e => .error e
    | .ok s => .ok ⟨dropTrailing config OrderedPosition.solutions (s.chosen t), s.inherited, s.popped⟩

end GrammarInference
