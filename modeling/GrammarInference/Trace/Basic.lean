/-
GrammarInference/Trace/Basic.lean

Traces: what a program did with every position of one input.

Design.  A record for each input position lists every time the position was read, with a counter that numbers
all reads of the run and the call stack at that read, and the values that the position may take.  A trace is
built from records under textual keys; the keys have to denote the positions from zero on, each once.  The
checks are made in the order of the keys as texts, then in the order of positions.
-/
import GrammarInference.Collection.OrderedMap
import GrammarInference.Error
import GrammarInference.Text.Natural

namespace GrammarInference

/-- The state of a loop at a read. -/
structure LoopIteration where
  /-- The name of the loop. -/
  header : String
  /-- The number of the iteration. -/
  count : UInt64
  deriving DecidableEq, Repr

/-- A call that was active at a read. -/
structure Frame where
  /-- The function that was called. -/
  callee : String
  /-- The place of the call. -/
  callsite : String
  /-- The loops that were active in the call, outermost first. -/
  loops : List LoopIteration
  deriving DecidableEq, Repr

/-- The calls that were active at a read, outermost first. -/
abbrev CallStack := List Frame

/-- Everything recorded for one input position. -/
structure PositionRecord where
  /-- The numbers of the reads, in the order in which they happened. -/
  readOrders : List UInt64
  /-- The call stacks of the reads. -/
  contexts : List CallStack
  /-- The values that the position may take. -/
  solutions : List UInt32
  deriving DecidableEq, Repr

/-- The values that the position may take, as natural numbers. -/
def PositionRecord.values (r : PositionRecord) : List Nat := r.solutions.map UInt32.toNat

/-- A record has a call stack for each read and at least one solution. -/
def PositionRecord.Consistent (r : PositionRecord) : Prop :=
  r.readOrders.length = r.contexts.length ∧ r.solutions ≠ []

/-- The records of the positions from zero on. -/
structure Trace where
  /-- The records. -/
  positions : List PositionRecord
  /-- There is a position. -/
  nonempty : positions ≠ []
  /-- Every record is consistent. -/
  consistent : ∀ r ∈ positions, r.Consistent
  /-- Every position is a word of 64 bits. -/
  size_le : positions.length ≤ UInt64.size

namespace Trace

@[ext] theorem ext {s t : Trace} (h : s.positions = t.positions) : s = t := by
  cases s; cases t; cases h; rfl

instance : DecidableEq Trace := fun s t => decidable_of_iff (s.positions = t.positions) ⟨ext, fun h => h ▸ rfl⟩

/-- The number of positions. -/
def size (t : Trace) : Nat := t.positions.length

/-- The position that a key denotes. -/
def positionOfKey? (key : String) : Option UInt64 := parseWord? (trimSpace key.toList)

/-- The records under their positions; every key has to denote one, and no two the same. -/
def index (seen : List (UInt64 × PositionRecord)) :
    List (String × PositionRecord) → Except Error (List (UInt64 × PositionRecord))
  | [] => .ok seen
  | (key, r) :: rest =>
    match positionOfKey? key with
    | none => .error (.badPosition key)
    | some p =>
      if seen.any fun e => decide (e.1 = p) then .error (.badPosition key)
      else index (seen ++ [(p, r)]) rest

/-- Consistent records of the positions from `first` on. -/
abbrev Checked (first : Nat) :=
  { l : List PositionRecord // (∀ r ∈ l, r.Consistent) ∧ first + l.length ≤ UInt64.size }

/-- Checks that the positions follow each other from `expected` on and that every record is consistent. -/
def check (expected : Nat) (h : expected ≤ UInt64.size) :
    List (UInt64 × PositionRecord) → Except Error (Checked expected)
  | [] => .ok ⟨[], by simp, h⟩
  | (p, r) :: rest =>
    if hp : p.toNat ≠ expected then .error (.traceGap expected)
    else if ho : r.readOrders.length ≠ r.contexts.length then
      .error (.mismatchedContexts expected r.readOrders.length r.contexts.length)
    else if hs : r.solutions = [] then .error (.emptySolutions expected)
    else
      have hlt : expected < UInt64.size := Decidable.of_not_not hp ▸ p.toNat_lt_size
      match check (expected + 1) hlt rest with
      | .error e => .error e
      | .ok ⟨l, hl, hn⟩ => .ok ⟨r :: l, by
          simp only [List.mem_cons, forall_eq_or_imp]
          exact ⟨⟨Decidable.of_not_not ho, hs⟩, hl⟩, by
          rw [List.length_cons, ← Nat.add_assoc, Nat.add_right_comm]; exact hn⟩

/-- A trace from its records. -/
def ofRecords (records : OrderedMap String PositionRecord) : Except Error Trace :=
  let byKey := records.entries.mergeSort fun a b => !decide (b.1 < a.1)
  match index [] byKey with
  | .error e => .error e
  | .ok indexed =>
    match check 0 (Nat.zero_le _) (indexed.mergeSort fun a b => decide (a.1.toNat ≤ b.1.toNat)) with
    | .error e => .error e
    | .ok ⟨l, hl, hn⟩ => if h : l = [] then .error .emptyTrace else .ok ⟨l, h, hl, Nat.zero_add l.length ▸ hn⟩

/-- The records of a trace under the positions as keys. -/
def toRecords (t : Trace) : List (String × PositionRecord) :=
  t.positions.zipIdx.map fun (r, i) => (toString i, r)

end Trace

end GrammarInference
