/-
GrammarInference/Deadline.lean

Deadlines of long operations, and how often they are looked at.

Design.  Nothing is interrupted from outside: an operation counts its steps and looks at its deadline once in a
fixed number of them.  A deadline here either never comes or has passed already, so what matters is the number
of steps at which an operation first looks.

Limit.  The clock stands still: a deadline that lies ahead when an operation begins is never met by it, however long
it lasts, and one operation after the other finds the same time.  What would be broken off halfway on a running clock
is thus either carried out, or broken off at the first look.
-/

namespace GrammarInference

/-- When an operation has to stop. -/
inductive Deadline where
  /-- Never. -/
  | never
  /-- It should have stopped already. -/
  | expired
  deriving DecidableEq, Repr

namespace Deadline

/-- Has the deadline passed? -/
def hasPassed : Deadline → Bool
  | never => false
  | expired => true

/-- The deadline that lies a number of nanoseconds ahead; any time but none at all is long enough, as the clock stands
still. -/
def after (nanoseconds : Nat) : Deadline := if nanoseconds = 0 then expired else never

/-- The earlier of a deadline and a cancellation. -/
def orCancelled (d : Deadline) (cancelled : Bool) : Deadline := if cancelled then expired else d

end Deadline

/-- A count of steps; the deadline is looked at whenever the count is a multiple of `period`. -/
structure Checkpoint where
  /-- The deadline. -/
  deadline : Deadline
  /-- The number of steps from one look to the next. -/
  period : Nat
  /-- The steps so far. -/
  steps : Nat
  deriving DecidableEq, Repr

namespace Checkpoint

/-- A fresh count. -/
def start (deadline : Deadline) (period : Nat) : Checkpoint := ⟨deadline, max period 1, 0⟩

/-- Counts one step, and says whether the operation has to stop. -/
def tick (c : Checkpoint) : Bool × Checkpoint :=
  let steps := c.steps + 1
  (decide (steps % c.period = 0) && c.deadline.hasPassed, { c with steps := steps })

end Checkpoint

end GrammarInference
